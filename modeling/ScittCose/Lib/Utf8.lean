import ScittCose.Lib.Octets

/-!
# UTF-8

`Utf8.encode` writes the UTF-8 of a string. `Utf8.decode` reads scalar values and refuses
everything that is not the encoding of one (overlong forms, surrogates, values above U+10FFFF);
`decode_eq_some_iff` says it inverts `encode`. `Utf8.valid` decides well-formedness from octet
ranges alone, the second octet's range depending on the first (Unicode Table 3-7);
`valid_eq_isSome_decode` says the two readings accept the same octets.
-/

namespace Utf8

/-- The UTF-8 octets of a list of scalar values. -/
def encodeChars (cs : List Char) : Octets := cs.flatMap String.utf8EncodeChar

/-- The UTF-8 octets of a string. -/
def encode (s : String) : Octets := encodeChars s.toList

/-- `n` is a scalar value and no smaller than `lo`, so not overlong for its octet count. -/
def Scalar (lo n : ℕ) : Prop := lo ≤ n ∧ n.isValidChar

instance (lo n : ℕ) : Decidable (Scalar lo n) := inferInstanceAs (Decidable (_ ∧ _))

/-- Read scalar values. With `k` continuation octets still owed, `acc` holds the bits read so
far and `lo` the least value the octet count may carry. -/
def decodeFrom : ℕ → ℕ → ℕ → Octets → Option (List Char)
  | 0, _, _, [] => some []
  | _ + 1, _, _, [] => none
  | 0, _, _, a :: rest =>
    let n := a.toNat
    if n < 0x80 then (decodeFrom 0 0 0 rest).map (Char.ofNat n :: ·)
    else if n < 0xC0 then none
    else if n < 0xE0 then decodeFrom 1 (n - 0xC0) 0x80 rest
    else if n < 0xF0 then decodeFrom 2 (n - 0xE0) 0x800 rest
    else if n < 0xF8 then decodeFrom 3 (n - 0xF0) 0x10000 rest
    else none
  | 1, acc, lo, b :: rest =>
    let v := acc * 64 + (b.toNat - 0x80)
    if (0x80 ≤ b.toNat ∧ b.toNat < 0xC0) ∧ Scalar lo v then
      (decodeFrom 0 0 0 rest).map (Char.ofNat v :: ·)
    else none
  | k + 2, acc, lo, b :: rest =>
    if 0x80 ≤ b.toNat ∧ b.toNat < 0xC0 then
      decodeFrom (k + 1) (acc * 64 + (b.toNat - 0x80)) lo rest
    else none

/-- The scalar values of a UTF-8 octet string, or `none`. -/
def decodeChars (b : Octets) : Option (List Char) := decodeFrom 0 0 0 b

/-- The string of a UTF-8 octet string, or `none`. -/
def decode (b : Octets) : Option String := (decodeChars b).map String.ofList

/-- Octet ranges: `k` octets owed, the next of them from `low` to `high`. -/
def validFrom : ℕ → ℕ → ℕ → Octets → Bool
  | 0, _, _, [] => true
  | _ + 1, _, _, [] => false
  | 0, _, _, a :: rest =>
    let n := a.toNat
    if n ≤ 0x7F then validFrom 0 0 0 rest
    else if n < 0xC2 then false
    else if n ≤ 0xDF then validFrom 1 0x80 0xBF rest
    else if n = 0xE0 then validFrom 2 0xA0 0xBF rest
    else if n = 0xED then validFrom 2 0x80 0x9F rest
    else if n ≤ 0xEF then validFrom 2 0x80 0xBF rest
    else if n = 0xF0 then validFrom 3 0x90 0xBF rest
    else if n ≤ 0xF3 then validFrom 3 0x80 0xBF rest
    else if n = 0xF4 then validFrom 3 0x80 0x8F rest
    else false
  | k + 1, low, high, b :: rest =>
    if low ≤ b.toNat ∧ b.toNat ≤ high then validFrom k 0x80 0xBF rest else false

/-- Whether an octet string is well-formed UTF-8. -/
def valid (b : Octets) : Bool := validFrom 0 0 0 b

/-! ## Reading inverts writing -/

theorem toNat_ofNat {n : ℕ} (h : n.isValidChar) : (Char.ofNat n).val.toNat = n := by
  have : Char.ofNat n = Char.ofNatAux n h := by simp [Char.ofNat, h]
  rw [this]
  rfl

theorem ofNat_val (c : Char) : Char.ofNat c.val.toNat = c := Char.ofNat_toNat c

theorem isValidChar_val (c : Char) : c.val.toNat.isValidChar := c.valid

/-- Reading the octets of one scalar value yields it and goes on with the rest. -/
theorem decodeFrom_utf8EncodeChar (c : Char) (rest : Octets) :
    decodeFrom 0 0 0 (String.utf8EncodeChar c ++ rest)
      = (decodeFrom 0 0 0 rest).map (c :: ·) := by
  have hv := isValidChar_val c
  have hc := ofNat_val c
  simp only [String.utf8EncodeChar]
  generalize c.val.toNat = n at hv hc
  have hlt : n < 0x110000 := by rcases hv with h | h <;> omega
  split_ifs with h1 h2 h3
  · have ha : (UInt8.ofNat n).toNat = n := by rw [UInt8.toNat_ofNat']; omega
    simp only [List.cons_append, List.nil_append, decodeFrom, ha]
    rw [if_pos (by omega), hc]
  · have ha : (UInt8.ofNat (n / 64 % 32 + 192)).toNat = n / 64 + 192 := by
      rw [UInt8.toNat_ofNat']; omega
    have hb : (UInt8.ofNat (n % 64 + 128)).toNat = n % 64 + 128 := by
      rw [UInt8.toNat_ofNat']; omega
    have hsum : (n / 64 + 192 - 192) * 64 + (n % 64 + 128 - 128) = n := by omega
    simp only [List.cons_append, List.nil_append, decodeFrom, ha, hb, hsum]
    rw [if_neg (by omega), if_neg (by omega), if_pos (by omega),
      if_pos ⟨by omega, by omega, hv⟩, hc]
  · have ha : (UInt8.ofNat (n / 4096 % 16 + 224)).toNat = n / 4096 + 224 := by
      rw [UInt8.toNat_ofNat']; omega
    have hb : (UInt8.ofNat (n / 64 % 64 + 128)).toNat = n / 64 % 64 + 128 := by
      rw [UInt8.toNat_ofNat']; omega
    have hd : (UInt8.ofNat (n % 64 + 128)).toNat = n % 64 + 128 := by
      rw [UInt8.toNat_ofNat']; omega
    have hsum : ((n / 4096 + 224 - 224) * 64 + (n / 64 % 64 + 128 - 128)) * 64
        + (n % 64 + 128 - 128) = n := by omega
    simp only [List.cons_append, List.nil_append, decodeFrom, ha, hb, hd, hsum]
    rw [if_neg (by omega), if_neg (by omega), if_neg (by omega), if_pos (by omega),
      if_pos (by omega), if_pos ⟨by omega, by omega, hv⟩, hc]
  · have ha : (UInt8.ofNat (n / 262144 % 8 + 240)).toNat = n / 262144 + 240 := by
      rw [UInt8.toNat_ofNat']; omega
    have hb : (UInt8.ofNat (n / 4096 % 64 + 128)).toNat = n / 4096 % 64 + 128 := by
      rw [UInt8.toNat_ofNat']; omega
    have hd : (UInt8.ofNat (n / 64 % 64 + 128)).toNat = n / 64 % 64 + 128 := by
      rw [UInt8.toNat_ofNat']; omega
    have he : (UInt8.ofNat (n % 64 + 128)).toNat = n % 64 + 128 := by
      rw [UInt8.toNat_ofNat']; omega
    have hsum : (((n / 262144 + 240 - 240) * 64 + (n / 4096 % 64 + 128 - 128)) * 64
        + (n / 64 % 64 + 128 - 128)) * 64 + (n % 64 + 128 - 128) = n := by omega
    simp only [List.cons_append, List.nil_append, decodeFrom, ha, hb, hd, he, hsum]
    rw [if_neg (by omega), if_neg (by omega), if_neg (by omega), if_neg (by omega),
      if_pos (by omega), if_pos (by omega), if_pos (by omega), if_pos ⟨by omega, by omega, hv⟩, hc]

theorem decodeChars_encodeChars (cs : List Char) : decodeChars (encodeChars cs) = some cs := by
  induction cs with
  | nil => rfl
  | cons c cs ih =>
      have := decodeFrom_utf8EncodeChar c (encodeChars cs)
      simp_all [decodeChars, encodeChars]

/-- The last `k` octets of the encoding of the value `v`. -/
def tailOctets : ℕ → ℕ → Octets
  | 0, _ => []
  | k + 1, v => tailOctets k (v / 64) ++ [UInt8.ofNat (v % 64 + 128)]

theorem tailOctets_succ (k v : ℕ) :
    tailOctets (k + 1) v = UInt8.ofNat (v / 64 ^ k % 64 + 128) :: tailOctets k v := by
  induction k generalizing v with
  | zero => simp [tailOctets]
  | succ k ih =>
      rw [tailOctets, ih, tailOctets, Nat.div_div_eq_div_mul, pow_succ]
      simp [Nat.mul_comm]

/-- What a successful read in the middle of a scalar value has read. -/
theorem decodeFrom_succ_eq_some {k acc lo : ℕ} {b : Octets} {cs : List Char}
    (h : decodeFrom (k + 1) acc lo b = some cs) :
    ∃ v rest cs', Scalar lo v ∧ v / 64 ^ (k + 1) = acc ∧ b = tailOctets (k + 1) v ++ rest ∧
      decodeFrom 0 0 0 rest = some cs' ∧ cs = Char.ofNat v :: cs' := by
  induction k generalizing acc b with
  | zero =>
      cases b with
      | nil => cases h
      | cons x b =>
          simp only [decodeFrom] at h
          split_ifs at h with hx
          obtain ⟨cs', hcs', rfl⟩ := Option.map_eq_some_iff.mp h
          refine ⟨_, b, cs', hx.2, by omega, ?_, hcs', rfl⟩
          have hx8 : (acc * 64 + (x.toNat - 0x80)) % 64 + 128 = x.toNat := by omega
          rw [tailOctets, hx8, UInt8.ofNat_toNat]
          rfl
  | succ k ih =>
      cases b with
      | nil => cases h
      | cons x b =>
          simp only [decodeFrom] at h
          split_ifs at h with hx
          obtain ⟨v, rest, cs', hv, hacc, rfl, hcs', hcs⟩ := ih h
          have hdiv : v / 64 ^ (k + 1 + 1) = v / 64 ^ (k + 1) / 64 := by
            rw [pow_succ, Nat.div_div_eq_div_mul]
          have hoct : UInt8.ofNat (v / 64 ^ (k + 1) % 64 + 128) = x := by
            apply UInt8.toNat_inj.mp
            rw [UInt8.toNat_ofNat', hacc]
            omega
          refine ⟨v, rest, cs', hv, by omega, ?_, hcs', hcs⟩
          rw [tailOctets_succ (k + 1), hoct]
          rfl

/-- The encoding of a scalar value is its lead octet and its tail. -/
theorem utf8EncodeChar_ofNat {v : ℕ} (hv : v.isValidChar) :
    String.utf8EncodeChar (Char.ofNat v) =
      if v ≤ 0x7F then [UInt8.ofNat v]
      else if v ≤ 0x7FF then UInt8.ofNat (v / 64 + 0xC0) :: tailOctets 1 v
      else if v ≤ 0xFFFF then UInt8.ofNat (v / 4096 + 0xE0) :: tailOctets 2 v
      else UInt8.ofNat (v / 262144 + 0xF0) :: tailOctets 3 v := by
  have hlt : v < 0x110000 := by rcases hv with h | h <;> omega
  simp only [String.utf8EncodeChar, toNat_ofNat hv, tailOctets_succ]
  split_ifs with h1 h2 h3
  · rfl
  · have : v / 64 % 32 = v / 64 := by omega
    simp [this, tailOctets]
  · have : v / 4096 % 16 = v / 4096 := by omega
    simp [this, tailOctets]
  · have : v / 262144 % 8 = v / 262144 := by omega
    simp [this, tailOctets]

theorem encodeChars_of_decodeChars {b : Octets} {cs : List Char} (h : decodeChars b = some cs) :
    encodeChars cs = b := by
  induction cs generalizing b with
  | nil =>
      cases b with
      | nil => rfl
      | cons a b =>
          exfalso
          simp only [decodeChars, decodeFrom] at h
          split_ifs at h
          · simp at h
          all_goals
            obtain ⟨_, _, _, -, -, -, -, hcs⟩ := decodeFrom_succ_eq_some h
            cases hcs
  | cons c cs ih =>
      cases b with
      | nil => cases h
      | cons a b =>
          have ha := a.toNat_lt
          have hout : ∀ {v : ℕ} {tail rest cs'}, c :: cs = Char.ofNat v :: cs' → v.isValidChar →
              String.utf8EncodeChar (Char.ofNat v) = a :: tail → decodeFrom 0 0 0 rest = some cs' →
              encodeChars (c :: cs) = a :: (tail ++ rest) := by
            intro v tail rest cs' hcs hv henc hrest
            obtain ⟨rfl, rfl⟩ := List.cons.inj hcs
            rw [encodeChars, List.flatMap_cons, henc]
            exact congrArg (fun r => a :: (tail ++ r)) (ih hrest)
          simp only [decodeChars, decodeFrom] at h
          split_ifs at h with h1 h2 h3 h4 h5
          · obtain ⟨cs', hcs', hcs⟩ := Option.map_eq_some_iff.mp h
            have hv : a.toNat.isValidChar := Or.inl (by omega)
            refine @hout _ [] _ _ hcs.symm hv ?_ hcs'
            rw [utf8EncodeChar_ofNat hv, if_pos (by omega), UInt8.ofNat_toNat]
          · obtain ⟨v, rest, cs', hv, hacc, rfl, hrest, hcs⟩ := decodeFrom_succ_eq_some h
            have hlead : v / 64 + 0xC0 = a.toNat := by omega
            refine hout hcs hv.2 ?_ hrest
            rw [utf8EncodeChar_ofNat hv.2, if_neg (by have := hv.1; omega), if_pos (by omega),
              hlead, UInt8.ofNat_toNat]
          · obtain ⟨v, rest, cs', hv, hacc, rfl, hrest, hcs⟩ := decodeFrom_succ_eq_some h
            have hlo := hv.1
            have hlead : v / 4096 + 0xE0 = a.toNat := by omega
            refine hout hcs hv.2 ?_ hrest
            rw [utf8EncodeChar_ofNat hv.2, if_neg (by omega), if_neg (by omega),
              if_pos (by omega), hlead, UInt8.ofNat_toNat]
          · obtain ⟨v, rest, cs', hv, hacc, rfl, hrest, hcs⟩ := decodeFrom_succ_eq_some h
            have hlo := hv.1
            have hlead : v / 262144 + 0xF0 = a.toNat := by omega
            refine hout hcs hv.2 ?_ hrest
            rw [utf8EncodeChar_ofNat hv.2, if_neg (by omega), if_neg (by omega),
              if_neg (by omega), hlead, UInt8.ofNat_toNat]

/-- Reading yields a string exactly on that string's encoding. -/
theorem decode_eq_some_iff {b : Octets} {s : String} : decode b = some s ↔ encode s = b := by
  constructor
  · intro h
    obtain ⟨cs, hcs, rfl⟩ := Option.map_eq_some_iff.mp h
    rw [encode, String.toList_ofList]
    exact encodeChars_of_decodeChars hcs
  · rintro rfl
    rw [decode, encode, decodeChars_encodeChars, Option.map_some, String.ofList_toList]

@[simp] theorem decode_encode (s : String) : decode (encode s) = some s := decode_eq_some_iff.mpr rfl

theorem encode_injective : Function.Injective encode := by
  intro s t h
  have := congrArg decode h
  simpa using this

/-! ## Octet ranges decide the same octets -/

/-- No value whose high bits are `acc`, with `k` octets to come, is in order. -/
def Dead (k acc lo : ℕ) : Prop := ∀ v, v / 64 ^ k = acc → ¬ Scalar lo v

/-- Every value whose high bits are `acc`, with `k` octets to come, is in order. -/
def Live (k acc lo : ℕ) : Prop := ∀ v, v / 64 ^ k = acc → Scalar lo v

theorem decodeFrom_of_dead {k acc lo : ℕ} (h : Dead (k + 1) acc lo) (b : Octets) :
    decodeFrom (k + 1) acc lo b = none := by
  by_contra hne
  obtain ⟨cs, hcs⟩ := Option.ne_none_iff_exists'.mp hne
  obtain ⟨v, -, -, hv, hacc, -⟩ := decodeFrom_succ_eq_some hcs
  exact h v hacc hv

/-- One more continuation octet keeps a live prefix live. -/
theorem Live.step {k acc lo x : ℕ} (h : Live (k + 1) acc lo) (hx : x < 64) :
    Live k (acc * 64 + x) lo := by
  intro v hv
  refine h v ?_
  rw [pow_succ, ← Nat.div_div_eq_div_mul, hv]
  omega

/-- Between characters the range bounds say nothing. -/
theorem validFrom_zero (low high : ℕ) (b : Octets) :
    validFrom 0 low high b = validFrom 0 0 0 b := by
  cases b <;> rfl

theorem isSome_decodeFrom_of_live {k acc lo : ℕ} (h : Live (k + 1) acc lo) (b : Octets)
    (ih : ∀ b' : Octets, b'.length < b.length →
      (decodeFrom 0 0 0 b').isSome = validFrom 0 0 0 b') :
    (decodeFrom (k + 1) acc lo b).isSome = validFrom (k + 1) 0x80 0xBF b := by
  induction k generalizing acc b with
  | zero =>
      cases b with
      | nil => rfl
      | cons x b =>
          simp only [decodeFrom, validFrom]
          by_cases hx : 0x80 ≤ x.toNat ∧ x.toNat < 0xC0
          · rw [if_pos ⟨hx, h _ (by omega)⟩, if_pos (by omega), Option.isSome_map, validFrom_zero]
            exact ih b (by simp)
          · rw [if_neg (fun hc => hx hc.1), if_neg (by omega)]
            rfl
  | succ k ihk =>
      cases b with
      | nil => rfl
      | cons x b =>
          simp only [decodeFrom]
          rw [validFrom]
          by_cases hx : 0x80 ≤ x.toNat ∧ x.toNat < 0xC0
          · rw [if_pos hx, if_pos (by omega)]
            exact ihk (h.step (by omega)) b fun b' hb' => ih b' (by simp; omega)
          · rw [if_neg hx, if_neg (by omega)]
            rfl

/-- The second octet of a three- or four-octet form decides it: its range leaves exactly the
prefixes all of whose values are in order. -/
theorem isSome_decodeFrom_second {k acc lo low high : ℕ} (b : Octets)
    (hlive : ∀ x, low ≤ x → x ≤ high → 0x80 ≤ x ∧ x < 0xC0 ∧ Live (k + 1) (acc * 64 + (x - 0x80)) lo)
    (hdead : ∀ x, 0x80 ≤ x → x < 0xC0 → ¬ (low ≤ x ∧ x ≤ high) →
      Dead (k + 1) (acc * 64 + (x - 0x80)) lo)
    (ih : ∀ b' : Octets, b'.length < b.length →
      (decodeFrom 0 0 0 b').isSome = validFrom 0 0 0 b') :
    (decodeFrom (k + 2) acc lo b).isSome = validFrom (k + 2) low high b := by
  cases b with
  | nil => rfl
  | cons x b =>
      simp only [decodeFrom]
      rw [validFrom]
      by_cases hr : low ≤ x.toNat ∧ x.toNat ≤ high
      · obtain ⟨h1, h2, hl⟩ := hlive _ hr.1 hr.2
        rw [if_pos ⟨h1, h2⟩, if_pos hr]
        exact isSome_decodeFrom_of_live hl b fun b' hb' => ih b' (by simp; omega)
      · rw [if_neg hr]
        by_cases hx : 0x80 ≤ x.toNat ∧ x.toNat < 0xC0
        · rw [if_pos hx, decodeFrom_of_dead (hdead _ hx.1 hx.2 hr)]
          rfl
        · rw [if_neg hx]
          rfl

theorem isSome_decodeFrom_zero (b : Octets) :
    (decodeFrom 0 0 0 b).isSome = validFrom 0 0 0 b := by
  induction hn : b.length using Nat.strong_induction_on generalizing b with
  | _ n ihn =>
      subst hn
      have ih : ∀ b' : Octets, b'.length < b.length →
          (decodeFrom 0 0 0 b').isSome = validFrom 0 0 0 b' := fun b' hb' => ihn _ hb' b' rfl
      cases b with
      | nil => rfl
      | cons a b =>
          have ha := a.toNat_lt
          have ihb : ∀ b' : Octets, b'.length < b.length →
              (decodeFrom 0 0 0 b').isSome = validFrom 0 0 0 b' :=
            fun b' hb' => ih b' (by simp; omega)
          simp only [decodeFrom, validFrom]
          generalize a.toNat = n at ha
          by_cases h1 : n < 0x80
          · rw [if_pos h1, if_pos (show n ≤ 0x7F by omega), Option.isSome_map]
            exact ih b (by simp)
          rw [if_neg h1, if_neg (show ¬ n ≤ 0x7F by omega)]
          by_cases h2 : n < 0xC2
          · rw [if_pos h2]
            split_ifs
            · rfl
            · rw [decodeFrom_of_dead fun v hv hs => by have := hs.1; omega]
              rfl
            all_goals omega
          rw [if_neg h2, if_neg (show ¬ n < 0xC0 by omega)]
          by_cases h3 : n < 0xE0
          · rw [if_pos h3, if_pos (show n ≤ 0xDF by omega)]
            exact isSome_decodeFrom_of_live (fun v hv => ⟨by omega, Or.inl (by omega)⟩) b ihb
          rw [if_neg h3, if_neg (show ¬ n ≤ 0xDF by omega)]
          by_cases h4 : n < 0xF0
          · rw [if_pos h4]
            split_ifs with hE0 hED hEF
            · subst hE0
              refine isSome_decodeFrom_second b
                (fun x hl hh => ⟨by omega, by omega, fun v hv => ⟨by omega, Or.inl (by omega)⟩⟩)
                (fun x hl hh hr v hv hs => ?_) ihb
              have := hs.1
              omega
            · subst hED
              refine isSome_decodeFrom_second b
                (fun x hl hh => ⟨by omega, by omega, fun v hv => ⟨by omega, Or.inl (by omega)⟩⟩)
                (fun x hl hh hr v hv hs => ?_) ihb
              rcases hs.2 with h | h <;> omega
            · refine isSome_decodeFrom_second b (fun x hl hh => ⟨by omega, by omega, fun v hv => ?_⟩)
                (fun x hl hh hr v hv hs => by omega) ihb
              refine ⟨by omega, ?_⟩
              by_cases hn : n < 0xED
              · exact Or.inl (by omega)
              · exact Or.inr ⟨by omega, by omega⟩
            all_goals omega
          rw [if_neg h4, if_neg (show ¬ n = 0xE0 by omega), if_neg (show ¬ n = 0xED by omega),
            if_neg (show ¬ n ≤ 0xEF by omega)]
          by_cases h5 : n ≤ 0xF4
          · rw [if_pos (show n < 0xF8 by omega)]
            split_ifs with hF0 hF3 hF4
            · subst hF0
              refine isSome_decodeFrom_second b (fun x hl hh => ⟨by omega, by omega, fun v hv =>
                ⟨by omega, Or.inr ⟨by omega, by omega⟩⟩⟩) (fun x hl hh hr v hv hs => ?_) ihb
              have := hs.1
              omega
            · exact isSome_decodeFrom_second b (fun x hl hh => ⟨by omega, by omega, fun v hv =>
                ⟨by omega, Or.inr ⟨by omega, by omega⟩⟩⟩) (fun x hl hh hr v hv hs => by omega) ihb
            · subst hF4
              refine isSome_decodeFrom_second b (fun x hl hh => ⟨by omega, by omega, fun v hv =>
                ⟨by omega, Or.inr ⟨by omega, by omega⟩⟩⟩) (fun x hl hh hr v hv hs => ?_) ihb
              rcases hs.2 with h | h <;> omega
            · omega
          · rw [if_neg (show ¬ n = 0xF0 by omega), if_neg (show ¬ n ≤ 0xF3 by omega),
              if_neg (show ¬ n = 0xF4 by omega)]
            split_ifs
            · rw [decodeFrom_of_dead fun v hv hs => ?_]
              · rfl
              · rcases hs.2 with h | h <;> omega
            · rfl

/-- Octet ranges accept exactly what the reader reads. -/
theorem valid_eq_isSome_decode (b : Octets) : valid b = (decode b).isSome := by
  rw [decode, Option.isSome_map, valid, decodeChars, isSome_decodeFrom_zero]

end Utf8
