import Mathlib

/-!
# Octet strings, big-endian numbers and hexadecimal text

An octet string is a list of octets. Numbers are written big-endian in a fixed width
(`Octets.ofNat`) and read back by `Octets.toNat`. Hexadecimal text is written in lower case
(`Octets.toHex`) and read by `Octets.fromHex`, which skips ASCII white space between digit pairs,
or by `Octets.fromHexStrict`, which does not.
-/

/-- A string of octets. -/
abbrev Octets := List UInt8

namespace Octets

instance decidableMem (b : Octets) (bs : List Octets) : Decidable (b ∈ bs) :=
  List.instDecidableMemOfLawfulBEq b bs

/-! ## Slices -/

/-- The octets from position `start` up to position `stop` (Python's `b[start:stop]`). -/
def slice (b : Octets) (start stop : ℕ) : Octets := (b.drop start).take (stop - start)

/-- What stands between two positions of an octet string. -/
theorem drop_eq_slice_append {b : Octets} {start stop : ℕ} (h : start ≤ stop) :
    b.drop start = slice b start stop ++ b.drop stop := by
  have := (List.take_append_drop (stop - start) (b.drop start)).symm
  rwa [List.drop_drop, Nat.add_sub_cancel' h] at this

theorem slice_eq_of_drop_eq_append {b w rest : Octets} {start : ℕ} (h : b.drop start = w ++ rest) :
    slice b start (start + w.length) = w := by
  simp [slice, h]

theorem drop_add_of_drop_eq_append {b w rest : Octets} {start : ℕ} (h : b.drop start = w ++ rest) :
    b.drop (start + w.length) = rest := by
  rw [← List.drop_drop, h, List.drop_left]

theorem add_le_length_of_drop_eq_append {b w rest : Octets} {start : ℕ}
    (h : b.drop start = w ++ rest) (hw : w ≠ []) : start + w.length ≤ b.length := by
  have hl := congrArg List.length h
  have := List.length_pos_of_ne_nil hw
  simp only [List.length_drop, List.length_append] at hl
  omega

/-! ## Spans -/

/-- From `start` up to `stop`, the octets are `w`. -/
structure Spans (octets : Octets) (start : ℕ) (w : Octets) (stop : ℕ) : Prop where
  drop_eq : octets.drop start = w ++ octets.drop stop
  stop_eq : stop = start + w.length
  stop_le : stop ≤ octets.length

theorem Spans.of_drop_eq {octets w rest : Octets} {start : ℕ} (hs : start ≤ octets.length)
    (h : octets.drop start = w ++ rest) : Spans octets start w (start + w.length) := by
  refine ⟨by rw [drop_add_of_drop_eq_append h, h], rfl, ?_⟩
  have := congrArg List.length h
  simp only [List.length_drop, List.length_append] at this
  omega

theorem Spans.nil {octets : Octets} {start : ℕ} (hs : start ≤ octets.length) :
    Spans octets start [] start := ⟨rfl, rfl, hs⟩

theorem Spans.append {octets v w : Octets} {start mid stop : ℕ} (hv : Spans octets start v mid)
    (hw : Spans octets mid w stop) : Spans octets start (v ++ w) stop := by
  refine ⟨by rw [hv.drop_eq, hw.drop_eq, List.append_assoc], ?_, hw.stop_le⟩
  rw [hw.stop_eq, hv.stop_eq, List.length_append, Nat.add_assoc]

theorem Spans.split {octets v w : Octets} {start stop : ℕ}
    (h : Spans octets start (v ++ w) stop) :
    Spans octets start v (start + v.length) ∧ Spans octets (start + v.length) w stop := by
  have hle := h.stop_le
  have heq := h.stop_eq
  rw [List.length_append] at heq
  have hd : octets.drop start = v ++ (w ++ octets.drop stop) := by
    rw [h.drop_eq, List.append_assoc]
  have hv := Spans.of_drop_eq (by omega) hd
  refine ⟨hv, ⟨?_, by omega, hle⟩⟩
  exact drop_add_of_drop_eq_append hd

theorem Spans.slice_eq {octets w : Octets} {start stop : ℕ} (h : Spans octets start w stop) :
    octets.slice start stop = w := by
  rw [h.stop_eq]
  exact slice_eq_of_drop_eq_append h.drop_eq

theorem Spans.length_eq {octets w : Octets} {start n : ℕ} (h : Spans octets start w (start + n)) :
    w.length = n := by
  have := h.stop_eq
  omega

/-- The octets between two positions span from the one to the other. -/
theorem Spans.slice {octets : Octets} {start stop : ℕ} (h : start ≤ stop)
    (hle : stop ≤ octets.length) : Spans octets start (slice octets start stop) stop := by
  refine ⟨drop_eq_slice_append h, ?_, hle⟩
  simp only [Octets.slice, List.length_take, List.length_drop]
  omega

/-- The span of a whole octet string. -/
theorem spans_iff_eq {octets w : Octets} : Spans octets 0 w octets.length ↔ w = octets := by
  constructor
  · intro h
    simpa using h.drop_eq.symm
  · rintro rfl
    exact ⟨by simp, by simp, le_rfl⟩

/-! ## Big-endian numbers -/

/-- The big-endian value of an octet string. -/
def toNat (b : Octets) : ℕ := b.foldl (fun acc x => acc * 256 + x.toNat) 0

/-- The low `w` octets of `n`, big-endian. -/
def ofNat : ℕ → ℕ → Octets
  | 0, _ => []
  | w + 1, n => ofNat w (n / 256) ++ [UInt8.ofNat n]

@[simp] theorem toNat_nil : toNat [] = 0 := rfl

theorem toNat_concat (b : Octets) (x : UInt8) : toNat (b ++ [x]) = toNat b * 256 + x.toNat := by
  simp [toNat]

@[simp] theorem length_ofNat (w n : ℕ) : (ofNat w n).length = w := by
  induction w generalizing n with
  | zero => rfl
  | succ w ih => simp [ofNat, ih]

theorem toNat_ofNat {w n : ℕ} (h : n < 256 ^ w) : toNat (ofNat w n) = n := by
  induction w generalizing n with
  | zero => simp_all [ofNat]
  | succ w ih =>
      have hq : n / 256 < 256 ^ w := by
        rw [Nat.div_lt_iff_lt_mul (by norm_num)]
        simpa [pow_succ] using h
      rw [ofNat, toNat_concat, ih hq, UInt8.toNat_ofNat']
      omega

theorem toNat_lt (b : Octets) : toNat b < 256 ^ b.length := by
  induction b using List.reverseRecOn with
  | nil => simp
  | append_singleton b x ih =>
      have hx := x.toNat_lt
      rw [toNat_concat, List.length_append, List.length_singleton, pow_succ]
      nlinarith

theorem ofNat_toNat (b : Octets) : ofNat b.length (toNat b) = b := by
  induction b using List.reverseRecOn with
  | nil => rfl
  | append_singleton b x ih =>
      have hx := x.toNat_lt
      have hdiv : (toNat b * 256 + x.toNat) / 256 = toNat b := by omega
      have hoct : UInt8.ofNat (toNat b * 256 + x.toNat) = x := by
        apply UInt8.toNat_inj.mp
        rw [UInt8.toNat_ofNat']
        omega
      rw [toNat_concat, List.length_append, List.length_singleton, ofNat, hdiv, ih, hoct]

/-- Two octet strings of one length with the same value are equal. -/
theorem toNat_inj {a b : Octets} (hl : a.length = b.length) (h : toNat a = toNat b) : a = b := by
  rw [← ofNat_toNat a, ← ofNat_toNat b, hl, h]

theorem ofNat_inj {w n m : ℕ} (hn : n < 256 ^ w) (hm : m < 256 ^ w) (h : ofNat w n = ofNat w m) :
    n = m := by
  rw [← toNat_ofNat hn, ← toNat_ofNat hm, h]

/-! ## Lists of partial values -/

/-- A partial function maps a whole list when it maps every member. -/
theorem mapM_eq_some_iff {α β : Type} {f : α → Option β} {l : List α} {r : List β} :
    l.mapM f = some r ↔ l.map f = r.map some := by
  induction l generalizing r with
  | nil => cases r <;> simp
  | cons x l ih =>
      rw [List.mapM_cons]
      cases hx : f x with
      | none => cases r <;> simp [hx]
      | some y =>
          cases hl : l.mapM f with
          | none =>
              have hne : ∀ r', l.map f ≠ List.map some r' := fun r' h => by
                rw [ih.mpr h] at hl
                cases hl
              cases r with
              | nil => simp
              | cons z r => simp [hx, hne r]
          | some r' =>
              have hr' := ih.mp hl
              cases r with
              | nil => simp
              | cons z r =>
                  have hinj : List.map some r' = List.map some r ↔ r' = r :=
                    (List.map_injective_iff.mpr (Option.some_injective β)).eq_iff
                  simp [hx, hr', hinj]

theorem length_of_mapM {α β : Type} {f : α → Option β} {l : List α} {r : List β}
    (h : l.mapM f = some r) : r.length = l.length := by
  simpa using (congrArg List.length (mapM_eq_some_iff.mp h)).symm

/-- The value at a place comes from what is at that place. -/
theorem getElem_of_mapM {α β : Type} {f : α → Option β} {l : List α} {r : List β} (h : l.mapM f = some r)
    {i : ℕ} (hl : i < l.length) (hr : i < r.length) : f l[i] = some r[i] := by
  have hi := congrArg (fun xs => xs[i]?) (mapM_eq_some_iff.mp h)
  simpa [List.getElem?_map, List.getElem?_eq_getElem hl, List.getElem?_eq_getElem hr] using hi

/-- What is read off the values can be read off what they come from. -/
theorem map_eq_of_mapM {α β γ : Type} {f : α → Option β} {g : β → γ} {k : α → γ} {l : List α} {r : List β}
    (h : l.mapM f = some r) (hg : ∀ a b, f a = some b → g b = k a) : r.map g = l.map k := by
  apply List.ext_getElem
  · rw [List.length_map, List.length_map, length_of_mapM h]
  · intro i hr hl
    rw [List.getElem_map, List.getElem_map]
    rw [List.length_map] at hr hl
    exact hg _ _ (getElem_of_mapM h hl hr)

/-- A function that is defined where another is maps every list the other maps. -/
theorem mapM_mono {α β : Type} {f g : α → Option β} (h : ∀ a b, f a = some b → g a = some b)
    {l : List α} {r : List β} (hl : l.mapM f = some r) : l.mapM g = some r := by
  induction l generalizing r with
  | nil => exact hl
  | cons a l ih =>
      rw [List.mapM_cons] at hl ⊢
      obtain ⟨b, hb, hl⟩ := Option.bind_eq_some_iff.mp hl
      obtain ⟨bs, hbs, hr⟩ := Option.bind_eq_some_iff.mp hl
      rw [h a b hb, ih hbs]
      exact hr

/-- Two walks over a list, one after the other, are one walk. -/
theorem mapM_bind_mapM {α β γ : Type} (f : α → Option β) (g : β → Option γ) (l : List α) :
    (l.mapM f).bind (fun bs => bs.mapM g) = l.mapM fun a => (f a).bind g := by
  induction l with
  | nil => rfl
  | cons a l ih =>
      rw [List.mapM_cons, List.mapM_cons, ← ih]
      cases f a with
      | none => rfl
      | some b =>
          cases l.mapM f with
          | none => cases hg : g b <;> simp [hg]
          | some bs => simp

theorem mapM_map {α β γ : Type} (f : α → Option β) (g : β → γ) (l : List α) :
    (l.mapM fun a => (f a).map g) = (l.mapM f).map (List.map g) := by
  induction l with
  | nil => rfl
  | cons a l ih =>
      rw [List.mapM_cons, List.mapM_cons, ih]
      cases f a with
      | none => rfl
      | some b => cases l.mapM f <;> rfl

/-- A walk that also checks each member. -/
theorem mapM_filter {α β : Type} (f : α → Option β) (p : β → Bool) (l : List α) :
    (l.mapM fun a => (f a).filter p) = (l.mapM f).filter fun bs => bs.all p := by
  induction l with
  | nil => rfl
  | cons a l ih =>
      rw [List.mapM_cons, List.mapM_cons, ih]
      cases f a with
      | none => rfl
      | some b =>
          cases l.mapM f with
          | none => cases hp : p b <;> simp [Option.filter, hp]
          | some bs => cases hp : p b <;> cases hall : bs.all p <;> simp [Option.filter, hp, hall]

/-- A walk over a list that fails nowhere keeps every result. -/
theorem mapM_eq_ite {α β : Type} (f : α → Option β) (l : List α) :
    l.mapM f = if ∀ a ∈ l, (f a).isSome then some (l.filterMap f) else none := by
  induction l with
  | nil => rfl
  | cons a l ih =>
      rw [List.mapM_cons, ih]
      cases h : f a with
      | none =>
          have hno : ¬ ∀ a' ∈ a :: l, (f a').isSome := by
            intro hall
            have ha := hall a (by simp)
            rw [h] at ha
            cases ha
          rw [if_neg hno]
          rfl
      | some b =>
          have hall : (∀ a' ∈ a :: l, (f a').isSome) ↔ ∀ a' ∈ l, (f a').isSome := by simp [h]
          rw [List.filterMap_cons_some h]
          simp only [hall]
          split_ifs <;> rfl

/-- A list is mapped when each member is. -/
theorem exists_mapM {α β : Type} {f : α → Option β} {l : List α} (h : ∀ a ∈ l, (f a).isSome) :
    ∃ r, l.mapM f = some r := ⟨l.filterMap f, by rw [mapM_eq_ite, if_pos h]⟩

/-- What a partial function gives member by member, when it maps the whole list. -/
theorem getElem?_bind_of_mapM {α β : Type} {f : α → Option β} {l : List α} {r : List β}
    (h : l.mapM f = some r) (i : ℕ) : l[i]?.bind f = r[i]? := by
  have hmap := congrArg (·[i]?) (mapM_eq_some_iff.mp h)
  simp only [List.getElem?_map] at hmap
  cases hl : l[i]? with
  | none => simpa [hl] using hmap
  | some x =>
      rw [hl] at hmap
      cases hr : r[i]? with
      | none => simp [hr] at hmap
      | some y => simpa [hr] using hmap

theorem mapM_take {α β : Type} {f : α → Option β} {l : List α} {r : List β} (n : ℕ)
    (h : l.mapM f = some r) : (l.take n).mapM f = some (r.take n) := by
  rw [mapM_eq_some_iff, List.map_take, mapM_eq_some_iff.mp h, List.map_take]

/-- The results are those of a total function that the partial one agrees with. -/
theorem eq_map_of_mapM {α β : Type} {f : α → Option β} {g : α → β} {l : List α} {r : List β}
    (hfg : ∀ x ∈ l, ∀ y, f x = some y → y = g x) (h : l.mapM f = some r) : r = l.map g := by
  rw [mapM_eq_some_iff] at h
  induction l generalizing r with
  | nil =>
      rw [List.map_nil, eq_comm, List.map_eq_nil_iff] at h
      exact h
  | cons x l ih =>
      obtain ⟨y, r, rfl⟩ := List.exists_cons_of_length_eq_add_one
        (show r.length = l.length + 1 by simpa using (congrArg List.length h).symm)
      rw [List.map_cons, List.map_cons, List.cons.injEq] at h
      rw [List.map_cons, ← hfg x List.mem_cons_self y h.1,
        ← ih (fun x hx => hfg x (List.mem_cons_of_mem _ hx)) h.2]

/-- Forgetting the errors of a list of computations. -/
theorem eq_ok_of_toOption {ε α : Type} {x : Except ε α} {a : α} (h : x.toOption = some a) :
    x = .ok a := by
  cases x with
  | error e => cases h
  | ok b => exact congrArg Except.ok (Option.some.inj h)

theorem toOption_mapM {ε α β : Type} (f : α → Except ε β) (l : List α) :
    (l.mapM f).toOption = l.mapM fun x => (f x).toOption := by
  induction l with
  | nil => rfl
  | cons x l ih =>
      rw [List.mapM_cons, List.mapM_cons, ← ih]
      cases f x with
      | error e => rfl
      | ok y => cases l.mapM f <;> rfl

/-- Forgetting the errors of a fold. -/
theorem toOption_foldlM {ε α β : Type} {f : α → β → Except ε α} {g : α → β → Option α}
    (hfg : ∀ a b, (f a b).toOption = g a b) (l : List β) (a : α) :
    (l.foldlM f a).toOption = l.foldlM g a := by
  induction l generalizing a with
  | nil => rfl
  | cons b l ih =>
      rw [List.foldlM_cons, List.foldlM_cons, ← hfg]
      cases f a b with
      | error e => rfl
      | ok a' => exact ih a'

/-! ## Hexadecimal text -/

/-- The lower-case hexadecimal digit of a value below 16. -/
def hexDigit (n : ℕ) : Char := if n < 10 then Char.ofNat (48 + n) else Char.ofNat (87 + n)

/-- The value of a hexadecimal digit of either case. -/
def hexValue (c : Char) : Option ℕ :=
  let n := c.toNat
  if 48 ≤ n ∧ n ≤ 57 then some (n - 48)
  else if 97 ≤ n ∧ n ≤ 102 then some (n - 87)
  else if 65 ≤ n ∧ n ≤ 70 then some (n - 55)
  else none

/-- Space, tab, line feed, vertical tab, form feed or carriage return. -/
def isAsciiSpace (c : Char) : Bool := c.toNat == 32 || (9 ≤ c.toNat && c.toNat ≤ 13)

/-- The digits of an octet string, two lower-case digits an octet. -/
def hexChars (b : Octets) : List Char :=
  b.flatMap fun x => [hexDigit (x.toNat / 16), hexDigit (x.toNat % 16)]

/-- Lower-case hexadecimal text (Python's `bytes.hex`). -/
def toHex (b : Octets) : String := String.ofList (hexChars b)

/-- Read digit pairs, skipping ASCII white space before each pair. -/
def fromHexChars : List Char → Option Octets
  | [] => some []
  | c :: cs =>
    if isAsciiSpace c then fromHexChars cs
    else match cs with
      | [] => none
      | d :: ds => do
        let hi ← hexValue c
        let lo ← hexValue d
        let rest ← fromHexChars ds
        return UInt8.ofNat (16 * hi + lo) :: rest

/-- Python's `bytes.fromhex`; `none` is its `ValueError`. -/
def fromHex (s : String) : Option Octets := fromHexChars s.toList

/-- Read digit pairs with nothing between them. -/
def fromHexPairs : List Char → Option Octets
  | [] => some []
  | [_] => none
  | c :: d :: ds => do
    let hi ← hexValue c
    let lo ← hexValue d
    let rest ← fromHexPairs ds
    return UInt8.ofNat (16 * hi + lo) :: rest

/-- Go's `hex.DecodeString`; `none` is its error. -/
def fromHexStrict (s : String) : Option Octets := fromHexPairs s.toList

theorem hexValue_hexDigit {n : ℕ} (h : n < 16) : hexValue (hexDigit n) = some n := by
  interval_cases n <;> rfl

theorem not_isAsciiSpace_hexDigit {n : ℕ} (h : n < 16) : isAsciiSpace (hexDigit n) = false := by
  interval_cases n <;> rfl

/-- A hexadecimal digit is not white space. -/
theorem not_isAsciiSpace_of_hexValue {c : Char} {n : ℕ} (h : hexValue c = some n) :
    isAsciiSpace c = false := by
  simp only [hexValue] at h
  simp only [isAsciiSpace, Bool.or_eq_false_iff, beq_eq_false_iff_ne, Bool.and_eq_false_iff,
    decide_eq_false_iff_not]
  split at h
  · omega
  · split at h
    · omega
    · split at h
      · omega
      · cases h

theorem fromHexPairs_hexChars (b : Octets) : fromHexPairs (hexChars b) = some b := by
  induction b with
  | nil => rfl
  | cons x b ih =>
      have hx := x.toNat_lt
      have hoct : UInt8.ofNat (16 * (x.toNat / 16) + x.toNat % 16) = x := by
        rw [Nat.div_add_mod]
        exact UInt8.ofNat_toNat
      rw [hexChars, List.flatMap_cons]
      change fromHexPairs (hexDigit _ :: hexDigit _ :: hexChars b) = _
      rw [fromHexPairs, hexValue_hexDigit (by omega), hexValue_hexDigit (by omega), ih]
      change some (UInt8.ofNat _ :: b) = _
      rw [hoct]

/-- Text without white space between its digits is read alike by both readers. -/
theorem fromHexChars_of_fromHexPairs {cs : List Char} {b : Octets} (h : fromHexPairs cs = some b) :
    fromHexChars cs = some b := by
  induction cs using fromHexPairs.induct generalizing b with
  | case1 => exact h
  | case2 c => cases h
  | case3 c d ds ih =>
      simp only [fromHexPairs, Option.bind_eq_bind, Option.bind_eq_some_iff] at h
      obtain ⟨hi, hhi, lo, hlo, rest, hrest, hb⟩ := h
      rw [fromHexChars, not_isAsciiSpace_of_hexValue hhi, hhi, hlo, ih hrest]
      exact hb

theorem fromHex_of_fromHexStrict {s : String} {b : Octets} (h : fromHexStrict s = some b) :
    fromHex s = some b :=
  fromHexChars_of_fromHexPairs h

@[simp] theorem fromHexStrict_toHex (b : Octets) : fromHexStrict (toHex b) = some b := by
  simp [fromHexStrict, toHex, fromHexPairs_hexChars]

@[simp] theorem fromHex_toHex (b : Octets) : fromHex (toHex b) = some b :=
  fromHex_of_fromHexStrict (fromHexStrict_toHex b)

theorem mapM_fromHex_toHex (bs : List Octets) : (bs.map toHex).mapM fromHex = some bs := by
  rw [mapM_eq_some_iff, List.map_map]
  exact List.map_congr_left fun b _ => fromHex_toHex b

theorem toHex_injective : Function.Injective toHex := by
  intro a b h
  have := congrArg fromHex h
  simpa using this

@[simp] theorem toHex_inj {a b : Octets} : toHex a = toHex b ↔ a = b := toHex_injective.eq_iff

theorem toHex_ne_empty {b : Octets} (h : 0 < b.length) : toHex b ≠ "" := by
  intro hb
  have hnil : toHex [] = "" := rfl
  obtain rfl := toHex_injective (hb.trans hnil.symm)
  cases h

end Octets
