import ScittCose.EncodingRule.Machine

/-!
# The receipt encoding rule: the Go walk (`scitt-cose-go-verify/encoding.go`)

Arguments are `uint64`, positions `int`. `encodingItem_simulates` says the walk does what the Python
walk does and never faults.
-/

namespace ScittCose.EncodingRule.Go

open Checked Machine

/-- `encodingHead`: the major type, additional information, argument and next position. -/
def encodingHead (octets : Octets) (pos : ℤ) : Checked (ℕ × ℕ × UInt64 × ℤ) :=
  if octets.length ≤ pos then .error (.refused "truncated CBOR")
  else do
    let initial ← intIndex octets pos
    let major := initial.toNat / 32
    let info := initial.toNat % 32
    let pos ← intAdd pos 1
    if info < 24 then .ok (major, info, UInt64.ofNat info, pos)
    else do
      let (width, smallest) ← Machine.width info
      let left ← intSub octets.length pos
      if left < width then .error (.refused "truncated CBOR")
      else do
        let stop ← intAdd pos width
        let bytes ← intSlice octets pos stop
        let argument := u64OfOctets bytes
        -- a float has no shortest-form rule of its own here: every float is refused
        if major ≠ 7 ∧ argument < smallest then
          .error (.refused "an argument longer than its shortest form")
        else do
          let stop ← intAdd pos width
          .ok (major, info, argument, stop)

/-- The branch of `encodingItem` for octet and text strings. -/
def string (octets : Octets) (major : ℕ) (argument : UInt64) (pos : ℤ) : Checked ℤ := do
  let left ← intSub octets.length pos
  let left ← u64OfInt left
  if left < argument then .error (.refused "truncated CBOR")
  else do
    let len ← intOfU64 argument
    let stop ← intAdd pos len
    if major = 3 then do
      let text ← intSlice octets pos stop
      if Utf8.valid text = false then .error (.refused "a text string that is not valid UTF-8")
      else .ok stop
    else .ok stop

/-- The loop over the pairs of a map; `keys` is the set of key strings. -/
def pairs (octets : Octets) (item : ℤ → Checked ℤ) : ℕ → List Octets → ℤ → Checked ℤ
  | 0, _, pos => .ok pos
  | n + 1, keys, pos =>
    if octets.length ≤ pos then .error (.refused "truncated CBOR")
    else do
      let initial ← intIndex octets pos
      let keyMajor := initial.toNat / 32
      if keyMajor ≠ 0 ∧ keyMajor ≠ 1 ∧ keyMajor ≠ 3 then
        .error (.refused "a map key that is not an integer or a text string")
      else do
        let keyStart := pos
        let pos ← item pos
        let key ← intSlice octets keyStart pos
        if key ∈ keys then .error (.refused "a repeated map key")
        else do
          let pos ← item pos
          pairs octets item n (key :: keys) pos

/-- `encodingItem`: check the item at `pos` with `levels` levels left; the result is the position
after it. -/
def encodingItem (octets : Octets) : ℕ → ℤ → Bool → Checked ℤ
  | 0, _, _ => .error (.refused "an item nested more than 16 levels deep")
  | levels + 1, pos, outerTag => do
    let (major, info, argument, pos) ← encodingHead octets pos
    match major with
    | 0 => .ok pos
    | 1 =>
      if (1 : UInt64) <<< 63 ≤ argument then .error (.refused "an integer below -2^63")
      else .ok pos
    | 2 | 3 => string octets major argument pos
    | 4 => items (fun pos => encodingItem octets levels pos false) argument.toNat pos
    | 5 => pairs octets (fun pos => encodingItem octets levels pos false) argument.toNat [] pos
    | 6 =>
      if ¬ (outerTag = true ∧ levels = maxDepth ∧ argument = 18) then
        .error (.refused "a CBOR tag other than the outer tag 18")
      else encodingItem octets levels pos false
    | _ =>
      if 25 ≤ info ∧ info ≤ 27 then .error (.refused "a float")
      else if 20 ≤ info ∧ info ≤ 22 then .ok pos
      else .error (.refused "a simple value other than false, true and null")

/-- `checkEncoding`: refuse `octets` unless it is one item under the receipt encoding rule. -/
def checkEncoding (octets : Slice) (what : String) (outerTag : Bool) : Checked Unit := do
  let stop ← (encodingItem octets.octets (maxDepth + 1) 0 outerTag).mapError fun
    | .refused e => .refused s!"{what}: {e}"
    | .fault => .fault
  if stop ≠ octets.octets.length then
    .error (.refused s!"{what}: trailing octets after the CBOR item")
  else .ok ()

/-! ## The walk does what the Python walk does -/

/-- A position as an `int`. -/
def ofPos (p : ℕ) : ℤ := p

variable {octets : Octets} {what : String}

theorem intAdd_natCast {a b : ℕ} (h : a + b < 2 ^ 63) :
    intAdd (a : ℤ) (b : ℤ) = .ok ((a + b : ℕ) : ℤ) := by
  rw [intAdd, if_pos (by rw [IsInt]; omega), Nat.cast_add]

theorem intSub_natCast {a b : ℕ} (hb : b ≤ a) (h : a < 2 ^ 63) :
    intSub (a : ℤ) (b : ℤ) = .ok ((a - b : ℕ) : ℤ) := by
  rw [intSub, if_pos (by rw [IsInt]; omega), Nat.cast_sub hb]

theorem intSlice_natCast {start stop : ℕ} (h : start ≤ stop) (hle : stop ≤ octets.length) :
    intSlice octets (start : ℤ) (stop : ℤ) = .ok (octets.slice start stop) := by
  rw [intSlice, if_pos (by omega), Int.toNat_natCast, Int.toNat_natCast]

theorem intIndex_natCast {pos : ℕ} {x : UInt8} (h : octets[pos]? = some x) :
    intIndex octets (pos : ℤ) = .ok x := by
  rw [intIndex, if_pos (by omega), Int.toNat_natCast, h]

theorem head_simulates (hlen : octets.length < 2 ^ 63) (pos : ℕ) :
    Simulates what (SameHead ofPos octets pos) (EncodingRule.head octets pos what)
      (encodingHead octets (ofPos pos)) := by
  rw [EncodingRule.head, encodingHead, ofPos]
  cases hx : octets[pos]? with
  | none =>
      rw [if_pos (by exact_mod_cast List.getElem?_eq_none_iff.mp hx)]
      exact .refused _
  | some x =>
      have hpos : pos < octets.length := (List.getElem?_eq_some_iff.mp hx).1
      have hx32 : x.toNat % 32 < 32 := Nat.mod_lt _ (by norm_num)
      have hmajor : x.toNat / 32 < 8 := by have := x.toNat_lt; omega
      have hadd : intAdd (pos : ℤ) 1 = .ok ((pos + 1 : ℕ) : ℤ) := by
        have := intAdd_natCast (a := pos) (b := 1) (by omega)
        rwa [Nat.cast_one] at this
      rw [if_neg (by omega), intIndex_natCast hx]
      simp only [hadd, ok_bind]
      by_cases h24 : x.toNat % 32 < 24
      · rw [if_pos h24, if_pos h24]
        refine .ok ⟨rfl, by simp [hx], ?_, .inl ⟨h24, rfl⟩, rfl, Nat.le_succ pos, hpos, hmajor⟩
        simp only [UInt64.toNat_ofNat']
        omega
      rw [if_neg h24, if_neg h24]
      obtain ⟨h31, hw⟩ | ⟨h31, hnone, hw⟩ | ⟨w, s, h31, hsome, hs, hw8, hw⟩ :=
        width_spec (not_lt.mp h24) hx32
      · rw [if_pos h31, hw]
        exact .refused _
      · rw [if_neg h31, hnone, hw]
        exact .refused _
      · have hsub := intSub_natCast (a := octets.length) hpos hlen
        simp only [if_neg h31, hsome, hw, hsub, ok_bind]
        refine Simulates.ite (by omega) (fun _ => .refused _) fun hshort => ?_
        have hadd' := intAdd_natCast (a := pos + 1) (b := w) (by omega)
        have hslice := intSlice_natCast (Nat.le_add_right (pos + 1) w)
          (show _ ≤ octets.length by omega)
        have hspan := Octets.Spans.slice (Nat.le_add_right (pos + 1) w)
          (show _ ≤ octets.length by omega)
        have harg := toNat_u64OfOctets (hspan.length_eq.le.trans hw8)
        simp only [hadd', hslice, ok_bind]
        refine Simulates.ite ?_ (fun _ => .refused _) fun _ => ?_
        · rw [UInt64.lt_iff_toNat_lt, harg, UInt64.toNat_ofNat', Nat.mod_eq_of_lt hs]
        · exact .ok ⟨rfl, by simp [hx], harg, .inr (mem_of_width hsome), rfl, by dsimp only; omega,
            by dsimp only; omega, hmajor⟩

theorem string_simulates (hlen : octets.length < 2 ^ 63) {major a pos : ℕ} {arg : UInt64}
    (harg : arg.toNat = a) (hpos : pos ≤ octets.length) :
    Simulates what (Advance ofPos octets pos) (EncodingRule.string octets what major a pos)
      (string octets major arg (ofPos pos)) := by
  have hsub := intSub_natCast hpos hlen
  have hleft : u64OfInt ((octets.length - pos : ℕ) : ℤ) =
      .ok (UInt64.ofNat (octets.length - pos)) := by
    rw [u64OfInt, if_pos (by omega), Int.toNat_natCast]
  rw [EncodingRule.string, string]
  simp only [ofPos, hsub, hleft, ok_bind]
  refine Simulates.ite ?_ (fun _ => .refused _) fun hlong => ?_
  · rw [UInt64.lt_iff_toNat_lt, UInt64.toNat_ofNat', Nat.mod_eq_of_lt (by omega), harg]
  have hconv : intOfU64 arg = .ok (a : ℤ) := by
    rw [intOfU64, harg, if_pos (by omega)]
  have hadd := intAdd_natCast (a := pos) (b := a) (by omega)
  have hslice := intSlice_natCast (Nat.le_add_right pos a) (show _ ≤ octets.length by omega)
  rw [hconv, ok_bind, hadd, ok_bind, hslice, ok_bind, Utf8.valid_eq_isSome_decode]
  refine Simulates.ite Iff.rfl (fun _ => ?_) fun _ => .ok ⟨rfl, by omega, by omega⟩
  cases Utf8.decode (octets.slice pos (pos + a)) with
  | none => exact .refused _
  | some t => exact .ok ⟨rfl, by omega, by omega⟩

theorem pairs_simulates {f : ℕ → Except String ℕ} {g : ℤ → Checked ℤ}
    (hfg : Follows ofPos octets what f g) (n : ℕ) (keys : List Octets) :
    Follows ofPos octets what (EncodingRule.pairs octets what f n keys)
      (pairs octets g n keys) := by
  induction n generalizing keys with
  | zero => exact fun p hp => .ok ⟨rfl, le_rfl, hp⟩
  | succ n ih =>
      intro p hp
      rw [EncodingRule.pairs, pairs]
      cases hx : octets[p]? with
      | none =>
          rw [ofPos, if_pos (by exact_mod_cast List.getElem?_eq_none_iff.mp hx)]
          exact .refused _
      | some x =>
          have hpos : p < octets.length := (List.getElem?_eq_some_iff.mp hx).1
          rw [if_neg (by rw [ofPos]; omega), ofPos, intIndex_natCast hx]
          refine Simulates.ite (by simp) (fun _ => .refused _) fun _ => ?_
          refine (hfg p hp).bind ?_
          rintro k _ ⟨rfl, hpk, hk⟩
          rw [ofPos, intSlice_natCast hpk hk]
          refine Simulates.ite Iff.rfl (fun _ => .refused _) fun _ => ?_
          refine (hfg k hk).bind ?_
          rintro v _ ⟨rfl, hkv, hv⟩
          exact (ih _ v hv).mono fun _ _ h => h.from_le (hpk.trans hkv)

/-- From every position the Go walk does what the Python walk does. -/
theorem encodingItem_simulates (hlen : octets.length < 2 ^ 63) (levels : ℕ) (outerTag : Bool) :
    Follows ofPos octets what (fun p => EncodingRule.item octets what levels p outerTag)
      (fun p => encodingItem octets levels p outerTag) := by
  induction levels generalizing outerTag with
  | zero => exact fun _ _ => .refused _
  | succ levels ih =>
      intro p hp
      simp only [EncodingRule.item, encodingItem]
      refine (head_simulates hlen p).bind ?_
      rintro ⟨major, a, pos⟩ ⟨_, info, arg, _⟩ ⟨rfl, hinfo, harg, hdirect, rfl, hle, hpos, hmajor⟩
      dsimp only at hinfo harg hdirect hle hpos hmajor ⊢
      interval_cases major
      · -- unsigned integer
        exact .ok ⟨rfl, hle, hpos⟩
      · -- negative integer
        refine Simulates.ite ?_ (fun _ => .refused _) fun _ => .ok ⟨rfl, hle, hpos⟩
        rw [UInt64.le_iff_toNat_le, harg]
        rfl
      · -- octet string
        exact (string_simulates hlen harg hpos).mono fun _ _ h => h.from_le hle
      · -- text string
        exact (string_simulates hlen harg hpos).mono fun _ _ h => h.from_le hle
      · -- array
        rw [← harg]
        exact (items_simulates (ih false) _ pos hpos).mono fun _ _ h => h.from_le hle
      · -- map
        rw [← harg]
        exact (pairs_simulates (ih false) _ [] pos hpos).mono fun _ _ h => h.from_le hle
      · -- tag
        refine Simulates.ite ?_ (fun _ => .refused _) fun _ =>
          (ih false pos hpos).mono fun _ _ h => h.from_le hle
        rw [← harg, EncodingRule.coseSign1Tag, ← UInt64.toNat_inj]
        rfl
      · -- simple value or float
        change Simulates what _ (ite _ _ (ite _ _ _)) (ite _ _ (ite _ _ _))
        rw [← hinfo]
        refine Simulates.ite (by simp; omega) (fun _ => .refused _) fun hfloat => ?_
        have hsimple : ¬ (a ∉ [20, 21, 22] ∨ info = 24) ↔ 20 ≤ info ∧ info ≤ 22 := by
          simp only [List.mem_cons, List.not_mem_nil, or_false] at hdirect hfloat ⊢
          omega
        by_cases hin : 20 ≤ info ∧ info ≤ 22
        · rw [if_pos hin, if_neg (hsimple.mpr hin)]
          exact .ok ⟨rfl, hle, hpos⟩
        · rw [if_neg hin, if_pos (not_not.mp (mt hsimple.mp hin))]
          exact .refused _

/-- The Go walk is the Python walk, messages included, and it never faults. -/
theorem checkEncoding_eq (octets : Slice) (what : String) (outerTag : Bool) :
    checkEncoding octets what outerTag =
      (EncodingRule.check octets.octets what outerTag).mapError Stop.refused := by
  have h := @encodingItem_simulates octets.octets what octets.length_lt (maxDepth + 1) outerTag 0
    (Nat.zero_le _)
  dsimp only [ofPos, Nat.cast_zero] at h
  rw [checkEncoding, EncodingRule.check]
  generalize EncodingRule.item octets.octets what (maxDepth + 1) 0 outerTag = x at h
  generalize encodingItem octets.octets (maxDepth + 1) 0 outerTag = y at h
  cases h with
  | refused message => rfl
  | @ok p q h =>
      obtain ⟨rfl, -, -⟩ := h
      change ite _ _ _ = Except.mapError _ (ite _ _ _)
      by_cases hp : p = octets.octets.length
      · rw [if_neg (by simpa [ofPos] using hp), if_neg (by simpa using hp)]
        rfl
      · rw [if_pos (by simpa [ofPos] using hp), if_pos hp]
        simp only [Except.mapError, String.append_assoc]
        rfl

end ScittCose.EncodingRule.Go
