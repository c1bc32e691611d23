import ScittCose.Lib.Cbor

/-!
# The floats of CBOR

A float of CBOR is an IEEE 754 number of 2, 4 or 8 octets. `widen` is the double that a float of any
width stands for, and `shortFloat` the shortest float that stands for a double (RFC 8949 §4.1). A
NaN is one number, whatever its payload.
-/

namespace Cbor

/-- The bits of the exponent of a float of `w` octets. -/
def exponentBits (w : ℕ) : ℕ := if w = 2 then 5 else if w = 4 then 8 else 11

/-- The bits of the fraction of a float of `w` octets. -/
def fractionBits (w : ℕ) : ℕ := if w = 2 then 10 else if w = 4 then 23 else 52

/-- The bias of the exponent of a float of `w` octets. -/
def bias (w : ℕ) : ℕ := 2 ^ (exponentBits w - 1) - 1

/-- The sign of a float. -/
def signOf (w bits : ℕ) : ℕ := bits / 2 ^ (exponentBits w + fractionBits w)

/-- The exponent field of a float. -/
def exponentOf (w bits : ℕ) : ℕ := bits / 2 ^ fractionBits w % 2 ^ exponentBits w

/-- The fraction field of a float. -/
def fractionOf (w bits : ℕ) : ℕ := bits % 2 ^ fractionBits w

/-- The float of a sign, an exponent field and a fraction field. -/
def pack (w sign exponent fraction : ℕ) : ℕ :=
  sign * 2 ^ (exponentBits w + fractionBits w) + exponent * 2 ^ fractionBits w + fraction

/-- The double a NaN is read as. -/
def nan : ℕ := 0x7ff8000000000000

/-- Neither infinite nor a NaN. -/
def IsFinite (bits : ℕ) : Prop := exponentOf 8 bits ≠ 2047

instance : DecidablePred IsFinite := fun bits => inferInstanceAs (Decidable (exponentOf 8 bits ≠ 2047))

/-- The double that a float of `w` octets stands for. -/
def widen (w bits : ℕ) : ℕ :=
  let sign := signOf w bits
  let exponent := exponentOf w bits
  let fraction := fractionOf w bits
  if exponent = 2 ^ exponentBits w - 1 then
    if fraction = 0 then pack 8 sign 2047 0 else nan
  else if w = 8 then bits
  else if exponent = 0 then
    if fraction = 0 then pack 8 sign 0 0
    else
      -- subnormal: the leading one of the fraction becomes the hidden bit of the double
      let k := Nat.log2 fraction
      pack 8 sign (k + 1 + 1023 - bias w - fractionBits w) ((fraction - 2 ^ k) * 2 ^ (52 - k))
  else pack 8 sign (exponent + 1023 - bias w) (fraction * 2 ^ (52 - fractionBits w))

/-- The float of `w` octets that stands for a finite double, when there is one. -/
def narrow (w bits : ℕ) : Option ℕ :=
  let sign := signOf 8 bits
  let exponent := exponentOf 8 bits
  let fraction := fractionOf 8 bits
  if exponent = 0 then if fraction = 0 then some (pack w sign 0 0) else none
  else if 1023 < exponent + bias w then
    if exponent + bias w < 1023 + 2 ^ exponentBits w - 1 ∧ 2 ^ (52 - fractionBits w) ∣ fraction then
      some (pack w sign (exponent + bias w - 1023) (fraction / 2 ^ (52 - fractionBits w)))
    else none
  else
    -- subnormal in the narrow format: the hidden bit of the double is bit `k` of the fraction
    let k := exponent + bias w + fractionBits w - 1024
    if 1024 ≤ exponent + bias w + fractionBits w ∧ 2 ^ (52 - k) ∣ fraction then
      some (pack w sign 0 (2 ^ k + fraction / 2 ^ (52 - k)))
    else none

/-- The shortest float that stands for a double. -/
def shortFloat (bits : ℕ) : Item :=
  if ¬ IsFinite bits then
    if fractionOf 8 bits = 0 then .float 2 (pack 2 (signOf 8 bits) 31 0) else .float 2 0x7e00
  else
    match narrow 2 bits, narrow 4 bits with
    | some half, _ => .float 2 half
    | none, some single => .float 4 single
    | none, none => .float 8 bits

/-- A double in eight octets; the infinities and NaN, which have no digits to keep, in three. -/
def doubleFloat (bits : ℕ) : Item :=
  if IsFinite bits then .float 8 bits else shortFloat bits

/-- A double, of which a NaN has one form. -/
def IsDouble (bits : ℕ) : Prop :=
  bits < 2 ^ 64 ∧ (IsFinite bits ∨ fractionOf 8 bits = 0 ∨ bits = nan)

instance : DecidablePred IsDouble := fun _ => inferInstanceAs (Decidable (_ ∧ _))

/-! ## Width -/

theorem length_encode_float {w bits : ℕ} : (encode (.float w bits)).length = 1 + w := by
  rw [encode, List.length_cons, Octets.length_ofNat, add_comm]

/-- The widths a double can be written in. -/
theorem exists_shortFloat (bits : ℕ) :
    ∃ w b, shortFloat bits = .float w b ∧ (w = 2 ∨ w = 4 ∨ w = 8 ∧ b = bits) := by
  by_cases hfin : IsFinite bits
  · rw [shortFloat, if_neg (not_not.mpr hfin)]
    split
    · exact ⟨2, _, rfl, .inl rfl⟩
    · exact ⟨4, _, rfl, .inr (.inl rfl)⟩
    · exact ⟨8, _, rfl, .inr (.inr ⟨rfl, rfl⟩)⟩
  · rw [shortFloat, if_pos hfin]
    split_ifs
    · exact ⟨2, _, rfl, .inl rfl⟩
    · exact ⟨2, _, rfl, .inl rfl⟩

/-- A double of eight octets is never shorter than the shortest float, and as short only when it is
that float. -/
theorem length_shortFloat_le (bits : ℕ) :
    (encode (shortFloat bits)).length ≤ (encode (doubleFloat bits)).length ∧
      ((encode (shortFloat bits)).length = (encode (doubleFloat bits)).length ↔
        doubleFloat bits = shortFloat bits) := by
  unfold doubleFloat
  split_ifs
  · obtain ⟨w, b, hshort, hw⟩ := exists_shortFloat bits
    rw [hshort, length_encode_float, length_encode_float]
    constructor
    · omega
    · constructor
      · intro h
        obtain ⟨-, rfl⟩ : w = 8 ∧ b = bits := by omega
        rw [show w = 8 by omega]
      · intro h
        rw [Item.float.injEq] at h
        omega
  · exact ⟨le_rfl, by simp⟩

/-! ## Reading a double back -/

theorem widen_of_isFinite {bits : ℕ} (h : IsFinite bits) : widen 8 bits = bits := by
  unfold widen
  dsimp only
  rw [if_neg (show exponentOf 8 bits ≠ 2 ^ exponentBits 8 - 1 from h), if_pos rfl]

theorem widen_of_isDouble {bits : ℕ} (h : IsDouble bits) : widen 8 bits = bits := by
  obtain ⟨-, hfin | hfrac | rfl⟩ := h
  · exact widen_of_isFinite hfin
  · by_cases hfin : IsFinite bits
    · exact widen_of_isFinite hfin
    · have hexp : bits / 2 ^ 52 % 2 ^ 11 = 2047 := not_not.mp hfin
      have hbits : bits % 2 ^ 52 = 0 := hfrac
      unfold widen
      dsimp only
      rw [if_pos (show exponentOf 8 bits = 2 ^ exponentBits 8 - 1 from hexp), if_pos hfrac]
      change bits / 2 ^ 63 * 2 ^ 63 + 2047 * 2 ^ 52 + 0 = bits
      omega
  · decide

/-- What is read from the octets of a double is the double. -/
theorem exists_doubleFloat {bits : ℕ} (h : IsDouble bits) :
    ∃ w b, doubleFloat bits = .float w b ∧ (Item.float w b).Encodable ∧ widen w b = bits := by
  obtain ⟨hlt, h⟩ := h
  unfold doubleFloat
  split_ifs with hfin
  · exact ⟨8, bits, rfl, ⟨.inr (.inr rfl), by norm_num at hlt ⊢; omega⟩, widen_of_isFinite hfin⟩
  · unfold shortFloat
    rw [if_pos hfin]
    have hexp : bits / 2 ^ 52 % 2 ^ 11 = 2047 := not_not.mp hfin
    split_ifs with hfrac
    · -- an infinity: only the sign is left to read
      have hfrac : bits % 2 ^ 52 = 0 := hfrac
      have hsign : signOf 8 bits = 0 ∨ signOf 8 bits = 1 := by
        have : bits / 2 ^ 63 < 2 := by omega
        change bits / 2 ^ 63 = 0 ∨ bits / 2 ^ 63 = 1
        omega
      refine ⟨2, _, rfl, ⟨.inl rfl, ?_⟩, ?_⟩
      · obtain hs | hs := hsign <;> rw [hs] <;> decide
      · have hbits : bits = signOf 8 bits * 2 ^ 63 + 2047 * 2 ^ 52 := by
          change bits = bits / 2 ^ 63 * 2 ^ 63 + 2047 * 2 ^ 52
          omega
        obtain hs | hs := hsign
        · rw [hs] at hbits ⊢
          rw [hbits]
          decide
        · rw [hs] at hbits ⊢
          rw [hbits]
          decide
    · obtain h | h | h := h
      · exact absurd h hfin
      · exact absurd h hfrac
      · exact ⟨2, _, rfl, ⟨.inl rfl, by norm_num⟩, by rw [h]; decide⟩

/-- A double is packed from a sign, an exponent that is not the last and a fraction. -/
theorem isDouble_pack {sign exponent fraction : ℕ} (hs : sign < 2) (he : exponent < 2047)
    (hf : fraction < 2 ^ 52) : IsDouble (pack 8 sign exponent fraction) := by
  have hpack : pack 8 sign exponent fraction = sign * 2 ^ 63 + exponent * 2 ^ 52 + fraction := rfl
  refine ⟨by rw [hpack]; omega, .inl ?_⟩
  have hexp : exponentOf 8 (pack 8 sign exponent fraction) =
      (sign * 2 ^ 63 + exponent * 2 ^ 52 + fraction) / 2 ^ 52 % 2 ^ 11 := rfl
  rw [IsFinite, hexp]
  omega

theorem isDouble_infinity {sign : ℕ} (hs : sign < 2) : IsDouble (pack 8 sign 2047 0) := by
  obtain rfl | rfl : sign = 0 ∨ sign = 1 := by omega
  · decide
  · decide

/-- A float of any width stands for a double. -/
theorem isDouble_widen {w bits : ℕ} (hw : w = 2 ∨ w = 4 ∨ w = 8) (hbits : bits < 256 ^ w) :
    IsDouble (widen w bits) := by
  have hsign : signOf w bits < 2 := by
    obtain rfl | rfl | rfl := hw
    · exact show bits / 2 ^ 15 < 2 by norm_num at hbits; omega
    · exact show bits / 2 ^ 31 < 2 by norm_num at hbits; omega
    · exact show bits / 2 ^ 63 < 2 by norm_num at hbits; omega
  unfold widen
  dsimp only
  split_ifs with hlast hzero h8 hsub hnil
  · exact isDouble_infinity hsign
  · decide
  · subst h8
    exact ⟨by norm_num at hbits; omega, .inl hlast⟩
  · exact isDouble_pack hsign (by norm_num) (by norm_num)
  · -- a subnormal: its leading one is below the fraction's width
    have hfrac : fractionOf w bits < 2 ^ fractionBits w := Nat.mod_lt _ (by positivity)
    have hk : Nat.log2 (fractionOf w bits) < fractionBits w := (Nat.log2_lt hnil).mpr hfrac
    have hlo : 2 ^ Nat.log2 (fractionOf w bits) ≤ fractionOf w bits := Nat.log2_self_le hnil
    have hhi : fractionOf w bits < 2 ^ (Nat.log2 (fractionOf w bits) + 1) := Nat.lt_log2_self
    generalize Nat.log2 (fractionOf w bits) = k at hk hlo hhi
    have hwidth : fractionBits w = 10 ∧ bias w = 15 ∨ fractionBits w = 23 ∧ bias w = 127 := by
      obtain rfl | rfl | rfl := hw
      · exact .inl ⟨rfl, rfl⟩
      · exact .inr ⟨rfl, rfl⟩
      · exact absurd rfl h8
    refine isDouble_pack hsign (by omega) ?_
    have hsplit : 2 ^ k * 2 ^ (52 - k) = 2 ^ 52 := by rw [← pow_add]; congr 1; omega
    rw [← hsplit]
    refine (Nat.mul_lt_mul_right (by positivity)).mpr ?_
    rw [pow_succ] at hhi
    omega
  · have hfrac : fractionOf w bits < 2 ^ fractionBits w := Nat.mod_lt _ (by positivity)
    have hexp : exponentOf w bits < 2 ^ exponentBits w := Nat.mod_lt _ (by positivity)
    obtain rfl | rfl | rfl := hw
    · have hfrac : fractionOf 2 bits < 2 ^ 10 := hfrac
      have hexp : exponentOf 2 bits < 2 ^ 5 := hexp
      exact isDouble_pack hsign (show exponentOf 2 bits + 1023 - 15 < 2047 by omega)
        (show fractionOf 2 bits * 2 ^ 42 < 2 ^ 52 by omega)
    · have hfrac : fractionOf 4 bits < 2 ^ 23 := hfrac
      have hexp : exponentOf 4 bits < 2 ^ 8 := hexp
      exact isDouble_pack hsign (show exponentOf 4 bits + 1023 - 127 < 2047 by omega)
        (show fractionOf 4 bits * 2 ^ 29 < 2 ^ 52 by omega)
    · exact absurd rfl h8

/-! ## The floats of an item -/

mutual

/-- The item with every float rewritten. -/
def Item.mapFloat (f : ℕ → Item) : Item → Item
  | .array xs => .array (mapFloatList f xs)
  | .map ps => .map (mapFloatPairs f ps)
  | .tag n x => .tag n (x.mapFloat f)
  | .float w bits => f (widen w bits)
  | i => i

def mapFloatList (f : ℕ → Item) : List Item → List Item
  | [] => []
  | x :: xs => x.mapFloat f :: mapFloatList f xs

def mapFloatPairs (f : ℕ → Item) : List (Item × Item) → List (Item × Item)
  | [] => []
  | (k, v) :: ps => (k.mapFloat f, v.mapFloat f) :: mapFloatPairs f ps

end

mutual

/-- No float at any depth has a form shorter than the one a double is written in. -/
def Item.NoShortFloat : Item → Prop
  | .array xs => NoShortFloatList xs
  | .map ps => NoShortFloatPairs ps
  | .tag _ x => x.NoShortFloat
  | .float w bits => doubleFloat (widen w bits) = shortFloat (widen w bits)
  | _ => True

/-- No member has such a float. -/
def NoShortFloatList : List Item → Prop
  | [] => True
  | x :: xs => x.NoShortFloat ∧ NoShortFloatList xs

/-- No key and no value has such a float. -/
def NoShortFloatPairs : List (Item × Item) → Prop
  | [] => True
  | (k, v) :: ps => k.NoShortFloat ∧ v.NoShortFloat ∧ NoShortFloatPairs ps

end

theorem length_mapFloatList (f : ℕ → Item) (xs : List Item) :
    (mapFloatList f xs).length = xs.length := by
  induction xs with
  | nil => rfl
  | cons x xs ih => simp [mapFloatList, ih]

theorem length_mapFloatPairs (f : ℕ → Item) (ps : List (Item × Item)) :
    (mapFloatPairs f ps).length = ps.length := by
  induction ps with
  | nil => rfl
  | cons p ps ih => obtain ⟨k, v⟩ := p; simp [mapFloatPairs, ih]

theorem noShortFloatList_iff {xs : List Item} :
    NoShortFloatList xs ↔ ∀ x ∈ xs, x.NoShortFloat := by
  induction xs with
  | nil => simp [NoShortFloatList]
  | cons x xs ih => simp [NoShortFloatList, ih]

theorem noShortFloatPairs_iff {ps : List (Item × Item)} :
    NoShortFloatPairs ps ↔ ∀ p ∈ ps, p.1.NoShortFloat ∧ p.2.NoShortFloat := by
  induction ps with
  | nil => simp [NoShortFloatPairs]
  | cons p ps ih => obtain ⟨k, v⟩ := p; simp [NoShortFloatPairs, ih, and_assoc]

/-- **The two ways of writing floats** take as many octets exactly when no float has a short form. -/
theorem length_mapFloat_le (i : Item) :
    (encode (i.mapFloat shortFloat)).length ≤ (encode (i.mapFloat doubleFloat)).length ∧
      ((encode (i.mapFloat shortFloat)).length = (encode (i.mapFloat doubleFloat)).length ↔
        i.NoShortFloat) := by
  induction i using Item.induction with
  | array xs ih =>
      have hlist : (encodeList (mapFloatList shortFloat xs)).length ≤
            (encodeList (mapFloatList doubleFloat xs)).length ∧
          ((encodeList (mapFloatList shortFloat xs)).length =
            (encodeList (mapFloatList doubleFloat xs)).length ↔ NoShortFloatList xs) := by
        induction xs with
        | nil => exact ⟨le_rfl, by simp [mapFloatList, NoShortFloatList]⟩
        | cons x xs ihxs =>
            obtain ⟨hle, heq⟩ := ih x (by simp)
            obtain ⟨hles, heqs⟩ := ihxs fun y hy => ih y (by simp [hy])
            simp only [mapFloatList, encodeList, List.length_append, NoShortFloatList, ← heq, ← heqs]
            omega
      simp only [Item.mapFloat, encode, List.length_append, length_mapFloatList, Item.NoShortFloat,
        ← hlist.2]
      have := hlist.1
      omega
  | map ps ih =>
      have hpairs : (encodePairs (mapFloatPairs shortFloat ps)).length ≤
            (encodePairs (mapFloatPairs doubleFloat ps)).length ∧
          ((encodePairs (mapFloatPairs shortFloat ps)).length =
            (encodePairs (mapFloatPairs doubleFloat ps)).length ↔ NoShortFloatPairs ps) := by
        induction ps with
        | nil => exact ⟨le_rfl, by simp [mapFloatPairs, NoShortFloatPairs]⟩
        | cons p ps ihps =>
            obtain ⟨⟨hlek, heqk⟩, hlev, heqv⟩ := ih p (by simp)
            obtain ⟨hles, heqs⟩ := ihps fun q hq => ih q (by simp [hq])
            simp only [mapFloatPairs, encodePairs, List.length_append, NoShortFloatPairs, ← heqk,
              ← heqv, ← heqs]
            omega
      simp only [Item.mapFloat, encode, List.length_append, length_mapFloatPairs, Item.NoShortFloat,
        ← hpairs.2]
      have := hpairs.1
      omega
  | tag n x ih =>
      simp only [Item.mapFloat, encode, List.length_append, Item.NoShortFloat, ← ih.2]
      have := ih.1
      omega
  | float w bits => exact length_shortFloat_le (widen w bits)
  | _ => exact ⟨le_rfl, by simp [Item.mapFloat, Item.NoShortFloat]⟩

end Cbor
