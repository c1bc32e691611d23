import ScittCose.Lib.Cbor

/-!
# The receipt encoding rule: the grammar

A conforming octet string is the preferred serialization of one item of `Grammar`: integers of
`[-2^63, 2^64 - 1]`, octet and text strings, arrays, maps with distinct integer or text keys in any
order, `false`, `true` and `null`, nested at most 16 levels deep, with tag 18 on the top item only.
-/

namespace ScittCose.EncodingRule

open Cbor

/-- A map key of the rule: an integer or a text string. -/
def IsKey : Item → Prop
  | .int _ => True
  | .text _ => True
  | _ => False

instance : DecidablePred IsKey := fun i => by
  cases i <;> unfold IsKey <;> infer_instance

mutual

/-- The items of the rule below the outer tag. An argument is below `2 ^ 64` in any CBOR. -/
def Plain : Item → Prop
  | .int n => -2 ^ 63 ≤ n ∧ n < 2 ^ 64
  | .bytes b => b.length < 2 ^ 64
  | .text s => (Utf8.encode s).length < 2 ^ 64
  | .array xs => xs.length < 2 ^ 64 ∧ PlainList xs
  | .map ps => ps.length < 2 ^ 64 ∧ (ps.map Prod.fst).Nodup ∧ PlainPairs ps
  | .bool _ => True
  | .null => True
  | _ => False

/-- Every member is an item of the rule. -/
def PlainList : List Item → Prop
  | [] => True
  | x :: xs => Plain x ∧ PlainList xs

/-- Every key is a key of the rule and every value an item of the rule. -/
def PlainPairs : List (Item × Item) → Prop
  | [] => True
  | (k, v) :: ps => IsKey k ∧ Plain k ∧ Plain v ∧ PlainPairs ps

end

/-- The grammar of the rule: an item of at most 16 levels, with tag 18 around the top item when
`outerTag` admits it. -/
def Grammar (outerTag : Bool) : Item → Prop
  | .tag n x => outerTag = true ∧ n = 18 ∧ Plain x ∧ x.depth + 1 ≤ 16
  | i => Plain i ∧ i.depth ≤ 16

theorem plainList_iff {xs : List Item} : PlainList xs ↔ ∀ x ∈ xs, Plain x := by
  induction xs with
  | nil => simp [PlainList]
  | cons x xs ih => simp [PlainList, ih]

theorem plainPairs_iff {ps : List (Item × Item)} :
    PlainPairs ps ↔ ∀ p ∈ ps, IsKey p.1 ∧ Plain p.1 ∧ Plain p.2 := by
  induction ps with
  | nil => simp [PlainPairs]
  | cons p ps ih => obtain ⟨k, v⟩ := p; simp [PlainPairs, ih, and_assoc]

/-- Every item of the rule is one CBOR can carry. -/
theorem Plain.encodable {i : Item} (h : Plain i) : i.Encodable := by
  induction i using Item.induction with
  | int n => exact ⟨by have := h.1; omega, h.2⟩
  | bytes b => exact h
  | text s => exact h
  | array xs ih =>
      exact ⟨h.1, encodableList_iff.mpr fun x hx => ih x hx (plainList_iff.mp h.2 x hx)⟩
  | map ps ih =>
      refine ⟨h.1, encodablePairs_iff.mpr fun p hp => ?_⟩
      obtain ⟨-, hk, hv⟩ := plainPairs_iff.mp h.2.2 p hp
      exact ⟨(ih p hp).1 hk, (ih p hp).2 hv⟩
  | bool b => trivial
  | null => trivial
  | tag n x _ => exact h.elim
  | simple n => exact h.elim
  | float w b => exact h.elim
  | foreign k => exact h.elim

theorem Grammar.encodable {outerTag : Bool} {i : Item} (h : Grammar outerTag i) : i.Encodable := by
  cases i with
  | tag n x =>
      obtain ⟨-, rfl, hx, -⟩ := h
      exact ⟨by norm_num, hx.encodable⟩
  | _ => exact h.1.encodable

/-- Without the outer tag the grammar is smaller. -/
theorem Grammar.outer {i : Item} (h : Grammar false i) : Grammar true i := by
  cases i with
  | tag n x => cases h.1
  | _ => exact h

theorem Plain.grammar {i : Item} (h : Plain i) (hd : i.depth ≤ 16) : Grammar false i := by
  cases i with
  | tag n x => exact h.elim
  | _ => exact ⟨h, hd⟩

/-- The members of an array under the outer tag are items of the rule. -/
theorem Grammar.of_mem {n : ℕ} {x : Item} {xs : List Item} (h : Grammar true (.tag n (.array xs)))
    (hx : x ∈ xs) : Grammar false x := by
  obtain ⟨-, -, hplain, hdepth⟩ := h
  have hle : depthList xs ≤ 15 := by
    rw [Item.depth] at hdepth
    omega
  have hx15 := depthList_le_iff.mp hle x hx
  exact (plainList_iff.mp hplain.2 x hx).grammar (by omega)

/-! ## Major types -/

/-- The major type of an item. -/
def majorOf : Item → ℕ
  | .int n => if 0 ≤ n then 0 else 1
  | .bytes _ => 2
  | .text _ => 3
  | .array _ => 4
  | .map _ => 5
  | .tag _ _ => 6
  | _ => 7

theorem cborHead_eq_cons (major : ℕ) {a : ℕ} (hm : major < 8) (ha : a < 2 ^ 64) :
    ∃ x t, Cbor.head major a = x :: t ∧ x.toNat / 32 = major := by
  obtain ⟨info, arg, hhead, hi, -⟩ := exists_head major ha
  have := toNat_initial hm (show info < 32 by omega)
  exact ⟨_, _, hhead, by omega⟩

/-- The first octet of an item carries its major type. -/
theorem encode_eq_cons {i : Item} (h : Plain i) :
    ∃ x t, encode i = x :: t ∧ x.toNat / 32 = majorOf i := by
  have key : ∀ {major a : ℕ} {w : Octets}, major < 8 → a < 2 ^ 64 →
      ∃ x t, Cbor.head major a ++ w = x :: t ∧ x.toNat / 32 = major := by
    intro major a w hm ha
    obtain ⟨x, t, hx, hmaj⟩ := cborHead_eq_cons major hm ha
    exact ⟨x, t ++ w, by rw [hx]; rfl, hmaj⟩
  cases i with
  | int n =>
      obtain ⟨h1, h2⟩ := h
      simp only [encode, majorOf]
      split_ifs
      · exact cborHead_eq_cons 0 (by omega) (by omega)
      · exact cborHead_eq_cons 1 (by omega) (by omega)
  | bytes b => exact key (by omega) h
  | text s => exact key (by omega) h
  | array xs => exact key (by omega) h.1
  | map ps => exact key (by omega) h.1
  | bool b => cases b <;> exact ⟨_, _, rfl, rfl⟩
  | null => exact ⟨_, _, rfl, rfl⟩
  | tag n x => exact h.elim
  | simple n => exact h.elim
  | float w b => exact h.elim
  | foreign k => exact h.elim

theorem isKey_iff_majorOf {i : Item} (h : Plain i) : IsKey i ↔ majorOf i ∈ [0, 1, 3] := by
  cases i with
  | int n => simp only [IsKey, majorOf]; split_ifs <;> simp
  | _ => simp_all [IsKey, majorOf, Plain]

end ScittCose.EncodingRule
