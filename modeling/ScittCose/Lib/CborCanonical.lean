import ScittCose.Lib.Cbor

/-!
# The canonical order of map keys (RFC 7049 §3.9)

`canonical` sorts the pairs of every map of an item, shorter encoded keys first and keys of one length
by their octets. Sorting moves octets and drops none, so the encoding keeps its length
(`length_encode_canonical`).
-/

namespace Cbor

/-- The canonical order of two encoded keys. -/
def keyLe (a b : Octets) : Prop :=
  a.length < b.length ∨ a.length = b.length ∧ Octets.toNat a ≤ Octets.toNat b

instance : DecidableRel keyLe := fun a b => inferInstanceAs (Decidable (_ ∨ _))

/-- The canonical order of two pairs. -/
def pairLe (p q : Item × Item) : Prop := keyLe (encode p.1) (encode q.1)

instance : DecidableRel pairLe := fun p q => inferInstanceAs (Decidable (keyLe _ _))

mutual

/-- The item with the pairs of every map in canonical order. -/
def Item.canonical : Item → Item
  | .array xs => .array (canonicalList xs)
  | .map ps => .map ((canonicalPairs ps).insertionSort pairLe)
  | .tag n x => .tag n x.canonical
  | i => i

def canonicalList : List Item → List Item
  | [] => []
  | x :: xs => x.canonical :: canonicalList xs

def canonicalPairs : List (Item × Item) → List (Item × Item)
  | [] => []
  | (k, v) :: ps => (k.canonical, v.canonical) :: canonicalPairs ps

end

theorem length_canonicalList (xs : List Item) : (canonicalList xs).length = xs.length := by
  induction xs with
  | nil => rfl
  | cons x xs ih => simp [canonicalList, ih]

theorem length_canonicalPairs (ps : List (Item × Item)) :
    (canonicalPairs ps).length = ps.length := by
  induction ps with
  | nil => rfl
  | cons p ps ih => simp [canonicalPairs, ih]

/-- The order of the pairs does not change how many octets they take. -/
theorem length_encodePairs_of_perm {ps qs : List (Item × Item)} (h : ps.Perm qs) :
    (encodePairs ps).length = (encodePairs qs).length := by
  rw [encodePairs_eq_flatMap, encodePairs_eq_flatMap]
  exact (h.flatMap_right _).length_eq

/-- Canonical order keeps the length of the encoding. -/
theorem length_encode_canonical (i : Item) : (encode i.canonical).length = (encode i).length := by
  induction i using Item.induction with
  | array xs ih =>
      have hlist : (encodeList (canonicalList xs)).length = (encodeList xs).length := by
        induction xs with
        | nil => rfl
        | cons x xs ihxs =>
            rw [canonicalList, encodeList, encodeList, List.length_append, List.length_append,
              ih x (by simp), ihxs fun y hy => ih y (by simp [hy])]
      rw [Item.canonical, encode, encode, List.length_append, List.length_append,
        length_canonicalList, hlist]
  | map ps ih =>
      have hpairs : (encodePairs (canonicalPairs ps)).length = (encodePairs ps).length := by
        induction ps with
        | nil => rfl
        | cons p ps ihps =>
            obtain ⟨hk, hv⟩ := ih p (by simp)
            rw [canonicalPairs, encodePairs, encodePairs, List.length_append, List.length_append,
              List.length_append, List.length_append, hk, hv, ihps fun q hq => ih q (by simp [hq])]
      have hsort := List.perm_insertionSort pairLe (canonicalPairs ps)
      rw [Item.canonical, encode, encode, List.length_append, List.length_append, hsort.length_eq,
        length_canonicalPairs, length_encodePairs_of_perm hsort, hpairs]
  | tag n x ih => rw [Item.canonical, encode, encode, List.length_append, List.length_append, ih]
  | _ => rfl

end Cbor
