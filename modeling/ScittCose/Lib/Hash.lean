import ScittCose.Lib.Octets

/-!
# Hash functions and collisions

A `Hash` maps octet strings to digests of 32 octets; nothing else is asked of it. A run that hashes
a list of inputs exhibits a `Collision` when two different inputs of the list have one digest. When
it exhibits none, equal digests come from equal inputs (`eq_of_digest_eq`).
-/

/-- A hash function with digests of 32 octets. -/
structure Hash where
  digest : Octets → Octets
  length_digest : ∀ m, (digest m).length = 32

namespace Hash

/-- Two different inputs among those a run hashed have the same digest. -/
def Collision (H : Hash) (inputs : List Octets) : Prop :=
  ∃ x ∈ inputs, ∃ y ∈ inputs, x ≠ y ∧ H.digest x = H.digest y

variable {H : Hash} {inputs : List Octets}

theorem eq_of_digest_eq (h : ¬ H.Collision inputs) {x y : Octets} (hx : x ∈ inputs)
    (hy : y ∈ inputs) (hxy : H.digest x = H.digest y) : x = y := by
  by_contra hne
  exact h ⟨x, hx, y, hy, hne, hxy⟩

/-- Distinct digests of the distinct inputs: the run exhibits no collision. -/
theorem not_collision_of_nodup (h : (inputs.dedup.map H.digest).Nodup) :
    ¬ H.Collision inputs := by
  rintro ⟨x, hx, y, hy, hne, hxy⟩
  exact hne (List.inj_on_of_nodup_map h (List.mem_dedup.mpr hx) (List.mem_dedup.mpr hy) hxy)

/-- A run that hashes more still exhibits the collision. -/
theorem Collision.mono {more : List Octets} (h : H.Collision inputs) (hsub : inputs ⊆ more) :
    H.Collision more := by
  obtain ⟨x, hx, y, hy, hne, hxy⟩ := h
  exact ⟨x, hsub hx, y, hsub hy, hne, hxy⟩

end Hash
