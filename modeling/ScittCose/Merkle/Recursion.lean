import ScittCose.Merkle.Consistency
import ScittCose.Merkle.Exact

/-!
# The recursive reading of a consistency proof (`scitt_cose/merkle.py`)

`readSubproof` reads a proof the way `_subproof` writes one: down the split to the last subtree both
trees share, then one sibling a level on the way back. `verifyConsistency_iff_readSubproof` says the
loop over the bits of the two sizes accepts exactly what this reading accepts, for any list of nodes.

`verifyConsistency_complete` is completeness: the proof the prover writes is accepted.
-/

namespace ScittCose.Merkle

section Source

variable (H : Hash)

/-- Read the proof of `SUBPROOF(m, n, b)` into the nodes of the old and the new tree, with the nodes
left over. Where `_subproof` writes no node for the subtree the trees share, the first root is its
hash. -/
def readSubproof (firstRoot : Octets) (m n : ℕ) (b : Bool) (proof : List Octets) :
    Option ((Octets × Octets) × List Octets) :=
  if m = n then
    if b then some ((firstRoot, firstRoot), proof)
    else proof.head?.map fun node => ((node, node), proof.tail)
  else if _h : 2 ≤ n then
    let k := largestPow2Below n
    if m ≤ k then do
      let (roots, rest) ← readSubproof firstRoot m k b proof
      let right ← rest.head?
      return ((roots.1, nodeHash H roots.2 right), rest.tail)
    else do
      let (roots, rest) ← readSubproof firstRoot (m - k) (n - k) false proof
      let left ← rest.head?
      return ((nodeHash H left roots.1, nodeHash H left roots.2), rest.tail)
  else none
termination_by n
decreasing_by
  · exact largestPow2Below_lt _h
  · have := largestPow2Below_pos n
    omega

end Source

variable {H : Hash} {firstRoot : Octets}

/-! ## The recursion, level by level -/

theorem readSubproof_self {n : ℕ} {b : Bool} {proof : List Octets} :
    readSubproof H firstRoot n n b proof =
      if b then some ((firstRoot, firstRoot), proof)
      else proof.head?.map fun node => ((node, node), proof.tail) := by
  rw [readSubproof, if_pos rfl]

/-- One level of the recursion: the subtree on the side of the cut, then its sibling. -/
theorem readSubproof_left {m n : ℕ} {b : Bool} {proof rest : List Octets} {roots : Octets × Octets}
    (hm0 : 0 < m) (hm : m < n) (hk : m ≤ largestPow2Below n) :
    readSubproof H firstRoot m n b proof = some (roots, rest) ↔
      ∃ roots₁ right, readSubproof H firstRoot m (largestPow2Below n) b proof =
        some (roots₁, right :: rest) ∧ roots = hashStep H false right roots₁ := by
  rw [readSubproof, if_neg hm.ne, dif_pos (by omega)]
  dsimp only
  rw [if_pos hk]
  simp only [Option.bind_eq_bind, Option.bind_eq_some_iff, Option.pure_def, Option.some.injEq,
    Prod.mk.injEq]
  constructor
  · rintro ⟨⟨roots₁, rest₁⟩, hread, right, hhead, hroots, rfl⟩
    obtain ⟨tail, rfl⟩ := List.head?_eq_some_iff.mp hhead
    exact ⟨roots₁, right, hread, hroots.symm⟩
  · rintro ⟨roots₁, right, hread, rfl⟩
    exact ⟨⟨roots₁, right :: rest⟩, hread, right, rfl, rfl, rfl⟩

theorem readSubproof_right {m n : ℕ} {b : Bool} {proof rest : List Octets} {roots : Octets × Octets}
    (hm : m < n) (hk : largestPow2Below n < m) :
    readSubproof H firstRoot m n b proof = some (roots, rest) ↔
      ∃ roots₁ left, readSubproof H firstRoot (m - largestPow2Below n) (n - largestPow2Below n) false
        proof = some (roots₁, left :: rest) ∧ roots = hashStep H true left roots₁ := by
  have hpos := largestPow2Below_pos n
  rw [readSubproof, if_neg hm.ne, dif_pos (by omega)]
  dsimp only
  rw [if_neg (by omega)]
  simp only [Option.bind_eq_bind, Option.bind_eq_some_iff, Option.pure_def, Option.some.injEq,
    Prod.mk.injEq]
  constructor
  · rintro ⟨⟨roots₁, rest₁⟩, hread, left, hhead, hroots, rfl⟩
    obtain ⟨tail, rfl⟩ := List.head?_eq_some_iff.mp hhead
    exact ⟨roots₁, left, hread, hroots.symm⟩
  · rintro ⟨roots₁, left, hread, rfl⟩
    exact ⟨⟨roots₁, left :: rest⟩, hread, left, rfl, rfl, rfl⟩

/-! ## The reading replays the way up -/

/-- With the flag clear the first node is the shared subtree's, and each further node one step of the
way up. -/
theorem readSubproof_false_iff {m n : ℕ} {proof rest : List Octets} {roots : Octets × Octets}
    (hm0 : 0 < m) (hm : m ≤ n) :
    readSubproof H firstRoot m n false proof = some (roots, rest) ↔
      ∃ s nodes, proof = s :: nodes ++ rest ∧ replay H (spine m n) nodes (s, s) = some roots := by
  induction n using Nat.strong_induction_on generalizing m rest roots with
  | _ n ih =>
      obtain rfl | hm := hm.eq_or_lt
      · rw [readSubproof_self, spine_self]
        constructor
        · intro h
          obtain ⟨s, hhead, h⟩ := Option.map_eq_some_iff.mp h
          obtain ⟨tail, rfl⟩ := List.head?_eq_some_iff.mp hhead
          cases h
          exact ⟨s, [], rfl, rfl⟩
        · rintro ⟨s, nodes, rfl, hreplay⟩
          cases nodes with
          | nil =>
              cases hreplay
              rfl
          | cons node nodes => cases hreplay
      have hlt := largestPow2Below_lt (n := n) (by omega)
      have hpos := largestPow2Below_pos n
      by_cases hk : m ≤ largestPow2Below n
      · rw [readSubproof_left hm0 hm hk, spine_left hm0 hm hk]
        simp only [ih _ hlt hm0 hk, replay_snoc]
        constructor
        · rintro ⟨roots₁, right, ⟨s, nodes, rfl, hreplay⟩, rfl⟩
          exact ⟨s, nodes ++ [right], by simp, nodes, right, roots₁, rfl, hreplay, rfl⟩
        · rintro ⟨s, _, rfl, nodes, right, roots₁, rfl, hreplay, rfl⟩
          exact ⟨roots₁, right, ⟨s, nodes, by simp, hreplay⟩, rfl⟩
      · have hk : largestPow2Below n < m := by omega
        have hm1 : 0 < m - largestPow2Below n := by omega
        have hle : m - largestPow2Below n ≤ n - largestPow2Below n := by omega
        rw [readSubproof_right hm hk, spine_right hm hk]
        simp only [ih _ (by omega) hm1 hle, replay_snoc]
        constructor
        · rintro ⟨roots₁, left, ⟨s, nodes, rfl, hreplay⟩, rfl⟩
          exact ⟨s, nodes ++ [left], by simp, nodes, left, roots₁, rfl, hreplay, rfl⟩
        · rintro ⟨s, _, rfl, nodes, left, roots₁, rfl, hreplay, rfl⟩
          exact ⟨roots₁, left, ⟨s, nodes, by simp, hreplay⟩, rfl⟩

/-- With the flag set the first root stands before the proof when `m` is a power of two: only then
does the recursion go left at every level. -/
theorem readSubproof_true_iff {m n : ℕ} {proof rest : List Octets} {roots : Octets × Octets}
    (hm0 : 0 < m) (hm : m < n ∨ m = n ∧ m.isPowerOfTwo) :
    readSubproof H firstRoot m n true proof = some (roots, rest) ↔
      ∃ s nodes, (if m &&& (m - 1) = 0 then [firstRoot] else []) ++ proof = s :: nodes ++ rest ∧
        replay H (spine m n) nodes (s, s) = some roots := by
  have hiff := Nat.and_sub_one_eq_zero_iff_isPowerOfTwo (n := m) (by omega)
  induction n using Nat.strong_induction_on generalizing rest roots with
  | _ n ih =>
      obtain hm | ⟨rfl, hpow⟩ := hm
      · obtain ⟨t, ht, htlt, htle⟩ := largestPow2Below_spec (n := n) (by omega)
        by_cases hk : m ≤ largestPow2Below n
        · have hshared : m < largestPow2Below n ∨ m = largestPow2Below n ∧ m.isPowerOfTwo := by
            obtain hk | hk := hk.lt_or_eq
            · exact .inl hk
            · exact .inr ⟨hk, t, hk.trans ht⟩
          rw [readSubproof_left hm0 hm hk, spine_left hm0 hm hk]
          simp only [ih _ (by omega) hshared, replay_snoc]
          constructor
          · rintro ⟨roots₁, right, ⟨s, nodes, hproof, hreplay⟩, rfl⟩
            exact ⟨s, nodes ++ [right], by simp [hproof], nodes, right, roots₁, rfl, hreplay, rfl⟩
          · rintro ⟨s, _, hproof, nodes, right, roots₁, rfl, hreplay, rfl⟩
            exact ⟨roots₁, right, ⟨s, nodes, by simp [hproof], hreplay⟩, rfl⟩
        · have hk : largestPow2Below n < m := by omega
          have hnot : ¬ m &&& (m - 1) = 0 := by
            rw [hiff]
            rintro ⟨e, rfl⟩
            have h1 : t < e := (Nat.pow_lt_pow_iff_right (by norm_num)).mp (ht ▸ hk)
            have h2 : e < t + 1 :=
              (Nat.pow_lt_pow_iff_right (a := 2) (by norm_num)).mp (hm.trans_le htle)
            omega
          have hm1 : 0 < m - largestPow2Below n := by omega
          have hle : m - largestPow2Below n ≤ n - largestPow2Below n := by omega
          rw [readSubproof_right hm hk, spine_right hm hk, if_neg hnot]
          simp only [readSubproof_false_iff hm1 hle, replay_snoc]
          constructor
          · rintro ⟨roots₁, left, ⟨s, nodes, rfl, hreplay⟩, rfl⟩
            exact ⟨s, nodes ++ [left], by simp, nodes, left, roots₁, rfl, hreplay, rfl⟩
          · rintro ⟨s, _, hproof, nodes, left, roots₁, rfl, hreplay, rfl⟩
            exact ⟨roots₁, left, ⟨s, nodes, by simpa using hproof, hreplay⟩, rfl⟩
      · rw [readSubproof_self, spine_self, if_pos (hiff.mpr hpow)]
        constructor
        · intro h
          cases h
          exact ⟨firstRoot, [], rfl, rfl⟩
        · rintro ⟨s, nodes, hproof, hreplay⟩
          cases nodes with
          | nil =>
              cases hreplay
              cases hproof
              rfl
          | cons node nodes => cases hreplay

/-! ## The loop and the recursion -/

/-- The nodes the loop works on, when the texts decode. -/
theorem seededProof_eq {first : Octets} {m : ℕ} {proofHex : List String} {proof : List Octets}
    (hproof : proofHex.mapM Octets.fromHex = some proof) :
    seededProof (Octets.toHex first) m proofHex =
      some ((if m &&& (m - 1) = 0 then [first] else []) ++ proof) := by
  rw [seededProof, hproof]
  by_cases h : m &&& (m - 1) = 0
  · simp [h]
  · simp [h]

/-- The loop over the bits of the sizes accepts exactly the proofs that the recursion of `_subproof`
reads whole into the two roots. -/
theorem verifyConsistency_iff_readSubproof {m n : ℕ} (hm0 : 0 < m) (hm : m < n)
    (firstRoot secondRoot : Octets) {proofHex : List String} {proof : List Octets}
    (hproof : proofHex.mapM Octets.fromHex = some proof) :
    verifyConsistency H (Octets.toHex firstRoot) (Octets.toHex secondRoot) m n proofHex = .ok true ↔
      readSubproof H firstRoot m n true proof = some ((firstRoot, secondRoot), []) := by
  rw [verifyConsistency_eq_ok_iff hm0 hm, readSubproof_true_iff hm0 (.inl hm), seededProof_eq hproof]
  simp only [Option.some.injEq, List.append_nil, Octets.toHex_inj]
  constructor
  · rintro ⟨s, nodes, fr, sr, hnodes, hreplay, rfl, rfl⟩
    exact ⟨s, nodes, hnodes, hreplay⟩
  · rintro ⟨s, nodes, hnodes, hreplay⟩
    exact ⟨s, nodes, _, _, hnodes, hreplay, rfl, rfl⟩

set_option maxRecDepth 100000 in
/-- Three of four leaves: the third leaf, its sibling and the left half. -/
theorem verifyConsistency_iff_readSubproof_three :
    let leaf := fun i => leafHashBytes Hash.sha256 [i]
    let left := nodeHash Hash.sha256 (leaf 0) (leaf 1)
    let first := nodeHash Hash.sha256 left (leaf 2)
    let second := nodeHash Hash.sha256 left (nodeHash Hash.sha256 (leaf 2) (leaf 3))
    readSubproof Hash.sha256 first 3 4 true [leaf 2, leaf 3, left] = some ((first, second), []) := by
  intro leaf left first second
  exact (verifyConsistency_iff_readSubproof (by norm_num) (by norm_num) first second
    (Octets.mapM_fromHex_toHex [leaf 2, leaf 3, left])).mp (by decide +kernel)

/-! ## Completeness -/

/-- The proof the prover writes between two sizes of a log is accepted, whatever the hash. -/
theorem verifyConsistency_complete {entriesHex : List String} {entries : List Octets}
    (hD : entriesHex.mapM Octets.fromHex = some entries) {m n : ℕ} (hmn : m ≤ n)
    (hn : n ≤ entriesHex.length) :
    ∃ firstRootHex secondRootHex proofHex,
      merkleRoot H (entriesHex.take m) = some firstRootHex ∧
        merkleRoot H (entriesHex.take n) = some secondRootHex ∧
        consistencyProof H entriesHex m n = .ok proofHex ∧
        verifyConsistency H firstRootHex secondRootHex m n proofHex = .ok true := by
  have hlen := Octets.length_of_mapM hD
  by_cases htrivial : m = 0 ∨ m = n
  · refine ⟨_, _, [], merkleRoot_take m hD, merkleRoot_take n hD, ?_, ?_⟩
    · rw [consistencyProof, if_neg (by omega), if_neg (by omega), if_pos (by omega)]
    · obtain rfl | rfl := htrivial
      · rfl
      · by_cases hm0 : m = 0
        · subst hm0
          rfl
        · rw [verifyConsistency, if_neg (by omega), if_neg (by omega), if_pos rfl]
          simp
  · have hm0 : 0 < m := by omega
    have hm : m < n := by omega
    -- the leaves of the new tree
    have hX : ((entries.take n).map (leafHashBytes H)).length = n := by
      rw [List.length_map, List.length_take]
      omega
    have htake : ((entries.take n).map (leafHashBytes H)).take m =
        (entries.take m).map (leafHashBytes H) := by
      rw [← List.map_take, List.take_take, min_eq_left hmn]
    obtain ⟨A, B, rest, hproof, -, hroot⟩ := exists_subproof (H := H) hm0 (hX.symm ▸ hm)
    have hseed := seed_append_subproof (H := H) hm0 (.inl (hX.symm ▸ hm))
    have hreplay := replay_spine hm0 (hX.symm ▸ hm) hproof rfl
    rw [htake] at hroot hseed hreplay
    rw [hX, hroot] at hreplay
    refine ⟨_, _, (subproof H m ((entries.take n).map (leafHashBytes H)) true).map Octets.toHex,
      merkleRoot_take m hD, merkleRoot_take n hD, ?_, ?_⟩
    · rw [consistencyProof, if_neg (by omega), if_neg (by omega), if_neg (by omega), Int.toNat_natCast,
        Octets.mapM_take n hD]
      rfl
    · refine (verifyConsistency_eq_ok_iff hm0 hm).mpr ⟨A, B :: rest, _, _, ?_, hreplay, rfl, rfl⟩
      rw [seededProof_eq (Octets.mapM_fromHex_toHex _), ← hproof, ← hseed]

/-- Two entries, the second appended to the first. -/
theorem verifyConsistency_complete_two_entries :
    ∃ firstRootHex secondRootHex proofHex,
      merkleRoot Hash.sha256 ["00"] = some firstRootHex ∧
        merkleRoot Hash.sha256 ["00", "01"] = some secondRootHex ∧
        consistencyProof Hash.sha256 ["00", "01"] 1 2 = .ok proofHex ∧
        verifyConsistency Hash.sha256 firstRootHex secondRootHex 1 2 proofHex = .ok true :=
  @verifyConsistency_complete Hash.sha256 ["00", "01"] [[0], [1]] (by decide) 1 2
    (by norm_num) (by decide)

end ScittCose.Merkle
