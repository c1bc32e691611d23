import ScittCose.Merkle.Inclusion
import ScittCose.Lib.Sha256

/-!
# What a Merkle root commits to (`scitt_cose/merkle.py`)

Against the root of a tree of the claimed size the verifier of inclusion proofs accepts one path for
each leaf, the leaf's own (`verifyInclusion_exact`). It checks no node's length: the hash on the way
up has 32 octets on either side, so the cut between it and its sibling is forced.

A root determines the list of entries, its length included, unless the two computations exhibit a
collision (`eq_of_rootOf_eq`).
-/

namespace ScittCose.Merkle

section Source

variable (H : Hash)

/-- `verify_inclusion`; the error is the name of the exception. -/
def verifyInclusion (leafEntryHex : String) (index treeSize : ℤ) (auditPathHex : List String)
    (rootHex : String) : Except String Bool := do
  let computed ← rootFromInclusionProof H leafEntryHex index treeSize auditPathHex
  return computed.isSome && computed == some rootHex

/-- The entry claimed at an index decodes to the octets that stand there, and the path claimed decodes,
node by node, to the audit path of that index. -/
def IsInclusion (entriesHex : List String) (leafEntryHex : String) (index : ℤ)
    (auditPathHex : List String) : Prop :=
  0 ≤ index ∧ index < entriesHex.length ∧
    entriesHex[index.toNat]?.bind Octets.fromHex = Octets.fromHex leafEntryHex ∧
    ∃ proof, inclusionProof H entriesHex index = .ok proof ∧
      auditPathHex.mapM Octets.fromHex = proof.mapM Octets.fromHex

end Source

variable {H : Hash} {I : List Octets}

/-! ## Inclusion against a tree of the claimed size -/

/-- A fold that reaches the root of a tree of its own size starts from the leaf's entry and climbs the
leaf's own path, unless the run exhibits a collision. -/
theorem eq_path_of_fold (hI : ¬ H.Collision I) {D : List Octets} (hD : merkleRootInputs H D ⊆ I)
    {e : Octets} (he : leafInput e ∈ I) {siblings rest : List Octets} {m : ℕ} (hm : m < D.length)
    (hfold : foldInputs H (leafHashBytes H e) siblings D.length m ⊆ I)
    (h : fold H (leafHashBytes H e) siblings D.length m = some (rootOf H D, rest)) :
    D[m] = e ∧ siblings = (path H (D.map (leafHashBytes H)) m).reverse ++ rest := by
  induction siblings generalizing D m rest with
  | nil =>
      by_cases h1 : D.length = 1
      · rw [h1, fold_size_one, Option.some.injEq, Prod.mk.injEq] at h
        obtain rfl := eq_singleton_of_rootOf_eq_leaf hI hD he h.1.symm
        exact ⟨by simp, by simpa [path_singleton] using h.2⟩
      · rw [fold, if_neg h1] at h
        cases h
  | cons sibling siblings ih =>
      by_cases h1 : D.length = 1
      · rw [h1, fold_size_one, Option.some.injEq, Prod.mk.injEq] at h
        obtain rfl := eq_singleton_of_rootOf_eq_leaf hI hD he h.1.symm
        exact ⟨by simp, by simpa [path_singleton] using h.2⟩
      have h2 : 2 ≤ D.length := by omega
      have hlt := largestPow2Below_lt h2
      have hnode := nodeInput_mem_merkleRootInputs (H := H) h2
      have hl : (D.take (largestPow2Below D.length)).length = largestPow2Below D.length := by
        rw [List.length_take]; omega
      have hr : (D.drop (largestPow2Below D.length)).length =
          D.length - largestPow2Below D.length := List.length_drop
      rw [foldInputs, if_neg h1] at hfold
      dsimp only at hfold
      by_cases hk : m < largestPow2Below D.length
      · rw [if_pos hk] at hfold
        rw [fold_left h2 hk, Option.map_eq_some_iff] at h
        obtain ⟨⟨child, rest'⟩, hchild, h⟩ := h
        obtain ⟨hroot, rfl⟩ := Prod.mk.inj h
        -- the child stands first and has 32 octets
        rw [rootOf_split h2] at hroot
        have hin : nodeInput child sibling ∈ I := hfold (by simp [hchild])
        have heq := Hash.eq_of_digest_eq hI hin (hD hnode) hroot
        obtain ⟨rfl, rfl⟩ := nodeInput_inj heq
          (by rw [length_of_fold (length_leafHashBytes e) hchild, length_mth_map])
        have hchild' : fold H (leafHashBytes H e) siblings (D.take (largestPow2Below D.length)).length
            m = some (rootOf H (D.take (largestPow2Below D.length)), rest') := by rw [hl, hchild]
        obtain ⟨hentry, hpath⟩ := ih (merkleRootInputs_take_subset h2 hD) (by omega)
          (fun x hx => hfold (List.mem_append_right _ (by rwa [hl] at hx))) hchild'
        refine ⟨by simpa using hentry, ?_⟩
        rw [path_left (by simpa using h2) (by simpa using hk), List.length_map, ← List.map_take,
          ← List.map_drop, List.reverse_append, hpath]
        rfl
      · rw [if_neg hk] at hfold
        rw [fold_right h2 hk, Option.map_eq_some_iff] at h
        obtain ⟨⟨child, rest'⟩, hchild, h⟩ := h
        obtain ⟨hroot, rfl⟩ := Prod.mk.inj h
        -- the child stands last and has 32 octets
        rw [rootOf_split h2] at hroot
        have hin : nodeInput sibling child ∈ I := hfold (by simp [hchild])
        have heq := Hash.eq_of_digest_eq hI hin (hD hnode) hroot
        obtain ⟨rfl, rfl⟩ := List.append_inj' (List.cons.inj heq).2
          (by rw [length_of_fold (length_leafHashBytes e) hchild, length_mth_map])
        have hchild' : fold H (leafHashBytes H e) siblings (D.drop (largestPow2Below D.length)).length
            (m - largestPow2Below D.length) =
            some (rootOf H (D.drop (largestPow2Below D.length)), rest') := by rw [hr, hchild]
        obtain ⟨hentry, hpath⟩ := ih (merkleRootInputs_drop_subset h2 hD) (by omega)
          (fun x hx => hfold (List.mem_append_right _ (by rwa [hr] at hx))) hchild'
        have hmk : largestPow2Below D.length + (m - largestPow2Below D.length) = m := by omega
        refine ⟨by simpa [hmk] using hentry, ?_⟩
        rw [path_right (by simpa using h2) (by simpa using hk) (by simpa using hm), List.length_map,
          ← List.map_take, ← List.map_drop, List.reverse_append, hpath]
        rfl

/-- What `verify_inclusion` accepts: a path of the leaf's depth that folds the entry to the root. -/
theorem verifyInclusion_eq_ok_iff {leafEntryHex rootHex : String} {index treeSize : ℤ}
    {auditPathHex : List String} {leafEntry : Octets} {auditPath : List Octets}
    (hentry : Octets.fromHex leafEntryHex = some leafEntry)
    (hpath : auditPathHex.mapM Octets.fromHex = some auditPath) :
    verifyInclusion H leafEntryHex index treeSize auditPathHex rootHex = .ok true ↔
      0 ≤ index ∧ index < treeSize ∧ treeSize ≤ maxTreeSize ∧
        auditPath.length = (turns treeSize.toNat index.toNat).length ∧
        ∃ computed, fold H (leafHashBytes H leafEntry) auditPath.reverse treeSize.toNat index.toNat =
          some (computed, []) ∧ rootHex = Octets.toHex computed := by
  have hlen := Octets.length_of_mapM hpath
  rw [verifyInclusion, rootFromInclusionProof, expectedInclusionPathLen_eq, hentry, hpath, ← hlen]
  simp only [bind, Except.bind, pure, Except.pure]
  by_cases hrange : ¬ (0 ≤ index ∧ index < treeSize) ∨ maxTreeSize < treeSize
  · rw [if_pos hrange]
    constructor
    · intro h
      cases h
    · rintro ⟨h0, h1, h2, -⟩
      exact absurd hrange (by omega)
  rw [if_neg hrange]
  by_cases hdepth : auditPath.length = (turns treeSize.toNat index.toNat).length
  · rw [if_neg (by omega)]
    obtain ⟨computed, hfold⟩ : ∃ computed, fold H (leafHashBytes H leafEntry) auditPath.reverse
        treeSize.toNat index.toNat = some (computed, []) :=
      exists_fold_of_length (by omega) (by rw [List.length_reverse, hdepth])
    rw [hfold]
    simp only [Option.isSome_some, Bool.true_and, Except.ok.injEq, beq_iff_eq, Option.some.injEq]
    constructor
    · rintro rfl
      exact ⟨by omega, by omega, by omega, hdepth, computed, rfl, rfl⟩
    · rintro ⟨-, -, -, -, computed', heq, rfl⟩
      rw [(Prod.mk.inj heq).1]
  · rw [if_pos (by omega)]
    constructor
    · intro h
      cases h
    · rintro ⟨-, -, -, h, -⟩
      exact absurd h hdepth

/-- The honest inclusion claims, in octets. -/
theorem isInclusion_iff {entriesHex auditPathHex : List String} {leafEntryHex : String} {index : ℤ}
    {entries auditPath : List Octets} {leafEntry : Octets}
    (hD : entriesHex.mapM Octets.fromHex = some entries)
    (hentry : Octets.fromHex leafEntryHex = some leafEntry)
    (hpath : auditPathHex.mapM Octets.fromHex = some auditPath) :
    IsInclusion H entriesHex leafEntryHex index auditPathHex ↔
      0 ≤ index ∧ index < entriesHex.length ∧ entries[index.toNat]? = some leafEntry ∧
        auditPath = path H (entries.map (leafHashBytes H)) index.toNat := by
  rw [IsInclusion, Octets.getElem?_bind_of_mapM hD, hentry, hpath]
  refine and_congr_right fun h0 => and_congr_right fun h1 => and_congr_right fun _ => ?_
  rw [inclusionProof, if_neg (by omega), hD]
  simp only [Except.ok.injEq, exists_eq_left', Octets.mapM_fromHex_toHex, Option.some.injEq]

/-- `verify_inclusion` is exact against the root of a list of entries and its own length: an honest
claim is accepted, and what is accepted is an honest claim, unless the run exhibits a collision. -/
theorem verifyInclusion_exact {entriesHex : List String} {entries : List Octets}
    (hD : entriesHex.mapM Octets.fromHex = some entries) (hsize : entriesHex.length ≤ maxTreeSize)
    {rootHex : String} (hroot : merkleRoot H entriesHex = some rootHex) (index : ℤ)
    {leafEntryHex : String} {leafEntry : Octets}
    (hentry : Octets.fromHex leafEntryHex = some leafEntry) {auditPathHex : List String}
    {auditPath : List Octets} (hpath : auditPathHex.mapM Octets.fromHex = some auditPath) :
    (IsInclusion H entriesHex leafEntryHex index auditPathHex →
        verifyInclusion H leafEntryHex index entriesHex.length auditPathHex rootHex = .ok true) ∧
      (verifyInclusion H leafEntryHex index entriesHex.length auditPathHex rootHex = .ok true →
        IsInclusion H entriesHex leafEntryHex index auditPathHex ∨
          H.Collision (merkleRootInputs H entries ++
            rootInputs H leafEntry index.toNat entriesHex.length auditPath)) := by
  obtain ⟨_, hD', rfl⟩ := merkleRoot_eq_some_iff.mp hroot
  obtain rfl := Option.some.inj (hD.symm.trans hD')
  have hlen := Octets.length_of_mapM hD
  rw [isInclusion_iff hD hentry hpath, verifyInclusion_eq_ok_iff hentry hpath, Int.toNat_natCast,
    ← hlen]
  constructor
  · -- an honest claim
    rintro ⟨h0, h1, hget, rfl⟩
    obtain ⟨hm, rfl⟩ := List.getElem?_eq_some_iff.mp hget
    have hm' : index.toNat < (entries.map (leafHashBytes H)).length := by simpa using hm
    have hfold := fold_path (H := H) hm'
    simp only [List.getElem_map, List.length_map] at hfold
    refine ⟨h0, h1, by omega, ?_, _, hfold, rfl⟩
    rw [length_path hm', List.length_map]
  · rintro ⟨h0, h1, -, -, computed, hfold, hcomputed⟩
    rw [Octets.toHex_inj] at hcomputed
    subst hcomputed
    by_cases hI : H.Collision (merkleRootInputs H entries ++
        rootInputs H leafEntry index.toNat entries.length auditPath)
    · exact .inr hI
    have hm : index.toNat < entries.length := by omega
    obtain ⟨rfl, hreverse⟩ := eq_path_of_fold hI (List.subset_append_left _ _)
      (List.mem_append_right _ List.mem_cons_self) hm
      (fun x hx => List.mem_append_right _ (List.mem_cons_of_mem _ hx)) hfold
    rw [List.append_nil, List.reverse_inj] at hreverse
    exact .inl ⟨h0, h1, List.getElem?_eq_getElem hm, hreverse⟩

set_option maxRecDepth 100000 in
/-- The second of two entries. -/
theorem verifyInclusion_exact_two_entries :
    verifyInclusion Hash.sha256 "01" 1 2
        ["96a296d224f285c67bee93c30f8a309157f0daa35dc5b87e410b78630a09cfc7"]
        "a20bf9a7cc2dc8a08f5f415a71b19f6ac427bab54d24eec868b5d3103449953a" = .ok true :=
  (@verifyInclusion_exact Hash.sha256 ["00", "01"] [[0], [1]] (by decide) (by decide)
    "a20bf9a7cc2dc8a08f5f415a71b19f6ac427bab54d24eec868b5d3103449953a" (by decide +kernel) 1
    "01" [1] (by decide) ["96a296d224f285c67bee93c30f8a309157f0daa35dc5b87e410b78630a09cfc7"]
    [leafHashBytes Hash.sha256 [0]] (by decide +kernel)).1
    ⟨by decide, by decide, by decide,
      ["96a296d224f285c67bee93c30f8a309157f0daa35dc5b87e410b78630a09cfc7"], by decide +kernel, rfl⟩

/-! ## Roots of any two lists -/

/-- A root determines the entries, their order and their number, unless the two computations exhibit a
collision. -/
theorem eq_of_rootOf_eq (hI : ¬ H.Collision I) {D E : List Octets} (hD : merkleRootInputs H D ⊆ I)
    (hE : merkleRootInputs H E ⊆ I) (h : rootOf H D = rootOf H E) : D = E := by
  induction D using splitInduction generalizing E with
  | nil =>
      match E, hE, h with
      | [], _, _ => rfl
      | [e], hE, h =>
          have he : leafInput e ∈ merkleRootInputs H [e] := by simp [merkleRootInputs]
          exact eq_singleton_of_rootOf_eq_leaf hI hD (hE he) h
      | e :: e' :: E, hE, h =>
          rw [rootOf_split (D := e :: e' :: E) (by simp)] at h
          have hin := nodeInput_mem_merkleRootInputs (H := H) (D := e :: e' :: E) (by simp)
          obtain ⟨h2, -⟩ := split_of_rootOf_eq_node hI hD (hE hin) (length_mth_map _) h
          exact absurd h2 (by simp)
  | single d =>
      have hd : leafInput d ∈ merkleRootInputs H [d] := by simp [merkleRootInputs]
      exact (eq_singleton_of_rootOf_eq_leaf hI hE (hD hd) h.symm).symm
  | split D h2 ihl ihr =>
      rw [rootOf_split h2] at h
      obtain ⟨hE2, hl, hr⟩ := split_of_rootOf_eq_node hI hE (hD (nodeInput_mem_merkleRootInputs h2))
        (length_mth_map _) h.symm
      have htake := ihl (merkleRootInputs_take_subset h2 hD) (merkleRootInputs_take_subset hE2 hE) hl
      have hdrop := ihr (merkleRootInputs_drop_subset h2 hD) (merkleRootInputs_drop_subset hE2 hE) hr
      calc D = D.take (largestPow2Below D.length) ++ D.drop (largestPow2Below D.length) :=
            (List.take_append_drop _ _).symm
        _ = E.take (largestPow2Below E.length) ++ E.drop (largestPow2Below E.length) := by
            rw [htake, hdrop]
        _ = E := List.take_append_drop _ _

end ScittCose.Merkle
