import ScittCose.Merkle.Basic

/-!
# RFC 6962 inclusion proofs (`scitt_cose/merkle.py`)

The audit path of a leaf and the fold of a leaf up a path. `turns size m` is the descent to leaf `m`
of a tree of `size` leaves, outermost step first; the fold turns the same way as it consumes the
path from its outermost node.

`fold_path` is completeness. `exists_index_of_fold` is soundness against a tree of any other
size: a fold that reaches the root of a tree folds one of its entries up that entry's own path, with
the tree's own turns, unless the run exhibits a collision.
-/

namespace ScittCose.Merkle

/-- `MAX_TREE_SIZE`. -/
def maxTreeSize : ℤ := 2 ^ 62

section Source

variable (H : Hash)

/-- The inner `path` of `inclusion_proof`, with the number of leaves as fuel. -/
def pathFuel : ℕ → List Octets → ℕ → List Octets
  | 0, _, _ => []
  | fuel + 1, sub, m =>
    if sub.length = 1 then []
    else
      let k := largestPow2Below sub.length
      if m < k then pathFuel fuel (sub.take k) m ++ [mth H (sub.drop k)]
      else pathFuel fuel (sub.drop k) (m - k) ++ [mth H (sub.take k)]

/-- The inner `path` of `inclusion_proof`. -/
def path (sub : List Octets) (m : ℕ) : List Octets := pathFuel H sub.length sub m

/-- `inclusion_proof`; the error is the name of the exception. -/
def inclusionProof (entriesHex : List String) (index : ℤ) : Except String (List String) :=
  if ¬ (0 ≤ index ∧ index < entriesHex.length) then .error "IndexError"
  else
    match entriesHex.mapM Octets.fromHex with
    | none => .error "ValueError"
    | some entries => .ok ((path H (entries.map (leafHashBytes H)) index.toNat).map Octets.toHex)

/-- The loop of `_expected_inclusion_path_len`; `fuel` bounds its rounds. -/
def pathLenFrom : ℕ → ℕ → ℕ → ℕ → ℕ
  | 0, _, _, n => n
  | fuel + 1, size, m, n =>
    if 1 < size then
      let k := largestPow2Below size
      if m < k then pathLenFrom fuel k m (n + 1) else pathLenFrom fuel (size - k) (m - k) (n + 1)
    else n

/-- `_expected_inclusion_path_len`. Each round makes `size` smaller, so `treeSize` rounds are
enough. -/
def expectedInclusionPathLen (treeSize index : ℕ) : ℕ := pathLenFrom treeSize treeSize index 0

/-- The inner `fold` of `root_from_inclusion_proof`. The siblings stand outermost first, the order in
which the source pops them; the result carries those left over. -/
def fold (target : Octets) : List Octets → ℕ → ℕ → Option (Octets × List Octets)
  | [], size, _ => if size = 1 then some (target, []) else none
  | sibling :: siblings, size, m =>
    if size = 1 then some (target, sibling :: siblings)
    else
      let k := largestPow2Below size
      if m < k then
        (fold target siblings k m).map fun (child, rest) => (nodeHash H child sibling, rest)
      else
        (fold target siblings (size - k) (m - k)).map fun (child, rest) =>
          (nodeHash H sibling child, rest)

/-- `root_from_inclusion_proof`; the error is the name of the exception. -/
def rootFromInclusionProof (leafEntryHex : String) (index treeSize : ℤ)
    (auditPathHex : List String) : Except String (Option String) :=
  if ¬ (0 ≤ index ∧ index < treeSize) ∨ maxTreeSize < treeSize then .ok none
  else if auditPathHex.length ≠ expectedInclusionPathLen treeSize.toNat index.toNat then .ok none
  else
    match Octets.fromHex leafEntryHex with
    | none => .error "ValueError"
    | some leafEntry =>
      -- the source decodes a sibling when it pops it; a path of the expected length is popped whole
      match auditPathHex.mapM Octets.fromHex with
      | none => .error "ValueError"
      | some auditPath =>
        match fold H (leafHashBytes H leafEntry) auditPath.reverse treeSize.toNat index.toNat with
        | some (computed, []) => .ok (some (Octets.toHex computed))
        | _ => .ok none

/-- A root is reported in hexadecimal text. -/
theorem exists_toHex_of_root {leafEntryHex root : String} {index treeSize : ℤ}
    {auditPathHex : List String}
    (h : rootFromInclusionProof H leafEntryHex index treeSize auditPathHex = .ok (some root)) :
    ∃ computed, root = Octets.toHex computed := by
  rw [rootFromInclusionProof] at h
  split_ifs at h
  · cases h
  · cases h
  · split at h
    · cases h
    split at h
    · cases h
    split at h
    · next computed _ =>
        cases h
        exact ⟨computed, rfl⟩
    · cases h

/-- What `fold` hashes. -/
def foldInputs (target : Octets) : List Octets → ℕ → ℕ → List Octets
  | [], _, _ => []
  | sibling :: siblings, size, m =>
    if size = 1 then []
    else
      let k := largestPow2Below size
      if m < k then
        (((fold H target siblings k m).map fun (child, _) => nodeInput child sibling).toList) ++
          foldInputs target siblings k m
      else
        (((fold H target siblings (size - k) (m - k)).map fun (child, _) =>
          nodeInput sibling child).toList) ++ foldInputs target siblings (size - k) (m - k)

/-- What `root_from_inclusion_proof` hashes once its checks have passed. -/
def rootInputs (leafEntry : Octets) (index treeSize : ℕ) (auditPath : List Octets) :
    List Octets :=
  leafInput leafEntry :: foldInputs H (leafHashBytes H leafEntry) auditPath.reverse treeSize index

end Source

/-! ## Turns -/

/-- The descent to leaf `m` of a tree of `size` leaves, outermost first: `false` is the left part,
`true` the right. -/
def turns (size m : ℕ) : List Bool :=
  if _h : 2 ≤ size then
    if m < largestPow2Below size then false :: turns (largestPow2Below size) m
    else true :: turns (size - largestPow2Below size) (m - largestPow2Below size)
  else []
termination_by size
decreasing_by
  · exact largestPow2Below_lt _h
  · have := largestPow2Below_pos size
    omega

theorem turns_of_lt_two {size m : ℕ} (h : size < 2) : turns size m = [] := by
  rw [turns, dif_neg (by omega)]

theorem turns_left {size m : ℕ} (h : 2 ≤ size) (hm : m < largestPow2Below size) :
    turns size m = false :: turns (largestPow2Below size) m := by
  rw [turns, dif_pos h, if_pos hm]

theorem turns_right {size m : ℕ} (h : 2 ≤ size) (hm : ¬ m < largestPow2Below size) :
    turns size m = true :: turns (size - largestPow2Below size) (m - largestPow2Below size) := by
  rw [turns, dif_pos h, if_neg hm]

/-- In a tree of one size the turns name the leaf. -/
theorem turns_inj {size m m' : ℕ} (hm : m < size) (hm' : m' < size)
    (h : turns size m = turns size m') : m = m' := by
  induction size using Nat.strong_induction_on generalizing m m' with
  | _ size ih =>
      by_cases h2 : 2 ≤ size
      · have hlt := largestPow2Below_lt h2
        have hpos := largestPow2Below_pos size
        by_cases hk : m < largestPow2Below size <;> by_cases hk' : m' < largestPow2Below size
        · rw [turns_left h2 hk, turns_left h2 hk'] at h
          exact ih _ hlt hk hk' (List.cons.inj h).2
        · rw [turns_left h2 hk, turns_right h2 hk'] at h
          cases (List.cons.inj h).1
        · rw [turns_right h2 hk, turns_left h2 hk'] at h
          cases (List.cons.inj h).1
        · rw [turns_right h2 hk, turns_right h2 hk'] at h
          have := ih _ (by omega) (by omega) (by omega) (List.cons.inj h).2
          omega
      · omega

theorem pathLenFrom_eq {fuel size m n : ℕ} (h : size ≤ fuel) :
    pathLenFrom fuel size m n = n + (turns size m).length := by
  induction fuel generalizing size m n with
  | zero => rw [pathLenFrom, turns_of_lt_two (by omega)]; rfl
  | succ fuel ih =>
      rw [pathLenFrom]
      split_ifs with h1
      · have hlt := largestPow2Below_lt h1
        have hpos := largestPow2Below_pos size
        dsimp only
        split_ifs with hk
        · rw [ih (by omega), turns_left h1 hk, List.length_cons]
          omega
        · rw [ih (by omega), turns_right h1 hk, List.length_cons]
          omega
      · rw [turns_of_lt_two (by omega)]
        rfl

/-- The expected path length is the depth of the leaf. -/
theorem expectedInclusionPathLen_eq (treeSize index : ℕ) :
    expectedInclusionPathLen treeSize index = (turns treeSize index).length := by
  rw [expectedInclusionPathLen, pathLenFrom_eq le_rfl, Nat.zero_add]

/-- A tree of at most `2 ^ e` leaves is at most `e` levels deep. -/
theorem length_turns_le {size m e : ℕ} (hm : m < size) (h : size ≤ 2 ^ e) :
    (turns size m).length ≤ e := by
  induction e generalizing size m with
  | zero => rw [turns_of_lt_two (by simpa using Nat.lt_succ_of_le h)]; rfl
  | succ e ih =>
      by_cases h2 : 2 ≤ size
      · obtain ⟨t, ht, hlt, hle⟩ := largestPow2Below_spec h2
        have hte : t ≤ e := by
          have := (Nat.pow_lt_pow_iff_right (a := 2) (by norm_num)).mp (hlt.trans_le h)
          omega
        have hpow : 2 ^ t ≤ 2 ^ e := Nat.pow_le_pow_right (by norm_num) hte
        rw [pow_succ] at hle
        by_cases hk : m < largestPow2Below size
        · rw [turns_left h2 hk, List.length_cons]
          exact Nat.succ_le_succ (ih hk (by omega))
        · rw [turns_right h2 hk, List.length_cons]
          exact Nat.succ_le_succ (ih (by omega) (by omega))
      · rw [turns_of_lt_two (by omega)]
        simp

variable {H : Hash}

/-! ## The audit path of a leaf -/

theorem pathFuel_eq_path {fuel : ℕ} {L : List Octets} {m : ℕ} (hm : m < L.length)
    (h : L.length ≤ fuel) : pathFuel H fuel L m = path H L m := by
  rw [path]
  generalize hg : L.length = g at hm h ⊢
  induction g using Nat.strong_induction_on generalizing fuel L m with
  | _ g ih =>
      subst hg
      obtain ⟨fuel, rfl⟩ : ∃ f, fuel = f + 1 := ⟨fuel - 1, by omega⟩
      obtain ⟨n, hn⟩ : ∃ n, L.length = n + 1 := ⟨L.length - 1, by omega⟩
      conv_rhs => rw [hn]
      rw [pathFuel, pathFuel]
      by_cases h1 : L.length = 1
      · rw [if_pos h1, if_pos h1]
      rw [if_neg h1, if_neg h1]
      have h2 : 2 ≤ L.length := by omega
      have hlt := largestPow2Below_lt h2
      have hpos := largestPow2Below_pos L.length
      have hl : (L.take (largestPow2Below L.length)).length = largestPow2Below L.length := by
        rw [List.length_take]; omega
      have hr : (L.drop (largestPow2Below L.length)).length =
          L.length - largestPow2Below L.length := List.length_drop
      dsimp only
      split_ifs with hk
      · rw [ih _ hlt hl hk (by omega), ← ih _ hlt hl hk (show _ ≤ n by omega)]
      · rw [ih _ (by omega) hr (by omega) (by omega),
          ← ih _ (by omega) hr (by omega) (show _ ≤ n by omega)]

theorem path_singleton (x : Octets) (m : ℕ) : path H [x] m = [] := rfl

theorem path_left {L : List Octets} {m : ℕ} (h : 2 ≤ L.length) (hm : m < largestPow2Below L.length) :
    path H L m = path H (L.take (largestPow2Below L.length)) m ++
      [mth H (L.drop (largestPow2Below L.length))] := by
  have hlt := largestPow2Below_lt h
  obtain ⟨n, hn⟩ : ∃ n, L.length = n + 1 := ⟨L.length - 1, by omega⟩
  have hl : (L.take (largestPow2Below L.length)).length = largestPow2Below L.length := by
    rw [List.length_take]; omega
  conv_lhs => rw [path, hn, pathFuel, if_neg (by omega)]
  dsimp only
  rw [if_pos hm, pathFuel_eq_path (by omega) (by omega)]

theorem path_right {L : List Octets} {m : ℕ} (h : 2 ≤ L.length)
    (hm : ¬ m < largestPow2Below L.length) (hlen : m < L.length) :
    path H L m = path H (L.drop (largestPow2Below L.length)) (m - largestPow2Below L.length) ++
      [mth H (L.take (largestPow2Below L.length))] := by
  have hpos := largestPow2Below_pos L.length
  obtain ⟨n, hn⟩ : ∃ n, L.length = n + 1 := ⟨L.length - 1, by omega⟩
  have hr : (L.drop (largestPow2Below L.length)).length =
      L.length - largestPow2Below L.length := List.length_drop
  conv_lhs => rw [path, hn, pathFuel, if_neg (by omega)]
  dsimp only
  rw [if_neg hm, pathFuel_eq_path (by omega) (by omega)]

theorem length_path {L : List Octets} {m : ℕ} (hm : m < L.length) :
    (path H L m).length = (turns L.length m).length := by
  generalize hg : L.length = g at hm ⊢
  induction g using Nat.strong_induction_on generalizing L m with
  | _ g ih =>
      subst hg
      by_cases h2 : 2 ≤ L.length
      · have hlt := largestPow2Below_lt h2
        have hpos := largestPow2Below_pos L.length
        have hl : (L.take (largestPow2Below L.length)).length = largestPow2Below L.length := by
          rw [List.length_take]; omega
        have hr : (L.drop (largestPow2Below L.length)).length =
            L.length - largestPow2Below L.length := List.length_drop
        by_cases hk : m < largestPow2Below L.length
        · rw [path_left h2 hk, turns_left h2 hk, List.length_append, List.length_singleton,
            ih _ hlt hl hk, List.length_cons]
        · rw [path_right h2 hk hm, turns_right h2 hk, List.length_append, List.length_singleton,
            ih _ (by omega) hr (by omega), List.length_cons]
      · obtain ⟨x, rfl⟩ := List.length_eq_one_iff.mp (show L.length = 1 by omega)
        rw [path_singleton, turns_of_lt_two (by simp)]
        rfl

/-- Every node of an audit path is a hash. -/
theorem length_of_mem_path {L : List Octets} (h : ∀ x ∈ L, x.length = 32) {m : ℕ}
    (hm : m < L.length) {node : Octets} (hnode : node ∈ path H L m) : node.length = 32 := by
  generalize hg : L.length = g at hm
  induction g using Nat.strong_induction_on generalizing L m with
  | _ g ih =>
      subst hg
      by_cases h2 : 2 ≤ L.length
      · have hlt := largestPow2Below_lt h2
        have hpos := largestPow2Below_pos L.length
        have hl : (L.take (largestPow2Below L.length)).length = largestPow2Below L.length := by
          rw [List.length_take]; omega
        have hr : (L.drop (largestPow2Below L.length)).length =
            L.length - largestPow2Below L.length := List.length_drop
        have htake : ∀ x ∈ L.take (largestPow2Below L.length), x.length = 32 :=
          fun x hx => h x (List.mem_of_mem_take hx)
        have hdrop : ∀ x ∈ L.drop (largestPow2Below L.length), x.length = 32 :=
          fun x hx => h x (List.mem_of_mem_drop hx)
        by_cases hk : m < largestPow2Below L.length
        · rw [path_left h2 hk, List.mem_append, List.mem_singleton] at hnode
          obtain hnode | rfl := hnode
          · exact ih _ hlt htake hnode hl hk
          · exact length_mth hdrop
        · rw [path_right h2 hk hm, List.mem_append, List.mem_singleton] at hnode
          obtain hnode | rfl := hnode
          · exact ih _ (by omega) hdrop hnode hr (by omega)
          · exact length_mth htake
      · obtain ⟨x, rfl⟩ := List.length_eq_one_iff.mp (show L.length = 1 by omega)
        rw [path_singleton] at hnode
        cases hnode

/-! ## The fold -/

theorem fold_size_one (target : Octets) (siblings : List Octets) (m : ℕ) :
    fold H target siblings 1 m = some (target, siblings) := by
  cases siblings <;> simp [fold]

theorem fold_left {target sibling : Octets} {siblings : List Octets} {size m : ℕ} (h : 2 ≤ size)
    (hm : m < largestPow2Below size) :
    fold H target (sibling :: siblings) size m =
      (fold H target siblings (largestPow2Below size) m).map fun (child, rest) =>
        (nodeHash H child sibling, rest) := by
  rw [fold, if_neg (by omega)]
  exact if_pos hm

theorem fold_right {target sibling : Octets} {siblings : List Octets} {size m : ℕ} (h : 2 ≤ size)
    (hm : ¬ m < largestPow2Below size) :
    fold H target (sibling :: siblings) size m =
      (fold H target siblings (size - largestPow2Below size) (m - largestPow2Below size)).map
        fun (child, rest) => (nodeHash H sibling child, rest) := by
  rw [fold, if_neg (by omega)]
  exact if_neg hm

/-- Completeness: a leaf folded up its own audit path gives the root. -/
theorem fold_path {L : List Octets} {m : ℕ} (hm : m < L.length) :
    fold H L[m] (path H L m).reverse L.length m = some (mth H L, []) := by
  generalize hg : L.length = g
  induction g using Nat.strong_induction_on generalizing L m with
  | _ g ih =>
      subst hg
      by_cases h2 : 2 ≤ L.length
      · have hlt := largestPow2Below_lt h2
        have hpos := largestPow2Below_pos L.length
        have hl : (L.take (largestPow2Below L.length)).length = largestPow2Below L.length := by
          rw [List.length_take]; omega
        have hr : (L.drop (largestPow2Below L.length)).length =
            L.length - largestPow2Below L.length := List.length_drop
        by_cases hk : m < largestPow2Below L.length
        · have hsub := @ih _ hlt (L.take (largestPow2Below L.length)) m (by omega) hl
          rw [List.getElem_take] at hsub
          rw [path_left h2 hk, List.reverse_append, List.reverse_singleton, List.singleton_append,
            fold_left h2 hk, hsub, mth_split h2]
          rfl
        · have hsub := @ih _ (by omega) (L.drop (largestPow2Below L.length))
            (m - largestPow2Below L.length) (by omega) hr
          have hget : (L.drop (largestPow2Below L.length))[m - largestPow2Below L.length] = L[m] := by
            rw [List.getElem_drop]
            congr 1
            omega
          rw [hget] at hsub
          rw [path_right h2 hk hm, List.reverse_append, List.reverse_singleton,
            List.singleton_append, fold_right h2 hk, hsub, mth_split h2]
          rfl
      · obtain ⟨x, rfl⟩ := List.length_eq_one_iff.mp (show L.length = 1 by omega)
        obtain rfl : m = 0 := by simpa using hm
        exact fold_size_one x [] 0

/-- A path of the leaf's depth is consumed whole. -/
theorem exists_fold_of_length {target : Octets} {siblings : List Octets} {size m : ℕ}
    (hm : m < size) (h : siblings.length = (turns size m).length) :
    ∃ root, fold H target siblings size m = some (root, []) := by
  induction siblings generalizing size m with
  | nil =>
      by_cases h2 : 2 ≤ size
      · by_cases hk : m < largestPow2Below size
        · rw [turns_left h2 hk] at h
          cases h
        · rw [turns_right h2 hk] at h
          cases h
      · obtain rfl : size = 1 := by omega
        exact ⟨target, fold_size_one target [] m⟩
  | cons sibling siblings ih =>
      by_cases h2 : 2 ≤ size
      · have hlt := largestPow2Below_lt h2
        by_cases hk : m < largestPow2Below size
        · rw [turns_left h2 hk, List.length_cons, List.length_cons] at h
          obtain ⟨child, hchild⟩ := ih hk (by omega)
          exact ⟨nodeHash H child sibling, by rw [fold_left h2 hk, hchild]; rfl⟩
        · rw [turns_right h2 hk, List.length_cons, List.length_cons] at h
          have hmem : m - largestPow2Below size < size - largestPow2Below size := by omega
          obtain ⟨child, hchild⟩ := ih hmem (by omega)
          exact ⟨nodeHash H sibling child, by rw [fold_right h2 hk, hchild]; rfl⟩
      · rw [turns_of_lt_two (by omega)] at h
        cases h

theorem length_of_fold {target computed : Octets} {siblings rest : List Octets} {size m : ℕ}
    (ht : target.length = 32) (h : fold H target siblings size m = some (computed, rest)) :
    computed.length = 32 := by
  induction siblings generalizing size m computed rest with
  | nil =>
      rw [fold] at h
      split_ifs at h
      simp only [Option.some.injEq, Prod.mk.injEq] at h
      rw [← h.1, ht]
  | cons sibling siblings ih =>
      rw [fold] at h
      dsimp only at h
      split_ifs at h
      · simp only [Option.some.injEq, Prod.mk.injEq] at h
        rw [← h.1, ht]
      all_goals
        rw [Option.map_eq_some_iff] at h
        obtain ⟨⟨child, rest'⟩, -, h⟩ := h
        simp only [Prod.mk.injEq] at h
        rw [← h.1, length_nodeHash]

/-! ## Soundness against a tree of any size -/

section Soundness

variable {I : List Octets}

theorem merkleRootInputs_take_subset {D : List Octets} (h2 : 2 ≤ D.length)
    (hD : merkleRootInputs H D ⊆ I) : merkleRootInputs H (D.take (largestPow2Below D.length)) ⊆ I := by
  intro x hx
  apply hD
  simp only [merkleRootInputs, List.mem_append] at hx ⊢
  obtain hx | hx := hx
  · obtain ⟨d, hd, rfl⟩ := List.mem_map.mp hx
    exact .inl (List.mem_map_of_mem (List.mem_of_mem_take hd))
  · refine .inr ?_
    rw [mthInputs_split (by simpa using h2), List.length_map, ← List.map_take]
    exact List.mem_cons_of_mem _ (List.mem_append_left _ hx)

theorem merkleRootInputs_drop_subset {D : List Octets} (h2 : 2 ≤ D.length)
    (hD : merkleRootInputs H D ⊆ I) : merkleRootInputs H (D.drop (largestPow2Below D.length)) ⊆ I := by
  intro x hx
  apply hD
  simp only [merkleRootInputs, List.mem_append] at hx ⊢
  obtain hx | hx := hx
  · obtain ⟨d, hd, rfl⟩ := List.mem_map.mp hx
    exact .inl (List.mem_map_of_mem (List.mem_of_mem_drop hd))
  · refine .inr ?_
    rw [mthInputs_split (by simpa using h2), List.length_map, ← List.map_drop]
    exact List.mem_cons_of_mem _ (List.mem_append_right _ hx)

/-- The root over a list of entries. -/
abbrev rootOf (H : Hash) (D : List Octets) : Octets := mth H (D.map (leafHashBytes H))

theorem rootOf_split {D : List Octets} (h2 : 2 ≤ D.length) :
    rootOf H D = nodeHash H (rootOf H (D.take (largestPow2Below D.length)))
      (rootOf H (D.drop (largestPow2Below D.length))) := by
  rw [rootOf, mth_split (by simpa using h2), List.length_map, ← List.map_take, ← List.map_drop]

theorem nodeInput_mem_merkleRootInputs {D : List Octets} (h2 : 2 ≤ D.length) :
    nodeInput (rootOf H (D.take (largestPow2Below D.length)))
      (rootOf H (D.drop (largestPow2Below D.length))) ∈ merkleRootInputs H D := by
  rw [merkleRootInputs, mthInputs_split (by simpa using h2), List.length_map, ← List.map_take,
    ← List.map_drop]
  exact List.mem_append_right _ List.mem_cons_self

/-- A root that is a leaf hash is the root of that one leaf. -/
theorem eq_singleton_of_rootOf_eq_leaf (hI : ¬ H.Collision I) {D : List Octets}
    (hD : merkleRootInputs H D ⊆ I) {e : Octets} (he : leafInput e ∈ I)
    (h : rootOf H D = leafHashBytes H e) : D = [e] := by
  match D, hD, h with
  | [], hD, h =>
      have := Hash.eq_of_digest_eq hI (hD (by simp [merkleRootInputs, mthInputs, mthInputsFuel])) he h
      cases this
  | [d], hD, h =>
      have := Hash.eq_of_digest_eq hI (hD (by simp [merkleRootInputs])) he h
      rw [leafInput_inj this]
  | d :: d' :: D, hD, h =>
      rw [rootOf_split (by simp)] at h
      have hin := nodeInput_mem_merkleRootInputs (H := H) (D := d :: d' :: D) (by simp)
      exact absurd (Hash.eq_of_digest_eq hI (hD hin) he h).symm (leafInput_ne_nodeInput _ _ _)

/-- A root that is an interior hash is the root of two or more entries, and its children are theirs. -/
theorem split_of_rootOf_eq_node (hI : ¬ H.Collision I) {D : List Octets}
    (hD : merkleRootInputs H D ⊆ I) {l r : Octets} (hin : nodeInput l r ∈ I) (hl : l.length = 32)
    (h : rootOf H D = nodeHash H l r) :
    2 ≤ D.length ∧ l = rootOf H (D.take (largestPow2Below D.length)) ∧
      r = rootOf H (D.drop (largestPow2Below D.length)) := by
  match D, hD, h with
  | [], hD, h =>
      have := Hash.eq_of_digest_eq hI (hD (by simp [merkleRootInputs, mthInputs, mthInputsFuel])) hin h
      cases this
  | [d], hD, h =>
      have := Hash.eq_of_digest_eq hI (hD (show leafInput d ∈ merkleRootInputs H [d] by simp [merkleRootInputs])) hin h
      exact absurd this (leafInput_ne_nodeInput _ _ _)
  | d :: d' :: D, hD, h =>
      rw [rootOf_split (by simp)] at h
      have hmem := nodeInput_mem_merkleRootInputs (H := H) (D := d :: d' :: D) (by simp)
      have := Hash.eq_of_digest_eq hI (hD hmem) hin h
      obtain ⟨rfl, rfl⟩ := nodeInput_inj this (by rw [hl]; exact length_mth_map _)
      exact ⟨by simp, rfl, rfl⟩

/-- Soundness: whatever size, index and path are claimed, a fold that reaches the root over `D` folds
an entry of `D` up its own audit path with its own turns. -/
theorem exists_index_of_fold (hI : ¬ H.Collision I) {D : List Octets}
    (hD : merkleRootInputs H D ⊆ I) {e : Octets} (he : leafInput e ∈ I) {siblings rest : List Octets}
    {size m : ℕ} (hm : m < size) (h32 : ∀ s ∈ siblings, s.length = 32)
    (hfold : foldInputs H (leafHashBytes H e) siblings size m ⊆ I)
    (h : fold H (leafHashBytes H e) siblings size m = some (rootOf H D, rest)) :
    ∃ j, ∃ hj : j < D.length, D[j] = e ∧
      siblings = (path H (D.map (leafHashBytes H)) j).reverse ++ rest ∧
      turns size m = turns D.length j := by
  -- the base case: a tree of one leaf is claimed
  have base : ∀ {siblings rest : List Octets} {D : List Octets} {m : ℕ},
      merkleRootInputs H D ⊆ I →
      fold H (leafHashBytes H e) siblings 1 m = some (rootOf H D, rest) →
      ∃ j, ∃ hj : j < D.length, D[j] = e ∧
        siblings = (path H (D.map (leafHashBytes H)) j).reverse ++ rest ∧
        turns 1 m = turns D.length j := by
    intro siblings rest D m hD h
    rw [fold_size_one, Option.some.injEq, Prod.mk.injEq] at h
    obtain rfl := eq_singleton_of_rootOf_eq_leaf hI hD he h.1.symm
    exact ⟨0, by simp, rfl, by simp [path_singleton, h.2], by simp [turns_of_lt_two]⟩
  induction siblings generalizing size m D rest with
  | nil =>
      by_cases h1 : size = 1
      · subst h1
        exact base hD h
      · rw [fold, if_neg h1] at h
        cases h
  | cons sibling siblings ih =>
      by_cases h1 : size = 1
      · subst h1
        exact base hD h
      have h2 : 2 ≤ size := by omega
      have hlt := largestPow2Below_lt h2
      have h32' : ∀ s ∈ siblings, s.length = 32 := fun s hs => h32 s (by simp [hs])
      rw [foldInputs, if_neg h1] at hfold
      dsimp only at hfold
      by_cases hk : m < largestPow2Below size
      · rw [if_pos hk] at hfold
        rw [fold_left h2 hk, Option.map_eq_some_iff] at h
        obtain ⟨⟨child, rest'⟩, hchild, h⟩ := h
        obtain ⟨hroot, rfl⟩ := Prod.mk.inj h
        have hin : nodeInput child sibling ∈ I := hfold (by simp [hchild])
        obtain ⟨hD2, rfl, rfl⟩ := split_of_rootOf_eq_node hI hD hin
          (length_of_fold (length_leafHashBytes e) hchild) hroot.symm
        obtain ⟨j, hj, hje, hpath, hturns⟩ := ih (merkleRootInputs_take_subset hD2 hD) hk h32'
          (fun x hx => hfold (List.mem_append_right _ hx)) hchild
        rw [List.length_take] at hj hturns
        have hjk : j < largestPow2Below D.length := by omega
        have hlt' := largestPow2Below_lt hD2
        rw [Nat.min_eq_left hlt'.le] at hturns
        refine ⟨j, by omega, by simpa using hje, ?_, ?_⟩
        · rw [path_left (by simpa using hD2) (by simpa using hjk), List.length_map,
            ← List.map_take, ← List.map_drop, hpath, List.reverse_append]
          rfl
        · rw [turns_left h2 hk, turns_left hD2 hjk, hturns]
      · rw [if_neg hk] at hfold
        rw [fold_right h2 hk, Option.map_eq_some_iff] at h
        obtain ⟨⟨child, rest'⟩, hchild, h⟩ := h
        obtain ⟨hroot, rfl⟩ := Prod.mk.inj h
        have hin : nodeInput sibling child ∈ I := hfold (by simp [hchild])
        obtain ⟨hD2, rfl, rfl⟩ := split_of_rootOf_eq_node hI hD hin (h32 _ (by simp)) hroot.symm
        obtain ⟨j, hj, hje, hpath, hturns⟩ := ih (merkleRootInputs_drop_subset hD2 hD)
          (by omega) h32' (fun x hx => hfold (List.mem_append_right _ hx)) hchild
        rw [List.length_drop] at hj hturns
        have hjk : ¬ largestPow2Below D.length + j < largestPow2Below D.length := by omega
        refine ⟨largestPow2Below D.length + j, by omega, by simpa using hje, ?_, ?_⟩
        · rw [path_right (by simpa using hD2) (by simp) (by simp; omega), List.length_map,
            ← List.map_take, ← List.map_drop, Nat.add_sub_cancel_left, hpath, List.reverse_append]
          rfl
        · rw [turns_right h2 hk, turns_right hD2 hjk, hturns, Nat.add_sub_cancel_left]

end Soundness

end ScittCose.Merkle
