import ScittCose.Cll.CheckpointRange

/-!
# What the verifiers of the checkpointed log accept (`scitt_cose/cll.py`)

Against the root of a log and the log's own size `verify_inclusion` accepts one proof for each leaf, the
siblings up to its peak and the other peaks (`verifyInclusion_mmr_exact`), and `verify_range` one proof for
each suffix, the hashes of the maximal subtrees before it (`verifyRange_exact`); anything else exhibits
a collision.
-/

namespace ScittCose.Cll

open Mmr

section Statement

variable (H : Hash)

/-- What `verify_inclusion` hashes where it raises nothing. -/
def verifyInclusionInputs (size leafIndex : ℤ) (bodyDigest : Octets) (proof : InclusionProof) :
    List Octets :=
  (do
    let leafPos ← leafIndexToPos leafIndex
    let pks ← peaks size
    let peakIdx ← findContainingPeak leafPos pks
    let peakPos ← pks[peakIdx]?
    let w ← proof.witness.mapM parseDigestHex
    let l ← proof.peaksLeft.mapM parseDigestHex
    let r ← proof.peaksRight.mapM parseDigestHex
    let path := locatePath peakPos (heightAt peakPos) leafPos
    let steps := (path.map fun step => (step.targetIsRight, step.parentPos)).zip w
    let leaf := leafNode H bodyDigest
    some (leafInput bodyDigest :: (foldInputs H steps leaf ++
      baggedInputs H (l ++ steps.foldl (up (innerNode H)) leaf :: r))) : Option (List Octets)).getD []

/-- The proof is the honest one of an entry of the log. -/
def IsInclusion (L : List Digest) (leafIndex : ℤ) (bodyDigest : Octets) (proof : InclusionProof) :
    Prop :=
  proof.v = 1 ∧ proof.kind = "inclusion" ∧ proof.size = nodeCount L.length ∧
    proof.leafIndex = leafIndex ∧ ∃ (i k : ℕ) (q : ℕ × ℕ),
      leafIndex = i ∧ (L.map Subtype.val)[i]? = some bodyDigest ∧
      (mountains L.length)[k]? = some q ∧ Below q.1 q.2 0 i ∧
      proof.witness.mapM parseDigestHex = some (siblingHashes H L (0, i) q) ∧
      proof.peaksLeft.mapM parseDigestHex = some ((peakHashes H L).take k) ∧
      proof.peaksRight.mapM parseDigestHex = some ((peakHashes H L).drop (k + 1))

/-- The hashes of the maximal subtrees of a log wholly before an index, from left to right. -/
def hashesBefore (L : List Digest) (lo : ℕ) : List Octets :=
  ((mountains L.length).flatMap fun p => before lo p.1 p.2).map fun q => mmrNode H L q.1 q.2

/-- The proof is the honest one of a suffix of the log, and the digests are the suffix. -/
def IsRange (L : List Digest) (fromSeq toSeq : ℤ) (bodyDigests : List Octets) (proof : RangeProof) :
    Prop :=
  proof.MadeFor fromSeq toSeq ∧ 1 ≤ fromSeq ∧ fromSeq ≤ toSeq ∧ toSeq = L.length ∧
    bodyDigests = (L.map Subtype.val).drop (fromSeq - 1).toNat ∧
    proof.witness.mapM parseDigestHex = some (hashesBefore H L (fromSeq - 1).toNat)

end Statement

variable {H : Hash}

/-! ## Inclusion -/

theorem nodeCount_lt_of_lt_maxMmrSize {f : ℕ} (h : (nodeCount f : ℤ) < maxMmrSize) :
    nodeCount f < 2 ^ 64 := by
  unfold maxMmrSize at h
  omega

/-- The way up from a leaf of a log by the siblings of the log. -/
theorem climbed_siblingHashes {L : List Digest} {P S h s : ℕ} (hb : Below P S h s) (hS : 2 ^ P ∣ S) :
    climbed H (h, s) (P, S) (siblingHashes H L (h, s) (P, S)) (mmrNode H L h s) = mmrNode H L P S :=
  hb.foldl_up _ _ _ hS

theorem length_siblingHashes (L : List Digest) (p q : ℕ × ℕ) :
    (siblingHashes H L p q).length = (path p.1 p.2 q.1 q.2).length :=
  length_siblings _ _ _ _ _ _ _

/-- The inputs of a run that passes the checks. -/
theorem verifyInclusionInputs_eq {f i k : ℕ} (hmax : (nodeCount f : ℤ) < maxMmrSize) (hi : i < f)
    {q : ℕ × ℕ} (hq : (mountains f)[k]? = some q) (hb : Below q.1 q.2 0 i) {bodyDigest : Octets}
    {proof : InclusionProof} {w l r : List Octets} (hw : proof.witness.mapM parseDigestHex = some w)
    (hl : proof.peaksLeft.mapM parseDigestHex = some l)
    (hr : proof.peaksRight.mapM parseDigestHex = some r) :
    verifyInclusionInputs H (nodeCount f) i bodyDigest proof =
      leafInput bodyDigest :: (foldInputs H ((path 0 i q.1 q.2).zip w) (leafNode H bodyDigest) ++
        baggedInputs H (l ++ climbed H (0, i) q w (leafNode H bodyDigest) :: r)) := by
  have hdvd := dvd_left (mem_mountains (List.mem_of_getElem? hq)).1
  unfold verifyInclusionInputs
  rw [leafIndexToPos_eq hmax hi, peaks_nodeCount hmax, hw, hl, hr]
  dsimp only [Option.bind_eq_bind, Option.bind_some]
  rw [findContainingPeak_index hq hb, Option.bind_some, List.getElem?_map, hq]
  dsimp only [Option.map_some, Option.bind_some, Option.getD_some]
  rw [@locatePath_map (0, i) q hb hdvd]
  rfl

/-- A list around one of its members. -/
theorem take_append_getElem_cons_drop {α : Type} {xs : List α} {k : ℕ} {x : α} (h : xs[k]? = some x) :
    xs.take k ++ x :: xs.drop (k + 1) = xs := by
  obtain ⟨hk, rfl⟩ := List.getElem?_eq_some_iff.mp h
  rw [← List.drop_eq_getElem_cons hk, List.take_append_drop]

theorem getElem?_peakHashes_take {L : List Digest} {f k : ℕ} {q : ℕ × ℕ} (hf : f ≤ L.length)
    (hq : (mountains f)[k]? = some q) : (peakHashes H (L.take f))[k]? = some (mmrNode H L q.1 q.2) := by
  rw [peakHashes_take hf, List.getElem?_map, hq]
  rfl

theorem length_peakHashes_take {L : List Digest} {f : ℕ} (hf : f ≤ L.length) :
    (peakHashes H (L.take f)).length = (mountains f).length := by
  rw [peakHashes_take hf, List.length_map]

/-- The honest proof of an entry is accepted under the root of every prefix that holds it. -/
theorem verifyInclusion_of_honest {L : List Digest} {f i k : ℕ} {q : ℕ × ℕ} (hf : f ≤ L.length) (hi : i < f)
    (hmax : (nodeCount f : ℤ) < maxMmrSize) {bodyDigest : Octets} (hd : bodyDigest.length = 32)
    (hentry : (L.map Subtype.val)[i]? = some bodyDigest) {proof : InclusionProof} (hv : proof.v = 1)
    (hkind : proof.kind = "inclusion") (hsize : proof.size = nodeCount f) (hindex : proof.leafIndex = i)
    (hq : (mountains f)[k]? = some q) (hb : Below q.1 q.2 0 i)
    (hw : proof.witness.mapM parseDigestHex = some (siblingHashes H L (0, i) q))
    (hl : proof.peaksLeft.mapM parseDigestHex = some ((peakHashes H (L.take f)).take k))
    (hr : proof.peaksRight.mapM parseDigestHex = some ((peakHashes H (L.take f)).drop (k + 1))) :
    verifyInclusion H (bagged H (peakHashes H (L.take f))) (nodeCount f) i bodyDigest proof = true := by
  have hpeaks : ∀ p ∈ peakHashes H (L.take f), p.length = 32 := fun p hp => length_of_mem_peakHashes hp
  have hk := (List.getElem?_eq_some_iff.mp hq).1
  have hplen := length_peakHashes_take (H := H) hf
  have hleft : ((peakHashes H (L.take f)).take k).length = k := by
    rw [List.length_take]
    omega
  rw [getElem?_logEntry (by omega), Option.some.injEq] at hentry
  subst hentry
  apply (verifyInclusionBy_iff hparse_digestHex).mpr
  refine ⟨hv, hkind, hsize, hindex, _, _, _, hw, hl, hr, length_bagged hpeaks, hd, f, i, q, rfl, hmax, rfl,
    by rw [hleft, hq], hb, length_siblingHashes L (0, i) q, ?_, ?_⟩
  · rw [hleft, List.length_drop]
    omega
  · -- the way up ends at the peak
    have hclimbed : climbed H (0, i) q (siblingHashes H L (0, i) q) (leafNode H (logEntry L i)) =
        mmrNode H L q.1 q.2 :=
      climbed_siblingHashes hb (dvd_left (mem_mountains (List.mem_of_getElem? hq)).1)
    rw [hclimbed, take_append_getElem_cons_drop (getElem?_peakHashes_take hf hq)]

/-- What is accepted under the root of a prefix is the honest proof of an entry, where no inputs collide. -/
theorem honest_of_verifyInclusion {inputs : List Octets} (hno : ¬ H.Collision inputs) {L : List Digest}
    (hlog : mmrInputs H L ⊆ inputs) {f : ℕ} (hf : f ≤ L.length)
    (hbagIn : baggedInputs H (peakHashes H (L.take f)) ⊆ inputs) {leafIndex : ℤ} {bodyDigest : Octets}
    {proof : InclusionProof}
    (hrun : verifyInclusionInputs H (nodeCount f) leafIndex bodyDigest proof ⊆ inputs)
    (h : verifyInclusion H (bagged H (peakHashes H (L.take f))) (nodeCount f) leafIndex bodyDigest proof =
      true) :
    proof.v = 1 ∧ proof.kind = "inclusion" ∧ proof.size = nodeCount f ∧ proof.leafIndex = leafIndex ∧
      ∃ (i k : ℕ) (q : ℕ × ℕ), leafIndex = i ∧ i < f ∧ (L.map Subtype.val)[i]? = some bodyDigest ∧
        (mountains f)[k]? = some q ∧ Below q.1 q.2 0 i ∧
        proof.witness.mapM parseDigestHex = some (siblingHashes H L (0, i) q) ∧
        proof.peaksLeft.mapM parseDigestHex = some ((peakHashes H (L.take f)).take k) ∧
        proof.peaksRight.mapM parseDigestHex = some ((peakHashes H (L.take f)).drop (k + 1)) := by
  obtain ⟨hv, hkind, hsize, hindex, w, l, r, hw, hl, hr, -, -, f', i, q, hsize', hmax, rfl, hq, hb, hwlen, hlen,
    hbag⟩ := (verifyInclusionBy_iff hparse_digestHex).mp h
  obtain rfl : f = f' := nodeCount_strictMono.injective (by exact_mod_cast hsize')
  have hmem := List.mem_of_getElem? hq
  have hdvd := dvd_left (mem_mountains hmem).1
  have hi : i < f := by
    have := hb.leaves hdvd
    have := mem_mountains hmem
    omega
  rw [verifyInclusionInputs_eq hmax hi hq hb hw hl hr, List.cons_subset, List.append_subset] at hrun
  obtain ⟨hleafIn, hfoldIn, hrowIn⟩ := hrun
  have hrow : ∀ p ∈ l ++ climbed H (0, i) q w (leafNode H bodyDigest) :: r, p.length = 32 := by
    intro p hp
    rcases List.mem_append.mp hp with hp | hp
    · exact length_of_mapM_parse hparse_digestHex hl p hp
    · rcases List.mem_cons.mp hp with rfl | hp
      · exact length_climbed _ _ _ (length_leafNode _)
      · exact length_of_mapM_parse hparse_digestHex hr p hp
  -- the row of peaks is the prefix's
  have hpeq := bagged_inj hno (fun p hp => length_of_mem_peakHashes hp) hrow
    (by rw [length_peakHashes_take hf, List.length_append, List.length_cons]; omega) hbagIn hrowIn hbag
  have hk : (peakHashes H (L.take f))[l.length]? = some (climbed H (0, i) q w (leafNode H bodyDigest)) := by
    rw [hpeq, List.getElem?_append_right le_rfl, Nat.sub_self]
    rfl
  have hpeak := Option.some.inj ((getElem?_peakHashes_take hf hq).symm.trans hk)
  have hnode : nodeInputs H L q.1 q.2 ⊆ inputs :=
    List.Subset.trans (nodeInputs_subset_mmrInputs hf hmem) hlog
  -- the way up ends at its peak, so it starts at its leaf
  obtain ⟨hleaf, hwit⟩ := eq_node_of_climbed hno hb hdvd hwlen
    (length_of_mapM_parse hparse_digestHex hw) (length_leafNode bodyDigest) hfoldIn hnode hpeak.symm
  have hentryIn : leafInput (logEntry L i) ∈ nodeInputs H L 0 i := List.mem_singleton_self _
  have hinput := Hash.eq_of_digest_eq hno hleafIn (hnode (nodeInputs_subset hb hentryIn)) hleaf
  refine ⟨hv, hkind, hsize, hindex, i, l.length, q, rfl, hi, ?_, hq, hb, by rw [hw, hwit], ?_, ?_⟩
  · rw [getElem?_logEntry (by omega), ← (List.cons.inj hinput).2]
  · rw [hl, hpeq, List.take_left]
  · rw [hr, hpeq, ← List.drop_drop, List.drop_left]
    rfl

/-- `verify_inclusion` is exact against the root of a log and the log's size: the honest proof of an entry
is accepted, and what is accepted is an entry's honest proof, unless the run exhibits a collision. -/
theorem verifyInclusion_mmr_exact {L : List Digest} (hmax : (nodeCount L.length : ℤ) < maxMmrSize)
    {root : Octets} (hroot : mmrRoot H L = some root) (leafIndex : ℤ) {bodyDigest : Octets}
    (hd : bodyDigest.length = 32) (proof : InclusionProof) :
    (IsInclusion H L leafIndex bodyDigest proof →
        verifyInclusion H root (nodeCount L.length) leafIndex bodyDigest proof = true) ∧
      (verifyInclusion H root (nodeCount L.length) leafIndex bodyDigest proof = true →
        IsInclusion H L leafIndex bodyDigest proof ∨
          H.Collision (mmrInputs H L ++
            verifyInclusionInputs H (nodeCount L.length) leafIndex bodyDigest proof)) := by
  obtain rfl := bagged_of_mmrRoot hroot
  have htake : L.take L.length = L := List.take_length
  constructor
  · rintro ⟨hv, hkind, hsize, hindex, i, k, q, rfl, hentry, hq, hb, hw, hl, hr⟩
    have hi : i < L.length := by simpa using (List.getElem?_eq_some_iff.mp hentry).1
    rw [← htake] at hl hr
    have hhonest := verifyInclusion_of_honest le_rfl hi hmax hd hentry hv hkind hsize hindex hq hb hw hl hr
    rwa [htake] at hhonest
  · intro h
    refine or_iff_not_imp_right.mpr fun hno => ?_
    obtain ⟨hv, hkind, hsize, hindex, i, k, q, hi, -, hentry, hq, hb, hw, hl, hr⟩ :=
      honest_of_verifyInclusion hno (List.subset_append_left _ _) le_rfl
        (by rw [htake]; exact fun x hx => List.mem_append_left _ (List.mem_append_right _ hx))
        (List.subset_append_right _ _) (by rw [htake]; exact h)
    rw [htake] at hl hr
    exact ⟨hv, hkind, hsize, hindex, i, k, q, hi, hentry, hq, hb, hw, hl, hr⟩

section Sample

/-- The honest proof of the first of two records. -/
def firstOfTwo : InclusionProof where
  v := 1
  kind := "inclusion"
  size := 3
  leafIndex := 0
  witness := [(mmrNode Hash.sha256 sampleLog 0 1).toHex]
  peaksLeft := []
  peaksRight := []

theorem mountains_two : mountains 2 = [(1, 0)] := by
  have h2 : mountains (0 + 2 ^ 1) = mountains 0 ++ [(1, 0)] := mountains_add_pow (dvd_zero _)
  rwa [show mountains 0 = [] from mountainsFrom_zero 0] at h2

theorem verifyInclusion_mmr_exact_first :
    verifyInclusion Hash.sha256 (bagged Hash.sha256 (peakHashes Hash.sha256 sampleLog))
      (nodeCount sampleLog.length) 0 (logEntry sampleLog 0) firstOfTwo = true := by
  have hlen : sampleLog.length = 2 := rfl
  have hmax : (nodeCount sampleLog.length : ℤ) < maxMmrSize := by
    rw [hlen, nodeCount_two]
    decide
  have hhonest : IsInclusion Hash.sha256 sampleLog 0 (logEntry sampleLog 0) firstOfTwo := by
    refine ⟨rfl, rfl, ?_, rfl, 0, 0, (1, 0), rfl, rfl, ?_, .left (.root 0 0), ?_, rfl, ?_⟩
    · rw [hlen, nodeCount_two]
      rfl
    · rw [hlen, mountains_two]
      rfl
    · apply @mapM_parseDigestHex_toHex [mmrNode Hash.sha256 sampleLog 0 1]
      intro b hb
      rw [List.mem_singleton.mp hb]
      exact length_mmrNode _ _ _
    · unfold peakHashes
      rw [hlen, mountains_two]
      rfl
  exact (verifyInclusion_mmr_exact hmax (mmrRoot_eq (nodeCount_lt_of_lt_maxMmrSize hmax)) 0
    (length_logEntry (by rw [hlen]; norm_num)) firstOfTwo).1 hhonest

end Sample

/-! ## Ranges -/

variable {lo hi : ℕ} {bodyDigests : ℕ → Option Octets}

/-- A tree out of range takes one witness, its hash. -/
theorem witness_of_before {h s : ℕ} {ws rest : List Octets} {tree : Rebuilt} (hle : s + 2 ^ h ≤ lo)
    (hr : rebuild lo hi bodyDigests h s ws = some (tree, rest)) : ws = tree.value H :: rest := by
  cases ws with
  | nil =>
      have hpos := Nat.two_pow_pos h
      unfold rebuild at hr
      rw [if_pos (.inl (by omega))] at hr
      cases hr
  | cons w ws =>
      rw [rebuild_outside hle w ws, Option.some.injEq, Prod.mk.injEq] at hr
      obtain ⟨rfl, rfl⟩ := hr
      rfl

/-- A rebuilt tree with the value of a node of a log took the hashes of the log's maximal subtrees before
the range. -/
theorem witness_of_value {inputs : List Octets} (hno : ¬ H.Collision inputs) {L : List Digest} {h s : ℕ}
    {ws rest : List Octets} {tree : Rebuilt} (hws : ∀ w ∈ ws, w.length = 32)
    (hhi : s + 2 ^ h ≤ hi + 1) (hr : rebuild lo hi bodyDigests h s ws = some (tree, rest))
    (htree : tree.inputs H ⊆ inputs) (hlog : nodeInputs H L h s ⊆ inputs)
    (hval : tree.value H = mmrNode H L h s) :
    ws = (before lo h s).map (fun q => mmrNode H L q.1 q.2) ++ rest := by
  induction h generalizing s ws rest tree with
  | zero =>
      by_cases hle : s + 2 ^ 0 ≤ lo
      · rw [before_of_le hle, witness_of_before (H := H) hle hr, hval]
        rfl
      · rw [pow_zero] at hle hhi
        obtain ⟨d, -, -, rfl⟩ := rebuild_zero (by omega) (by omega) hr
        rw [before_zero (by rw [pow_zero]; omega)]
        rfl
  | succ h ih =>
      by_cases hle : s + 2 ^ (h + 1) ≤ lo
      · rw [before_of_le hle, witness_of_before (H := H) hle hr, hval]
        rfl
      · have hpow : 2 ^ (h + 1) = 2 * 2 ^ h := pow_succ' 2 h
        have hpos := Nat.two_pow_pos h
        obtain ⟨left, right, mid, rfl, hl, hrr⟩ := rebuild_succ (by omega) (by omega) hr
        obtain ⟨hlenl, hmid⟩ := @rebuild_lengths H _ _ _ _ _ _ _ _ hws hl
        have hinput := Hash.eq_of_digest_eq hno (htree List.mem_cons_self) (hlog List.mem_cons_self)
          hval
        obtain ⟨hleft, hright⟩ :=
          interiorInput_inj_of_pos (hlenl.trans (length_mmrNode L h s).symm) hinput
        rw [before_succ (by omega), List.map_append, List.append_assoc,
          ← ih hmid (by omega) hrr
            (fun x hx => htree (List.mem_cons_of_mem _ (List.mem_append_right _ hx)))
            (fun x hx => hlog (List.mem_cons_of_mem _ (List.mem_append_right _ hx))) hright]
        exact ih hws (by omega) hl
          (fun x hx => htree (List.mem_cons_of_mem _ (List.mem_append_left _ hx)))
          (fun x hx => hlog (List.mem_cons_of_mem _ (List.mem_append_left _ hx))) hleft

/-- The same for a row of trees. -/
theorem witness_of_values {inputs : List Octets} (hno : ¬ H.Collision inputs) {L : List Digest}
    {ps : List (ℕ × ℕ)} (hhi : ∀ p ∈ ps, p.2 + 2 ^ p.1 ≤ hi + 1)
    (hlog : ∀ p ∈ ps, nodeInputs H L p.1 p.2 ⊆ inputs) {ws rest : List Octets} {trees : List Rebuilt}
    (hws : ∀ w ∈ ws, w.length = 32)
    (hr : rebuildPeaks lo hi bodyDigests ps ws = some (trees, rest))
    (htrees : trees.flatMap (Rebuilt.inputs H) ⊆ inputs)
    (hval : trees.map (Rebuilt.value H) = ps.map fun p => mmrNode H L p.1 p.2) :
    ws = (ps.flatMap fun p => before lo p.1 p.2).map (fun q => mmrNode H L q.1 q.2) ++ rest := by
  induction ps generalizing ws trees with
  | nil =>
      obtain ⟨rfl, rfl⟩ := Prod.mk.inj (Option.some.inj hr)
      rfl
  | cons p ps ih =>
      obtain ⟨⟨tree, next⟩, hl, hr⟩ := Option.bind_eq_some_iff.mp hr
      obtain ⟨⟨trees', rest'⟩, hrec, hr⟩ := Option.bind_eq_some_iff.mp hr
      obtain ⟨rfl, rfl⟩ := Prod.mk.inj (Option.some.inj hr)
      rw [List.map_cons, List.map_cons, List.cons.injEq] at hval
      rw [List.flatMap_cons, List.append_subset] at htrees
      rw [List.flatMap_cons, List.map_append, List.append_assoc,
        ← ih (fun p hp => hhi p (List.mem_cons_of_mem _ hp))
          (fun p hp => hlog p (List.mem_cons_of_mem _ hp))
          (@rebuild_lengths H _ _ _ _ _ _ _ _ hws hl).2 hrec htrees.2 hval.2]
      exact witness_of_value hno hws (hhi p List.mem_cons_self) hl htrees.1
        (hlog p List.mem_cons_self) hval.1

/-- The log's entries in range and the hashes before it rebuild the log's nodes. -/
theorem rebuild_honest {L : List Digest} {h s : ℕ} (hhi : s + 2 ^ h ≤ hi + 1)
    (hdigests : ∀ i, lo ≤ i → i ≤ hi → bodyDigests i = some (logEntry L i)) (rest : List Octets) :
    ∃ tree, rebuild lo hi bodyDigests h s
        ((before lo h s).map (fun q => mmrNode H L q.1 q.2) ++ rest) = some (tree, rest) ∧
      tree.value H = mmrNode H L h s := by
  induction h generalizing s rest with
  | zero =>
      by_cases hle : s + 2 ^ 0 ≤ lo
      · rw [before_of_le hle]
        exact ⟨_, rebuild_outside hle _ rest, rfl⟩
      · rw [before_zero (by omega)]
        refine ⟨.leaf (logEntry L s), ?_, rfl⟩
        rw [pow_zero] at hle hhi
        unfold rebuild
        rw [if_neg (by rw [pow_zero]; omega), hdigests s (by omega) (by omega)]
        rfl
  | succ h ih =>
      by_cases hle : s + 2 ^ (h + 1) ≤ lo
      · rw [before_of_le hle]
        exact ⟨_, rebuild_outside hle _ rest, rfl⟩
      · have hpow : 2 ^ (h + 1) = 2 * 2 ^ h := pow_succ' 2 h
        have hpos := Nat.two_pow_pos h
        rw [before_succ (by omega), List.map_append, List.append_assoc]
        obtain ⟨right, hright, hrval⟩ := ih (s := s + 2 ^ h) (by omega) rest
        obtain ⟨left, hleft, hlval⟩ := ih (s := s) (by omega)
          ((before lo h (s + 2 ^ h)).map (fun q => mmrNode H L q.1 q.2) ++ rest)
        refine ⟨.inner (pos (h + 1) s) left right, ?_, ?_⟩
        · unfold rebuild
          rw [if_neg (by omega)]
          dsimp only
          rw [hleft]
          dsimp only [Option.bind_eq_bind, Option.bind_some]
          rw [hright]
          rfl
        · rw [mmrNode_succ, ← hlval, ← hrval]
          rfl

theorem rebuildPeaks_honest {L : List Digest} {ps : List (ℕ × ℕ)}
    (hhi : ∀ p ∈ ps, p.2 + 2 ^ p.1 ≤ hi + 1)
    (hdigests : ∀ i, lo ≤ i → i ≤ hi → bodyDigests i = some (logEntry L i)) :
    ∃ trees, rebuildPeaks lo hi bodyDigests ps
        ((ps.flatMap fun p => before lo p.1 p.2).map fun q => mmrNode H L q.1 q.2) =
          some (trees, []) ∧
      trees.map (Rebuilt.value H) = ps.map fun p => mmrNode H L p.1 p.2 := by
  induction ps with
  | nil => exact ⟨[], rfl, rfl⟩
  | cons p ps ih =>
      obtain ⟨trees, hrec, hvals⟩ := ih fun p hp => hhi p (List.mem_cons_of_mem _ hp)
      rw [List.flatMap_cons, List.map_append]
      obtain ⟨tree, hl, hval⟩ := rebuild_honest (H := H) (L := L) (hhi p List.mem_cons_self) hdigests
        ((ps.flatMap fun p => before lo p.1 p.2).map fun q => mmrNode H L q.1 q.2)
      refine ⟨tree :: trees, ?_, ?_⟩
      · unfold rebuildPeaks
        rw [hl]
        dsimp only [Option.bind_eq_bind, Option.bind_some]
        rw [hrec]
        rfl
      · rw [List.map_cons, List.map_cons, hval, hvals]

/-- The hashes before an index are the peaks of the log up to the index. -/
theorem hashesBefore_eq {L : List Digest} {lo : ℕ} (hlo : lo ≤ L.length) :
    hashesBefore H L lo = peakHashes H (L.take lo) := by
  have hbefore := @flatMap_before 0 L.length lo hlo
  rw [Nat.zero_add] at hbefore
  unfold hashesBefore
  rw [mountains, hbefore, peakHashes_take hlo]
  rfl

theorem digestByIndex_drop {L : List Digest} {lo i : ℕ} (hlo : lo ≤ i) (hi : i < L.length) :
    digestByIndex lo ((L.map Subtype.val).drop lo) i = some (logEntry L i) := by
  unfold digestByIndex
  rw [if_neg (by omega), List.getElem?_drop, Nat.add_sub_cancel' hlo, getElem?_logEntry hi]

/-- `verify_range` is exact for a proof of the log's size: the honest proof of a suffix is accepted, and
what is accepted is a suffix with its honest proof, unless the run exhibits a collision. -/
theorem verifyRange_exact {L : List Digest} (hL : L ≠ []) (hmax : (nodeCount L.length : ℤ) < maxMmrSize)
    {root : Octets} (hroot : mmrRoot H L = some root) (fromSeq toSeq : ℤ) (bodyDigests : List Octets)
    {proof : RangeProof} (hsize : proof.size = nodeCount L.length) :
    (IsRange H L fromSeq toSeq bodyDigests proof →
        verifyRange H root fromSeq toSeq bodyDigests proof = true) ∧
      (verifyRange H root fromSeq toSeq bodyDigests proof = true →
        IsRange H L fromSeq toSeq bodyDigests proof ∨
          H.Collision (mmrInputs H L ++ verifyRangeInputs H bodyDigests proof)) := by
  obtain rfl := bagged_of_mmrRoot hroot
  have hpeaks : ∀ p ∈ peakHashes H L, p.length = 32 := fun p hp => length_of_mem_peakHashes hp
  have hpos : 0 < L.length := List.length_pos_iff.mpr hL
  have hhi : ∀ p ∈ mountains L.length, p.2 + 2 ^ p.1 ≤ L.length - 1 + 1 := by
    intro p hp
    have := (mem_mountains hp).2.1
    omega
  unfold verifyRange
  rw [verifyRangeBy_iff hparse_digestHex]
  constructor
  · rintro ⟨⟨hfrom, hto, hfi, hti⟩, h1, hle, hend, rfl, hws⟩
    obtain ⟨lo, hlo⟩ : ∃ lo : ℕ, fromSeq = lo + 1 := ⟨(fromSeq - 1).toNat, by omega⟩
    obtain rfl : lo = (fromSeq - 1).toNat := by omega
    obtain ⟨trees, hreb, hvals⟩ := @rebuildPeaks_honest H (fromSeq - 1).toNat (L.length - 1)
      (digestByIndex (fromSeq - 1).toNat ((L.map Subtype.val).drop (fromSeq - 1).toNat)) L
      (mountains L.length) hhi fun i h h' => digestByIndex_drop h (by omega)
    refine ⟨hfrom, hto, hfi, hti, L.length, (fromSeq - 1).toNat, _, hlo, hend, hsize, hws,
      length_bagged hpeaks, ?_, by omega, hmax, ?_, trees, hreb, by rw [hvals]; rfl⟩
    · rw [List.length_drop, List.length_map]
      omega
    · intro d hd
      obtain ⟨d, -, rfl⟩ := List.mem_map.mp (List.mem_of_mem_drop hd)
      exact d.2
  · rintro ⟨hfrom, hto, hfi, hti, m, lo, ws, rfl, rfl, hm, hws, -, hlen, hlt, -, hdigests, trees, hreb,
      hbag⟩
    obtain rfl : L.length = m := nodeCount_strictMono.injective (by exact_mod_cast hsize.symm.trans hm)
    have hindex : ((lo : ℤ) + 1 - 1).toNat = lo := by omega
    refine or_iff_not_imp_right.mpr fun hno =>
      ⟨⟨hfrom, hto, hfi, hti⟩, by omega, by omega, rfl, ?_⟩
    rw [hindex]
    generalize hI : mmrInputs H L ++ verifyRangeInputs H bodyDigests proof = inputs at hno
    have hlog : mmrInputs H L ⊆ inputs := hI ▸ List.subset_append_left _ _
    have hrun : verifyRangeInputs H bodyDigests proof ⊆ inputs := hI ▸ List.subset_append_right _ _
    rw [verifyRangeInputs_eq hsize hmax (by omega) (by omega) hws hreb, List.append_subset] at hrun
    have hws32 := length_of_mapM_parse hparse_digestHex hws
    have hnodes : ∀ p ∈ mountains L.length, nodeInputs H L p.1 p.2 ⊆ inputs := fun p hp =>
      List.Subset.trans (nodeInputs_subset_mmrInputs le_rfl hp) hlog
    -- as many trees as peaks, so the trees have the hashes of the peaks
    have hvals : trees.map (Rebuilt.value H) = peakHashes H L := by
      apply bagged_inj hno (rebuildPeaks_lengths hws32 hreb).1 hpeaks
      · unfold peakHashes
        rw [List.length_map, List.length_map, length_of_rebuildPeaks hreb]
      · exact hrun.2
      · exact fun x hx => hlog (List.mem_append_right _ hx)
      · exact hbag.symm
    refine ⟨List.ext_getElem? fun j => ?_, ?_⟩
    · rw [List.getElem?_drop]
      rcases Nat.lt_or_ge j bodyDigests.length with hj | hj
      · obtain ⟨p, hp, hlo', hhi'⟩ :=
          @exists_mem_mountainsFrom 0 L.length (lo + j) (Nat.zero_le _) (by omega)
        have hentry := digests_of_values hno hnodes hws32 hreb hrun.1 hvals (Nat.le_add_right lo j)
          (by omega) hp hlo' hhi'
        unfold digestByIndex at hentry
        rw [if_neg (by omega), Nat.add_sub_cancel_left] at hentry
        rw [hentry, getElem?_logEntry (by omega)]
      · rw [List.getElem?_eq_none hj, List.getElem?_eq_none (by rw [List.length_map]; omega)]
    · have hwit := witness_of_values hno hhi hnodes hws32 hreb hrun.1 hvals
      rw [hws, hwit, List.append_nil]
      rfl

section Sample

/-- The honest proof of the last of five records. -/
def fifthOfFive : RangeProof where
  fromSeq := 5
  toSeq := 5
  size := 8
  fromIndex := 4
  toIndex := 4
  witness := [(mmrNode Hash.sha256 fiveRecords 2 0).toHex]

theorem verifyRange_exact_fifth :
    verifyRange Hash.sha256 (bagged Hash.sha256 (peakHashes Hash.sha256 fiveRecords)) 5 5
      [logEntry fiveRecords 4] fifthOfFive = true := by
  have hlen : fiveRecords.length = 5 := rfl
  have hmax : (nodeCount fiveRecords.length : ℤ) < maxMmrSize := by
    rw [hlen, nodeCount_five]
    decide
  have hhonest : IsRange Hash.sha256 fiveRecords 5 5 [logEntry fiveRecords 4] fifthOfFive := by
    refine ⟨⟨rfl, rfl, rfl, rfl⟩, by norm_num, le_rfl, rfl, rfl, ?_⟩
    have hbefore : hashesBefore Hash.sha256 fiveRecords 4 = [mmrNode Hash.sha256 fiveRecords 2 0] := by
      unfold hashesBefore
      rw [hlen, mountains_five]
      rfl
    rw [show ((5 : ℤ) - 1).toNat = 4 from rfl, hbefore]
    apply @mapM_parseDigestHex_toHex [mmrNode Hash.sha256 fiveRecords 2 0]
    intro b hb
    rw [List.mem_singleton.mp hb]
    exact length_mmrNode _ _ _
  exact (verifyRange_exact (by decide) hmax mmrRoot_five 5 5 _
    (show fifthOfFive.size = nodeCount fiveRecords.length by rw [hlen, nodeCount_five]; rfl)).1 hhonest

end Sample

end ScittCose.Cll
