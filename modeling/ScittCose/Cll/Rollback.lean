import ScittCose.Lib.Sha256
import ScittCose.Cll.Checkpoint

/-!
# Rollback detection over checkpoint chains

A consistency proof shows a forged old peak only where two inputs collide: the siblings lead from the old
peak to a peak of the log, and every step up is undone (`eq_node_of_climbed`). So the old root is the
root of a prefix, and along a chain every checkpoint is one of the log the last one commits to. The
honest proof (`consistencyProof`) is accepted.
-/

namespace ScittCose.Cll

open Mmr

section Inputs

variable (H : Hash)

/-- What one step up hashes. -/
def upInput (acc : Octets) (step : (Bool × ℕ) × Octets) : Octets :=
  if step.1.1 then interiorInput step.2 acc step.1.2 else interiorInput acc step.2 step.1.2

/-- What a fold hashes. -/
def foldInputs : List ((Bool × ℕ) × Octets) → Octets → List Octets
  | [], _ => []
  | step :: steps, acc => upInput acc step :: foldInputs steps (up (innerNode H) acc step)

/-- What the loop of `verify_consistency` hashes for one old peak. -/
def oldPeakInputs (newPeakPositions : List ℕ) (p : ℕ) (old : Octets) (w : List Octets) :
    List Octets :=
  ((findContainingPeak p newPeakPositions).bind fun i => newPeakPositions[i]?).elim [] fun newPeakPos =>
    let path := locatePath newPeakPos (heightAt newPeakPos) p
    foldInputs H ((path.map fun step => (step.targetIsRight, step.parentPos)).zip w) old

/-- What the loop hashes for all. -/
def oldPeaksInputs (newPeakPositions : List ℕ) :
    List ℕ → List Octets → List (List Octets) → List Octets
  | p :: ps, old :: olds, w :: ws =>
    oldPeakInputs H newPeakPositions p old w ++ oldPeaksInputs newPeakPositions ps olds ws
  | _, _, _ => []

/-- What `verify_consistency` hashes where it raises nothing. -/
def verifyConsistencyInputs (sizeA sizeB : ℤ) (proof : ConsistencyProof) : List Octets :=
  (do
    let oldPeakPositions ← peaks sizeA
    let newPeakPositions ← peaks sizeB
    let old ← proof.oldPeaks.mapM parseDigestHex
    let new ← proof.newPeaks.mapM parseDigestHex
    let ws ← proof.witness.mapM fun w => w.mapM parseDigestHex
    some (baggedInputs H old ++ (baggedInputs H new ++
      oldPeaksInputs H newPeakPositions oldPeakPositions old ws)) : Option (List Octets)).getD []

/-- What the check of a chain of checkpoints hashes. -/
def chainInputs (c : ℕ → Checkpoint) (proof : ℕ → ConsistencyProof) (k : ℕ) : List Octets :=
  (List.range k).flatMap fun i =>
    verifyConsistencyInputs H (c i).mmrSize (c (i + 1)).mmrSize (proof i)

end Inputs

section Honest

variable (H : Hash)

/-- The tree of a range that holds a tree of a smaller one. -/
def treeAbove (g : ℕ) (p : ℕ × ℕ) : ℕ × ℕ :=
  ((findContainingPeak (peakPos p) ((mountains g).map peakPos)).bind fun k => (mountains g)[k]?).getD p

/-- The siblings from a node of a log up to a root. -/
def siblingHashes (L : List Digest) (p q : ℕ × ℕ) : List Octets :=
  siblings (leafNode H) (innerNode H) (logEntry L) p.1 p.2 q.1 q.2

/-- The consistency proof between two sizes of a log. -/
def consistencyProof (L : List Digest) (f g : ℕ) : ConsistencyProof where
  v := 1
  kind := "consistency"
  sizeA := nodeCount f
  sizeB := nodeCount g
  oldPeaks := (peakHashes H (L.take f)).map Octets.toHex
  witness := (mountains f).map fun p => (siblingHashes H L p (treeAbove g p)).map Octets.toHex
  newPeaks := (peakHashes H (L.take g)).map Octets.toHex

end Honest

variable {H : Hash}

/-! ## Undoing the way up -/

theorem foldInputs_concat (steps : List ((Bool × ℕ) × Octets)) (step : (Bool × ℕ) × Octets)
    (acc : Octets) :
    foldInputs H (steps ++ [step]) acc =
      foldInputs H steps acc ++ [upInput (steps.foldl (up (innerNode H)) acc) step] := by
  induction steps generalizing acc with
  | nil => rfl
  | cons s steps ih => exact congrArg (upInput acc s :: ·) (ih _)

theorem up_eq_digest (acc : Octets) (step : (Bool × ℕ) × Octets) :
    up (innerNode H) acc step = H.digest (upInput acc step) := by
  unfold up upInput
  split_ifs
  · rfl
  · rfl

/-- The last of as many values as there are steps. -/
theorem zip_concat {steps : List (Bool × ℕ)} {step : Bool × ℕ} {w : List Octets}
    (h : w.length = (steps ++ [step]).length) :
    ∃ w' y, w = w' ++ [y] ∧ w'.length = steps.length ∧
      (steps ++ [step]).zip w = steps.zip w' ++ [(step, y)] := by
  have hne : w ≠ [] := by
    rintro rfl
    simp at h
  have hw := List.dropLast_append_getLast hne
  have hlen : w.dropLast.length = steps.length := by
    rw [List.length_dropLast, h, List.length_append, List.length_singleton, Nat.add_sub_cancel]
  refine ⟨w.dropLast, w.getLast hne, hw.symm, hlen, ?_⟩
  conv_lhs => rw [← hw]
  rw [List.zip_append hlen.symm]
  rfl

/-- Siblings that lead to a node of the log are the siblings of a node of the log, and lead from it. -/
theorem eq_node_of_climbed {inputs : List Octets} (hno : ¬ H.Collision inputs) {L : List Digest}
    {P S h s : ℕ} (hb : Below P S h s) (hS : 2 ^ P ∣ S) {w : List Octets} {x : Octets}
    (hwlen : w.length = (path h s P S).length) (hw : ∀ y ∈ w, y.length = 32) (hx : x.length = 32)
    (hfold : foldInputs H ((path h s P S).zip w) x ⊆ inputs) (hnode : nodeInputs H L P S ⊆ inputs)
    (heq : climbed H (h, s) (P, S) w x = mmrNode H L P S) :
    x = mmrNode H L h s ∧ w = siblingHashes H L (h, s) (P, S) := by
  unfold siblingHashes
  dsimp only
  induction hb generalizing w with
  | root P S =>
      unfold climbed at heq
      dsimp only at heq
      rw [path_self] at hwlen heq
      rw [siblings_self]
      exact ⟨heq, List.length_eq_zero_iff.mp hwlen⟩
  | @left P S h s hb ih =>
      unfold climbed at heq
      dsimp only at heq
      rw [hb.path_left (dvd_left hS)] at hwlen hfold heq
      obtain ⟨w, y, rfl, hlen, hzip⟩ := zip_concat hwlen
      have hw' : ∀ y ∈ w, y.length = 32 := fun y hy => hw y (List.mem_append_left _ hy)
      rw [hzip, foldInputs_concat] at hfold
      rw [hzip, List.foldl_append, List.foldl_cons, List.foldl_nil, up_eq_digest, mmrNode_succ] at heq
      have hinput := Hash.eq_of_digest_eq hno
        (hfold (List.mem_append_right _ (List.mem_singleton_self _))) (hnode List.mem_cons_self) heq
      -- the node climbed from stands left
      have hchild : (climbed H (h, s) (P, S) w x).length = (mmrNode H L P S).length := by
        rw [length_climbed _ _ _ hx, length_mmrNode]
      obtain ⟨hleft, rfl⟩ := interiorInput_inj_of_pos hchild hinput
      obtain ⟨hxnode, rfl⟩ := ih (dvd_left hS) hlen hw' (fun z hz => hfold (List.mem_append_left _ hz))
        (fun z hz => hnode (List.mem_cons_of_mem _ (List.mem_append_left _ hz))) hleft
      rw [hb.siblings_left _ _ _ (dvd_left hS)]
      exact ⟨hxnode, rfl⟩
  | @right P S h s hb ih =>
      unfold climbed at heq
      dsimp only at heq
      rw [hb.path_right (dvd_right hS)] at hwlen hfold heq
      obtain ⟨w, y, rfl, hlen, hzip⟩ := zip_concat hwlen
      have hw' : ∀ y ∈ w, y.length = 32 := fun y hy => hw y (List.mem_append_left _ hy)
      rw [hzip, foldInputs_concat] at hfold
      rw [hzip, List.foldl_append, List.foldl_cons, List.foldl_nil, up_eq_digest, mmrNode_succ] at heq
      have hinput := Hash.eq_of_digest_eq hno
        (hfold (List.mem_append_right _ (List.mem_singleton_self _))) (hnode List.mem_cons_self) heq
      -- the sibling stands left
      have hy : y.length = (mmrNode H L P S).length := by
        rw [hw y (List.mem_append_right _ (List.mem_singleton_self _)), length_mmrNode]
      obtain ⟨rfl, hright⟩ := interiorInput_inj_of_pos hy hinput
      obtain ⟨hxnode, rfl⟩ := ih (dvd_right hS) hlen hw' (fun z hz => hfold (List.mem_append_left _ hz))
        (fun z hz => hnode (List.mem_cons_of_mem _ (List.mem_append_right _ hz))) hright
      rw [hb.siblings_right _ _ _ (dvd_right hS)]
      exact ⟨hxnode, rfl⟩

/-! ## One link -/

theorem nodeInputs_subset {L : List Digest} {P S h s : ℕ} (hb : Below P S h s) :
    nodeInputs H L h s ⊆ nodeInputs H L P S := by
  induction hb with
  | root P S => exact List.Subset.refl _
  | left hb ih => exact fun x hx => List.mem_cons_of_mem _ (List.mem_append_left _ (ih hx))
  | right hb ih => exact fun x hx => List.mem_cons_of_mem _ (List.mem_append_right _ (ih hx))

/-- A tree of a prefix hashes no more than the log. -/
theorem nodeInputs_subset_mmrInputs {L : List Digest} {g : ℕ} (hg : g ≤ L.length) {q : ℕ × ℕ}
    (hq : q ∈ mountains g) : nodeInputs H L q.1 q.2 ⊆ mmrInputs H L := by
  obtain ⟨r, hr, hb⟩ := exists_mountain_of_mem hg hq
  intro x hx
  apply List.mem_append_left
  exact List.mem_flatMap.mpr ⟨r, hr, nodeInputs_subset hb hx⟩

theorem peakHashes_take {L : List Digest} {f : ℕ} (hf : f ≤ L.length) :
    peakHashes H (L.take f) = (mountains f).map fun p => mmrNode H L p.1 p.2 := by
  unfold peakHashes
  rw [List.length_take, Nat.min_eq_left hf]
  exact List.map_congr_left fun p hp => mmrNode_take (mem_mountains hp).2.1

theorem oldPeakInputs_eq {g k : ℕ} {p q : ℕ × ℕ} (hq : (mountains g)[k]? = some q)
    (hb : Below q.1 q.2 p.1 p.2) (old : Octets) (w : List Octets) :
    oldPeakInputs H ((mountains g).map peakPos) (peakPos p) old w =
      foldInputs H ((path p.1 p.2 q.1 q.2).zip w) old := by
  have hdvd := dvd_left (mem_mountains (List.mem_of_getElem? hq)).1
  unfold oldPeakInputs
  rw [findContainingPeak_index hq hb, Option.bind_some, List.getElem?_map, hq]
  dsimp only [Option.map_some, Option.elim_some]
  rw [locatePath_map hb hdvd]

/-- The old peaks shown under the peaks of a prefix are nodes of the log. -/
theorem oldPeaks_eq {inputs : List Octets} (hno : ¬ H.Collision inputs) {L : List Digest} {g : ℕ}
    (hg : g ≤ L.length) (hlog : mmrInputs H L ⊆ inputs) {ps : List (ℕ × ℕ)} {olds : List Octets}
    {ws : List (List Octets)} (hlen : olds.length = ps.length) (hwlen : ws.length = ps.length)
    (holds : ∀ x ∈ olds, x.length = 32) (hws : ∀ w ∈ ws, ∀ x ∈ w, x.length = 32)
    (hin : oldPeaksInputs H ((mountains g).map peakPos) (ps.map peakPos) olds ws ⊆ inputs)
    (h : OldPeaksHold H g (peakHashes H (L.take g)) ps olds ws) :
    olds = ps.map fun p => mmrNode H L p.1 p.2 := by
  induction ps generalizing olds ws with
  | nil => exact List.length_eq_zero_iff.mp hlen
  | cons p ps ih =>
      obtain ⟨old, olds, rfl⟩ := List.exists_cons_of_length_eq_add_one hlen
      obtain ⟨w, ws, rfl⟩ := List.exists_cons_of_length_eq_add_one hwlen
      obtain ⟨⟨k, q, hq, hb, hwl, hnew⟩, hrest⟩ := h
      have hmem := List.mem_of_getElem? hq
      rw [List.map_cons, oldPeaksInputs, oldPeakInputs_eq hq hb, List.append_subset] at hin
      rw [peakHashes_take hg, List.getElem?_map, hq, Option.map_some, Option.some.injEq] at hnew
      have hold : old = mmrNode H L p.1 p.2 :=
        (eq_node_of_climbed hno hb (dvd_left (mem_mountains hmem).1) hwl (hws w List.mem_cons_self)
          (holds old List.mem_cons_self) hin.1
          (List.Subset.trans (nodeInputs_subset_mmrInputs hg hmem) hlog) hnew.symm).1
      rw [List.map_cons, ← hold, ← ih (by simpa using hlen) (by simpa using hwlen)
        (fun x hx => holds x (List.mem_cons_of_mem _ hx))
        (fun w hw => hws w (List.mem_cons_of_mem _ hw)) hin.2 hrest]

/-- A checkpoint is one of a log: its size and root are those of a prefix, whose bagging was hashed. -/
def OfLog (H : Hash) (inputs : List Octets) (L : List Digest) (size : ℤ) (root : Octets) (f : ℕ) : Prop :=
  f ≤ L.length ∧ size = nodeCount f ∧ root = bagged H (peakHashes H (L.take f)) ∧
    baggedInputs H (peakHashes H (L.take f)) ⊆ inputs

theorem length_of_mem_mapM {ws : List (List String)} {wbs : List (List Octets)}
    (h : ws.mapM (fun w => w.mapM parseDigestHex) = some wbs) :
    ∀ w ∈ wbs, ∀ x ∈ w, x.length = 32 := by
  intro w hw
  have hmem : some w ∈ ws.map fun w => w.mapM parseDigestHex := by
    rw [Octets.mapM_eq_some_iff.mp h]
    exact List.mem_map_of_mem hw
  obtain ⟨v, -, hv⟩ := List.mem_map.mp hmem
  exact length_of_mapM_parse (fun s b hs => (parseDigestHex_eq_some_iff.mp hs).2) hv

/-- What is shown to be extended by a checkpoint of the log is one of the log. -/
theorem ofLog_of_verifyConsistency {inputs : List Octets} (hno : ¬ H.Collision inputs) {L : List Digest}
    (hlog : mmrInputs H L ⊆ inputs) {rootA rootB : Octets} {sizeA sizeB : ℤ} {proof : ConsistencyProof}
    (hrun : verifyConsistencyInputs H sizeA sizeB proof ⊆ inputs) {g : ℕ}
    (hB : OfLog H inputs L sizeB rootB g)
    (h : verifyConsistency H rootA sizeA rootB sizeB proof = true) :
    ∃ f, OfLog H inputs L sizeA rootA f ∧ (nodeCount f : ℤ) < maxMmrSize := by
  have hparse : ∀ s b, parseDigestHex s = some b → b.length = 32 :=
    fun s b hs => (parseDigestHex_eq_some_iff.mp hs).2
  obtain ⟨-, -, -, -, old, new, ws, hold, hnew, hws, -, -, f, g', rfl, hsizeB, hmax, hfg, holen, hnlen,
    hwlen, rfl, hrootB, hholds⟩ := (verifyConsistencyBy_iff hparse).mp h
  obtain ⟨hg, hsize, hroot, hbag⟩ := hB
  obtain rfl : g' = g := nodeCount_strictMono.injective (by exact_mod_cast hsizeB.symm.trans hsize)
  have hle : nodeCount f ≤ nodeCount g' := nodeCount_strictMono.monotone hfg
  have hfmax : (nodeCount f : ℤ) < maxMmrSize := by omega
  rw [hsizeB] at hmax hrun
  -- what the run hashes: the two baggings and the ways up
  have hinputs : verifyConsistencyInputs H (nodeCount f) (nodeCount g') proof =
      baggedInputs H old ++ (baggedInputs H new ++
        oldPeaksInputs H ((mountains g').map peakPos) ((mountains f).map peakPos) old ws) := by
    unfold verifyConsistencyInputs
    rw [peaks_nodeCount hfmax, peaks_nodeCount hmax, hold, hnew, hws]
    rfl
  rw [hinputs, List.append_subset, List.append_subset] at hrun
  obtain ⟨hinOld, hinNew, hinLoop⟩ := hrun
  have hlenNew : new.length = (peakHashes H (L.take g')).length := by
    rw [hnlen, peakHashes_take hg, List.length_map]
  obtain rfl : new = peakHashes H (L.take g') :=
    bagged_inj hno (length_of_mapM_parse hparse hnew) (fun p hp => length_of_mem_peakHashes hp) hlenNew
      hinNew hbag (hrootB.symm.trans hroot)
  have hpeaks := oldPeaks_eq hno hg hlog holen hwlen (length_of_mapM_parse hparse hold)
    (length_of_mem_mapM hws) hinLoop hholds
  rw [← peakHashes_take (hfg.trans hg)] at hpeaks
  subst hpeaks
  exact ⟨f, ⟨hfg.trans hg, rfl, rfl, hinOld⟩, hfmax⟩

/-! ## Chains -/

/-- Every checkpoint of an accepted chain is one of the log of the last. -/
theorem ofLog_of_chain {L : List Digest} {c : ℕ → Checkpoint} {proof : ℕ → ConsistencyProof}
    {current : ℕ → Option ℤ} {k : ℕ}
    (hno : ¬ H.Collision (chainInputs H c proof k ++ mmrInputs H L))
    (hok : ∀ i < k, (verifyCheckpointChain H (c i) (c (i + 1)) (proof i) (current i)).ok = true)
    {root : Octets} (hroot : (c k).rootBytes = some root)
    (hlast : OfLog H (chainInputs H c proof k ++ mmrInputs H L) L (c k).mmrSize root L.length)
    {j : ℕ} (hj : j ≤ k) :
    ∃ root f, (c (k - j)).rootBytes = some root ∧
      OfLog H (chainInputs H c proof k ++ mmrInputs H L) L (c (k - j)).mmrSize root f ∧
      (j ≠ 0 → (nodeCount f : ℤ) < maxMmrSize) := by
  induction j with
  | zero => exact ⟨root, L.length, hroot, hlast, fun h => absurd rfl h⟩
  | succ j ih =>
      obtain ⟨rootB, g, hrootB, hB, -⟩ := ih (by omega)
      obtain ⟨i, hi⟩ : ∃ i, k - j = i + 1 := ⟨k - j - 1, by omega⟩
      have hi' : k - (j + 1) = i := by omega
      rw [hi] at hrootB hB
      rw [hi']
      obtain ⟨-, -, rootA, rootB', hA, hB', hverify⟩ :=
        verifyCheckpointChain_ok_iff.mp (hok i (by omega))
      obtain rfl : rootB = rootB' := Option.some.inj (hrootB.symm.trans hB')
      have hrun : verifyConsistencyInputs H (c i).mmrSize (c (i + 1)).mmrSize (proof i) ⊆
          chainInputs H c proof k ++ mmrInputs H L := by
        intro x hx
        apply List.mem_append_left
        exact List.mem_flatMap.mpr ⟨i, List.mem_range.mpr (by omega), hx⟩
      obtain ⟨f, hf, hmax⟩ := ofLog_of_verifyConsistency hno (List.subset_append_right _ _) hrun hB hverify
      exact ⟨rootA, f, hA, hf, fun _ => hmax⟩

/-! ## The honest proof -/

theorem parseDigestHex_toHex {b : Octets} (hb : b.length = 32) : parseDigestHex b.toHex = some b :=
  parseDigestHex_eq_some_iff.mpr ⟨Octets.fromHex_toHex b, hb⟩

theorem mapM_parseDigestHex_toHex {bs : List Octets} (hbs : ∀ b ∈ bs, b.length = 32) :
    (bs.map Octets.toHex).mapM parseDigestHex = some bs := by
  rw [Octets.mapM_eq_some_iff, List.map_map]
  exact List.map_congr_left fun b hb => parseDigestHex_toHex (hbs b hb)

theorem treeAbove_spec {f g : ℕ} (hfg : f ≤ g) {p : ℕ × ℕ} (hp : p ∈ mountains f) :
    ∃ k : ℕ, (mountains g)[k]? = some (treeAbove g p) ∧
      Below (treeAbove g p).1 (treeAbove g p).2 p.1 p.2 := by
  obtain ⟨q, hmem, hb⟩ := exists_mountain_of_mem hfg hp
  obtain ⟨k, hfind, hq⟩ := findContainingPeak_peak hmem hb
  have habove : treeAbove g p = q := by
    unfold treeAbove
    rw [hfind, Option.bind_some, hq, Option.getD_some]
  rw [habove]
  exact ⟨k, hq, hb⟩

theorem length_of_mem_siblingHashes {L : List Digest} {p q : ℕ × ℕ} {x : Octets}
    (hx : x ∈ siblingHashes H L p q) : x.length = 32 := by
  obtain ⟨P, S⟩ := q
  unfold siblingHashes at hx
  dsimp only at hx
  induction P generalizing S with
  | zero => cases hx
  | succ P ih =>
      unfold siblings at hx
      split_ifs at hx
      · cases hx
      · rcases List.mem_append.mp hx with hx | hx
        · exact ih S hx
        · rw [List.mem_singleton.mp hx]
          exact length_mmrNode L P _
      · rcases List.mem_append.mp hx with hx | hx
        · exact ih _ hx
        · rw [List.mem_singleton.mp hx]
          exact length_mmrNode L P _

/-- The siblings of the log lead from each old peak to a new one. -/
theorem oldPeaksHold_honest {L : List Digest} {g : ℕ} (hg : g ≤ L.length) {ps : List (ℕ × ℕ)}
    (hps : ∀ p ∈ ps, ∃ k : ℕ, (mountains g)[k]? = some (treeAbove g p) ∧
      Below (treeAbove g p).1 (treeAbove g p).2 p.1 p.2) :
    OldPeaksHold H g (peakHashes H (L.take g)) ps (ps.map fun p => mmrNode H L p.1 p.2)
      (ps.map fun p => siblingHashes H L p (treeAbove g p)) := by
  induction ps with
  | nil => trivial
  | cons p ps ih =>
      obtain ⟨k, hq, hb⟩ := hps p List.mem_cons_self
      have hdvd := dvd_left (mem_mountains (List.mem_of_getElem? hq)).1
      refine ⟨⟨k, treeAbove g p, hq, hb, length_siblings _ _ _ _ _ _ _, ?_⟩,
        ih fun p hp => hps p (List.mem_cons_of_mem _ hp)⟩
      rw [peakHashes_take hg, List.getElem?_map, hq]
      exact congrArg some (hb.foldl_up _ _ _ hdvd).symm

/-- The honest proof between two sizes of a log is accepted. -/
theorem verifyConsistency_consistencyProof {L : List Digest} {f g : ℕ} (hfg : f ≤ g)
    (hg : g ≤ L.length) (hmax : (nodeCount g : ℤ) < maxMmrSize) :
    verifyConsistency H (bagged H (peakHashes H (L.take f))) (nodeCount f)
      (bagged H (peakHashes H (L.take g))) (nodeCount g) (consistencyProof H L f g) = true := by
  have hlenA : ∀ x ∈ peakHashes H (L.take f), x.length = 32 := fun x hx => length_of_mem_peakHashes hx
  have hlenB : ∀ x ∈ peakHashes H (L.take g), x.length = 32 := fun x hx => length_of_mem_peakHashes hx
  have hws : (consistencyProof H L f g).witness.mapM (fun w => w.mapM parseDigestHex) =
      some ((mountains f).map fun p => siblingHashes H L p (treeAbove g p)) := by
    unfold consistencyProof
    rw [Octets.mapM_eq_some_iff, List.map_map, List.map_map]
    exact List.map_congr_left fun p _ =>
      mapM_parseDigestHex_toHex fun x hx => length_of_mem_siblingHashes hx
  apply (verifyConsistencyBy_iff fun s b hs => (parseDigestHex_eq_some_iff.mp hs).2).mpr
  refine ⟨rfl, rfl, rfl, rfl, _, _, _, mapM_parseDigestHex_toHex hlenA, mapM_parseDigestHex_toHex hlenB, hws,
    length_bagged hlenA, length_bagged hlenB, f, g, rfl, rfl, hmax, hfg, ?_, ?_, ?_, rfl, rfl, ?_⟩
  · rw [peakHashes_take (hfg.trans hg), List.length_map]
  · rw [peakHashes_take hg, List.length_map]
  · rw [List.length_map]
  · rw [peakHashes_take (hfg.trans hg)]
    exact oldPeaksHold_honest hg fun p hp => treeAbove_spec hfg hp

/-- Rollback detection. Along a chain of accepted checkpoints, the last of which commits to a log, every
checkpoint commits to a prefix and no prefix is longer than a later one, or the run exhibits a collision.
The honest proof between two prefixes is accepted. -/
theorem rollback_detection (H : Hash) (L : List Digest) :
    (∀ (k : ℕ) (c : ℕ → Checkpoint) (proof : ℕ → ConsistencyProof) (current : ℕ → Option ℤ),
      (∀ i < k, (verifyCheckpointChain H (c i) (c (i + 1)) (proof i) (current i)).ok = true) →
      (c k).mmrSize = nodeCount L.length →
      (∃ root, (c k).rootBytes = some root ∧ mmrRoot H L = some root) →
      (∃ f : ℕ → ℕ,
        (∀ i ≤ k, f i ≤ L.length ∧ (c i).mmrSize = nodeCount (f i) ∧
          ∃ root, (c i).rootBytes = some root ∧ mmrRoot H (L.take (f i)) = some root) ∧
        ∀ i < k, f i ≤ f (i + 1)) ∨
      H.Collision (chainInputs H c proof k ++ mmrInputs H L)) ∧
    ∀ f g : ℕ, f ≤ g → g ≤ L.length → (nodeCount g : ℤ) < maxMmrSize →
      ∃ rootA rootB, mmrRoot H (L.take f) = some rootA ∧ mmrRoot H (L.take g) = some rootB ∧
        verifyConsistency H rootA (nodeCount f) rootB (nodeCount g) (consistencyProof H L f g) = true := by
  have hdefined : ∀ f ≤ L.length, (nodeCount f : ℤ) < maxMmrSize →
      mmrRoot H (L.take f) = some (bagged H (peakHashes H (L.take f))) := by
    intro f hf hmax
    apply mmrRoot_eq
    rw [List.length_take, Nat.min_eq_left hf]
    unfold maxMmrSize at hmax
    omega
  constructor
  · rintro k c proof current hok hsize ⟨root, hroot, hlog⟩
    by_cases hno : H.Collision (chainInputs H c proof k ++ mmrInputs H L)
    · exact Or.inr hno
    have hlast : OfLog H (chainInputs H c proof k ++ mmrInputs H L) L (c k).mmrSize root L.length := by
      refine ⟨le_rfl, hsize, ?_, ?_⟩
      · rw [List.take_length]
        exact bagged_of_mmrRoot hlog
      · rw [List.take_length]
        exact fun x hx => List.mem_append_right _ (List.mem_append_right _ hx)
    have hall : ∀ i, ∃ f, i ≤ k → f ≤ L.length ∧ (c i).mmrSize = nodeCount f ∧
        ∃ root, (c i).rootBytes = some root ∧ mmrRoot H (L.take f) = some root := by
      intro i
      rcases Nat.lt_or_ge k i with hik | hik
      · exact ⟨0, fun h => absurd h (not_le.mpr hik)⟩
      rcases Nat.eq_or_lt_of_le hik with rfl | hlt
      · refine ⟨L.length, fun _ => ⟨le_rfl, hsize, root, hroot, ?_⟩⟩
        rwa [List.take_length]
      · obtain ⟨root', f, hroot', ⟨hf, hsize', rfl, -⟩, hmax⟩ :=
          ofLog_of_chain hno hok hroot hlast (Nat.sub_le k i)
        rw [Nat.sub_sub_self hik] at hroot' hsize'
        exact ⟨f, fun _ => ⟨hf, hsize', _, hroot', hdefined f hf (hmax (by omega))⟩⟩
    obtain ⟨f, hf⟩ := Classical.axiom_of_choice hall
    refine Or.inl ⟨f, hf, fun i hi => nodeCount_strictMono.le_iff_le.mp ?_⟩
    have hle := (verifyCheckpointChain_ok_iff.mp (hok i hi)).2.1
    rw [(hf i (by omega)).2.1, (hf (i + 1) hi).2.1] at hle
    exact_mod_cast hle
  · intro f g hfg hg hmax
    have hle : nodeCount f ≤ nodeCount g := nodeCount_strictMono.monotone hfg
    exact ⟨_, _, hdefined f (hfg.trans hg) (by omega), hdefined g hg hmax,
      verifyConsistency_consistencyProof hfg hg hmax⟩

section Sample

/-- A log of two records. -/
def sampleLog : List Digest := [⟨List.replicate 32 1, rfl⟩, ⟨List.replicate 32 2, rfl⟩]

/-- The checkpoint of a log after its first `f` records. -/
def checkpointAt (H : Hash) (L : List Digest) (f : ℕ) : Checkpoint where
  v := 1
  kind := "mmr_checkpoint"
  logId := "sample"
  mmrSize := nodeCount f
  root := (bagged H (peakHashes H (L.take f))).toHex
  prevSize := 0
  prevRoot := ""
  keyId := "key"
  timestamp := "2026-01-01T00:00:00Z"
  signature := ""

theorem nodeCount_two : nodeCount 2 = 3 := by
  norm_num [nodeCount, popcount]

theorem verifyCheckpointChain_sample :
    (verifyCheckpointChain Hash.sha256 (checkpointAt Hash.sha256 sampleLog 1)
      (checkpointAt Hash.sha256 sampleLog 2) (consistencyProof Hash.sha256 sampleLog 1 2) none).ok =
      true := by
  apply verifyCheckpointChain_ok_iff.mpr
  refine ⟨rfl, ?_, _, _, Octets.fromHex_toHex _, Octets.fromHex_toHex _,
    verifyConsistency_consistencyProof one_le_two le_rfl ?_⟩
  · exact Int.ofNat_le.mpr (nodeCount_strictMono.monotone one_le_two)
  · rw [nodeCount_two]
    decide

/-- Two checkpoints of a log of two records, after the first and after both. -/
theorem rollback_detection_two :
    (∃ f : ℕ → ℕ,
      (∀ i ≤ 1, f i ≤ 2 ∧ (checkpointAt Hash.sha256 sampleLog (i + 1)).mmrSize = nodeCount (f i) ∧
        ∃ root, (checkpointAt Hash.sha256 sampleLog (i + 1)).rootBytes = some root ∧
          mmrRoot Hash.sha256 (sampleLog.take (f i)) = some root) ∧
      ∀ i < 1, f i ≤ f (i + 1)) ∨
    Hash.sha256.Collision
      (chainInputs Hash.sha256 (fun i => checkpointAt Hash.sha256 sampleLog (i + 1))
        (fun _ => consistencyProof Hash.sha256 sampleLog 1 2) 1 ++ mmrInputs Hash.sha256 sampleLog) := by
  apply (rollback_detection Hash.sha256 sampleLog).1 1
    (fun i => checkpointAt Hash.sha256 sampleLog (i + 1))
    (fun _ => consistencyProof Hash.sha256 sampleLog 1 2) fun _ => none
  · intro i hi
    obtain rfl : i = 0 := by omega
    exact verifyCheckpointChain_sample
  · rfl
  · refine ⟨_, Octets.fromHex_toHex _, mmrRoot_eq ?_⟩
    show nodeCount 2 < 2 ^ 64
    rw [nodeCount_two]
    decide

end Sample

end ScittCose.Cll
