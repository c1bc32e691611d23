import ScittCose.Cll.Hashing

/-!
# The verifiers of the checkpointed log (`scitt_cose/cll.py`)

`verify_inclusion`, `verify_consistency` and `verify_range`: total functions from a proof to a boolean,
every exception being a refusal. The reader of a proof's digests is a parameter of the three; the
library's own is `_parse_digest_hex`.

Over the digests read, `InclusionHolds`, `ConsistencyHolds` and `RangeHolds` say what is checked, on the
trees of `Mmr` (`verifyInclusionBy_iff`, `verifyConsistencyBy_iff`, `verifyRangeBy_iff`).
-/

namespace ScittCose.Cll

open Mmr

/-- `InclusionProof` -/
structure InclusionProof where
  v : ℤ
  kind : String
  size : ℤ
  leafIndex : ℤ
  witness : List String
  peaksLeft : List String
  peaksRight : List String

/-- `ConsistencyProof` -/
structure ConsistencyProof where
  v : ℤ
  kind : String
  sizeA : ℤ
  sizeB : ℤ
  oldPeaks : List String
  witness : List (List String)
  newPeaks : List String

/-- `RangeProof` -/
structure RangeProof where
  fromSeq : ℤ
  toSeq : ℤ
  size : ℤ
  fromIndex : ℤ
  toIndex : ℤ
  witness : List String

section Source

variable (H : Hash) (parse : String → Option Octets)

/-- One step of the folds of `verify_inclusion` and `verify_consistency`. -/
def climb (acc : Octets) (step : PathStep × Octets) : Option Octets :=
  if step.1.targetIsRight then interiorHash H step.2 acc step.1.parentPos
  else interiorHash H acc step.2 step.1.parentPos

/-- The body of `verify_inclusion`. -/
def inclusionBody (root : Octets) (size leafIndex : ℤ) (bodyDigest : Octets)
    (proof : InclusionProof) : Option Bool := do
  assertDigest root
  assertDigest bodyDigest
  if proof.v ≠ 1 ∨ proof.kind ≠ "inclusion" then return false
  if proof.size ≠ size ∨ proof.leafIndex ≠ leafIndex then return false
  if size < 0 ∨ maxMmrSize ≤ size then return false
  if leafIndex < 0 then return false
  let lc ← leafCount size
  if (lc : ℤ) ≤ leafIndex then return false
  let leafPos ← leafIndexToPos leafIndex
  let pks ← peaks size
  match findContainingPeak leafPos pks with
  | none => return false
  | some peakIdx =>
    let peakPos ← pks[peakIdx]?
    let path := locatePath peakPos (heightAt peakPos) leafPos
    if proof.witness.length ≠ path.length then return false
    if proof.peaksLeft.length ≠ peakIdx then return false
    if proof.peaksRight.length ≠ pks.length - peakIdx - 1 then return false
    let witnessBytes ← proof.witness.mapM parse
    let peaksLeftBytes ← proof.peaksLeft.mapM parse
    let peaksRightBytes ← proof.peaksRight.mapM parse
    let leaf ← leafHash H bodyDigest
    let acc ← (path.zip witnessBytes).foldlM (climb H) leaf
    let computedRoot ← rootFromPeaks H (peaksLeftBytes ++ acc :: peaksRightBytes)
    return computedRoot = root

/-- `verify_inclusion`, by a reader of digests. -/
def verifyInclusionBy (root : Octets) (size leafIndex : ℤ) (bodyDigest : Octets)
    (proof : InclusionProof) : Bool :=
  (inclusionBody H parse root size leafIndex bodyDigest proof).getD false

/-- The loop of `verify_consistency` over the old peaks. -/
def oldPeaksLoop (newPeakPositions : List ℕ) (newPeaksBytes : List Octets) :
    List ℕ → List Octets → List (List String) → Option Bool
  | p :: ps, old :: olds, w :: ws =>
    match findContainingPeak p newPeakPositions with
    | none => some false
    | some containingIdx => do
      let newPeakPos ← newPeakPositions[containingIdx]?
      let path := locatePath newPeakPos (heightAt newPeakPos) p
      if w.length ≠ path.length then return false
      let wBytes ← w.mapM parse
      let acc ← (path.zip wBytes).foldlM (climb H) old
      if newPeaksBytes[containingIdx]? ≠ some acc then return false
      oldPeaksLoop newPeakPositions newPeaksBytes ps olds ws
  | _, _, _ => some true

/-- The body of `verify_consistency`. -/
def consistencyBody (rootA : Octets) (sizeA : ℤ) (rootB : Octets) (sizeB : ℤ)
    (proof : ConsistencyProof) : Option Bool := do
  assertDigest rootA
  assertDigest rootB
  if proof.v ≠ 1 ∨ proof.kind ≠ "consistency" then return false
  if proof.sizeA ≠ sizeA ∨ proof.sizeB ≠ sizeB then return false
  if sizeA < 0 then return false
  if sizeB < sizeA then return false
  let oldPeakPositions ← peaks sizeA
  let newPeakPositions ← peaks sizeB
  if proof.oldPeaks.length ≠ oldPeakPositions.length then return false
  if proof.newPeaks.length ≠ newPeakPositions.length then return false
  if proof.witness.length ≠ oldPeakPositions.length then return false
  let oldPeaksBytes ← proof.oldPeaks.mapM parse
  let newPeaksBytes ← proof.newPeaks.mapM parse
  let computedA ← rootFromPeaks H oldPeaksBytes
  if computedA ≠ rootA then return false
  let computedB ← rootFromPeaks H newPeaksBytes
  if computedB ≠ rootB then return false
  oldPeaksLoop H parse newPeakPositions newPeaksBytes oldPeakPositions oldPeaksBytes proof.witness

/-- `verify_consistency`, by a reader of digests. -/
def verifyConsistencyBy (rootA : Octets) (sizeA : ℤ) (rootB : Octets) (sizeB : ℤ)
    (proof : ConsistencyProof) : Bool :=
  (consistencyBody H parse rootA sizeA rootB sizeB proof).getD false

/-- `digest_by_index`: the body digests under their leaf indices. -/
def digestByIndex (fromIndex : ℕ) (bodyDigests : List Octets) (i : ℕ) : Option Octets :=
  if i < fromIndex then none else bodyDigests[i - fromIndex]?

/-- `_reconstruct_range_subtree`: the hash and the witnesses that are left, the cursor being how many
were taken. The positions are those of a range, so no difference is negative. -/
def reconstructRangeSubtree (lo hi : ℕ) (bodyDigests : ℕ → Option Octets) :
    ℕ → ℕ → ℕ → List Octets → Option (Octets × List Octets)
  | pos, height, leafStart, witnessBytes =>
    let leafEnd := leafStart + 2 ^ height - 1
    if leafEnd < lo ∨ hi < leafStart then
      match witnessBytes with
      | [] => none
      | w :: rest => some (w, rest)
    else match height with
      | 0 => do
        let d ← bodyDigests leafStart
        let leaf ← leafHash H d
        return (leaf, witnessBytes)
      | h + 1 => do
        let (left, rest) ← reconstructRangeSubtree lo hi bodyDigests (pos - 2 ^ (h + 1)) h leafStart
          witnessBytes
        let (right, rest) ← reconstructRangeSubtree lo hi bodyDigests (pos - 1) h
          (leafStart + 2 ^ h) rest
        let hash ← interiorHash H left right pos
        return (hash, rest)

/-- The loop of `verify_range` over the peaks. -/
def reconstructPeaks (lo hi : ℕ) (bodyDigests : ℕ → Option Octets) :
    List ℕ → ℕ → List Octets → Option (List Octets × List Octets)
  | [], _, witnessBytes => some ([], witnessBytes)
  | p :: pks, leafStart, witnessBytes => do
    let h := heightAt p
    let (peak, rest) ← reconstructRangeSubtree H lo hi bodyDigests p h leafStart witnessBytes
    let (reconstructed, rest) ← reconstructPeaks lo hi bodyDigests pks (leafStart + 2 ^ h) rest
    return (peak :: reconstructed, rest)

/-- The body of `verify_range`. -/
def rangeBody (root : Octets) (fromSeq toSeq : ℤ) (bodyDigests : List Octets)
    (proof : RangeProof) : Option Bool := do
  assertDigest root
  if proof.fromSeq ≠ fromSeq ∨ proof.toSeq ≠ toSeq then return false
  if fromSeq < 1 ∨ toSeq < fromSeq then return false
  let lc ← leafCount proof.size
  if (lc : ℤ) ≠ toSeq then return false
  if proof.fromIndex ≠ fromSeq - 1 ∨ proof.toIndex ≠ toSeq - 1 then return false
  if (bodyDigests.length : ℤ) ≠ proof.toIndex - proof.fromIndex + 1 then return false
  bodyDigests.forM assertDigest
  let witnessBytes ← proof.witness.mapM parse
  let pks ← peaks proof.size
  let lo := proof.fromIndex.toNat
  let (reconstructedPeaks, rest) ← reconstructPeaks H lo proof.toIndex.toNat
    (digestByIndex lo bodyDigests) pks 0 witnessBytes
  if rest ≠ [] then return false
  let computedRoot ← rootFromPeaks H reconstructedPeaks
  return computedRoot = root

/-- `verify_range`, by a reader of digests. -/
def verifyRangeBy (root : Octets) (fromSeq toSeq : ℤ) (bodyDigests : List Octets)
    (proof : RangeProof) : Bool :=
  (rangeBody H parse root fromSeq toSeq bodyDigests proof).getD false

/-- `verify_inclusion` -/
def verifyInclusion : Octets → ℤ → ℤ → Octets → InclusionProof → Bool :=
  verifyInclusionBy H parseDigestHex

/-- `verify_consistency` -/
def verifyConsistency : Octets → ℤ → Octets → ℤ → ConsistencyProof → Bool :=
  verifyConsistencyBy H parseDigestHex

/-- `verify_range` -/
def verifyRange : Octets → ℤ → ℤ → List Octets → RangeProof → Bool :=
  verifyRangeBy H parseDigestHex

end Source

section Holds

variable (H : Hash)

/-- The value reached from a node with the siblings on the way up to a root. -/
def climbed (p q : ℕ × ℕ) (siblings : List Octets) (x : Octets) : Octets :=
  ((path p.1 p.2 q.1 q.2).zip siblings).foldl (up (innerNode H)) x

/-- Siblings lead from a digest, at a leaf of a range, to one of as many peaks as the range has, and the
peaks to a root. -/
def InclusionHolds (root : Octets) (size leafIndex : ℤ) (bodyDigest : Octets)
    (witness peaksLeft peaksRight : List Octets) : Prop :=
  root.length = 32 ∧ bodyDigest.length = 32 ∧ ∃ (f i : ℕ) (q : ℕ × ℕ),
    size = nodeCount f ∧ size < maxMmrSize ∧ leafIndex = i ∧
    (mountains f)[peaksLeft.length]? = some q ∧ Below q.1 q.2 0 i ∧
    witness.length = (path 0 i q.1 q.2).length ∧
    peaksLeft.length + peaksRight.length + 1 = (mountains f).length ∧
    root = bagged H (peaksLeft ++ climbed H (0, i) q witness (leafNode H bodyDigest) :: peaksRight)

/-- Siblings lead from each old peak to the new peak above it. -/
def OldPeaksHold (g : ℕ) (newPeaks : List Octets) :
    List (ℕ × ℕ) → List Octets → List (List Octets) → Prop
  | p :: ps, old :: olds, w :: ws =>
    (∃ (k : ℕ) (q : ℕ × ℕ), (mountains g)[k]? = some q ∧ Below q.1 q.2 p.1 p.2 ∧
      w.length = (path p.1 p.2 q.1 q.2).length ∧ newPeaks[k]? = some (climbed H p q w old)) ∧
    OldPeaksHold g newPeaks ps olds ws
  | _, _, _ => True

/-- Old peaks and new peaks bag to two roots, and siblings lead from each old peak to a new one. -/
def ConsistencyHolds (rootA : Octets) (sizeA : ℤ) (rootB : Octets) (sizeB : ℤ)
    (oldPeaks newPeaks : List Octets) (witness : List (List Octets)) : Prop :=
  rootA.length = 32 ∧ rootB.length = 32 ∧ ∃ f g : ℕ,
    sizeA = nodeCount f ∧ sizeB = nodeCount g ∧ sizeB < maxMmrSize ∧ f ≤ g ∧
    oldPeaks.length = (mountains f).length ∧ newPeaks.length = (mountains g).length ∧
    witness.length = (mountains f).length ∧
    rootA = bagged H oldPeaks ∧ rootB = bagged H newPeaks ∧
    OldPeaksHold H g newPeaks (mountains f) oldPeaks witness

end Holds

variable {H : Hash} {parse : String → Option Octets}

/-- A check that refuses is passed. -/
theorem unless_refused {c : Prop} [Decidable c] {o : Option Bool} :
    (if c then pure false else o) = some true ↔ ¬ c ∧ o = some true := by
  by_cases hc : c
  · simp [hc]
  · simp [hc]

/-! ## The way up -/

theorem locatePath_map {p q : ℕ × ℕ} (hb : Below q.1 q.2 p.1 p.2) (hq : 2 ^ q.1 ∣ q.2) :
    (locatePath (peakPos q) (heightAt (peakPos q)) (peakPos p)).map
      (fun step => (step.targetIsRight, step.parentPos)) = path p.1 p.2 q.1 q.2 := by
  have hheight : heightAt (peakPos q) = q.1 := heightAt_pos hq
  rw [hheight]
  exact locatePath_eq hb hq

theorem length_locatePath {p q : ℕ × ℕ} (hb : Below q.1 q.2 p.1 p.2) (hq : 2 ^ q.1 ∣ q.2) :
    (locatePath (peakPos q) (heightAt (peakPos q)) (peakPos p)).length =
      (path p.1 p.2 q.1 q.2).length := by
  rw [← locatePath_map hb hq, List.length_map]

/-- Over digests the fold raises nothing. -/
theorem foldlM_climb {steps : List PathStep} {siblings : List Octets} {acc : Octets}
    (hacc : acc.length = 32) (hsib : ∀ x ∈ siblings, x.length = 32)
    (hpos : ∀ step ∈ steps, step.parentPos + 1 < 2 ^ 64) :
    (steps.zip siblings).foldlM (climb H) acc =
      some (((steps.map fun step => (step.targetIsRight, step.parentPos)).zip siblings).foldl
        (up (innerNode H)) acc) := by
  induction steps generalizing siblings acc with
  | nil => rfl
  | cons step steps ih =>
      rcases siblings with _ | ⟨x, siblings⟩
      · rfl
      · have hx := hsib x List.mem_cons_self
        have hstep := hpos step List.mem_cons_self
        have hclimb : climb H acc (step, x) =
            some (up (innerNode H) acc ((step.targetIsRight, step.parentPos), x)) := by
          unfold climb up
          dsimp only
          split_ifs
          · exact interiorHash_eq_some_iff.mpr ⟨hx, hacc, hstep, rfl⟩
          · exact interiorHash_eq_some_iff.mpr ⟨hacc, hx, hstep, rfl⟩
        have hlen : (up (innerNode H) acc ((step.targetIsRight, step.parentPos), x)).length = 32 := by
          unfold up
          split_ifs
          · exact H.length_digest _
          · exact H.length_digest _
        rw [List.zip_cons_cons, List.foldlM_cons, hclimb]
        exact ih hlen (fun y hy => hsib y (List.mem_cons_of_mem _ hy))
          fun y hy => hpos y (List.mem_cons_of_mem _ hy)

/-- The fold from a node of a range up to its root. -/
theorem foldlM_locatePath {f : ℕ} {p q : ℕ × ℕ} {siblings : List Octets} {acc : Octets}
    (hmax : (nodeCount f : ℤ) < maxMmrSize) (hq : q ∈ mountains f) (hb : Below q.1 q.2 p.1 p.2)
    (hacc : acc.length = 32) (hsib : ∀ x ∈ siblings, x.length = 32) :
    ((locatePath (peakPos q) (heightAt (peakPos q)) (peakPos p)).zip siblings).foldlM (climb H) acc =
      some (climbed H p q siblings acc) := by
  have hdvd := dvd_left (mem_mountains hq).1
  rw [foldlM_climb hacc hsib, locatePath_map hb hdvd]
  · rfl
  · intro step hstep
    have hmem : (step.targetIsRight, step.parentPos) ∈ path p.1 p.2 q.1 q.2 := by
      rw [← locatePath_map hb hdvd]
      exact List.mem_map_of_mem hstep
    have hle := hb.path_le hdvd hmem
    have hlt := pos_lt_nodeCount hq
    dsimp only at hle
    unfold maxMmrSize at hmax
    omega

/-- The peak found is the one above. -/
theorem findContainingPeak_peak {f : ℕ} {p q : ℕ × ℕ} (hq : q ∈ mountains f)
    (hb : Below q.1 q.2 p.1 p.2) :
    ∃ k, findContainingPeak (peakPos p) ((mountains f).map peakPos) = some k ∧
      (mountains f)[k]? = some q :=
  findContainingPeak_eq hq hb

/-! ## Inclusion -/

theorem length_of_mapM_parse (hparse : ∀ s b, parse s = some b → b.length = 32) {ss : List String}
    {bs : List Octets} (h : ss.mapM parse = some bs) : ∀ b ∈ bs, b.length = 32 := by
  intro b hb
  have hmem : some b ∈ ss.map parse := by
    rw [Octets.mapM_eq_some_iff.mp h]
    exact List.mem_map_of_mem hb
  obtain ⟨s, -, hs⟩ := List.mem_map.mp hmem
  exact hparse s b hs

theorem leafIndexToPos_eq {f i : ℕ} (hmax : (nodeCount f : ℤ) < maxMmrSize) (hi : i < f) :
    leafIndexToPos i = some (peakPos (0, i)) := by
  have hlt : nodeCount i < nodeCount f := nodeCount_strictMono hi
  have hpos : peakPos (0, i) = nodeCount i := pos_zero i
  unfold leafIndexToPos
  rw [if_neg (by omega), Int.toNat_natCast, if_neg (by omega), hpos]

/-- The peak above a leaf is the one found, at one index. -/
theorem findContainingPeak_index {f k : ℕ} {p q : ℕ × ℕ} (hq : (mountains f)[k]? = some q)
    (hb : Below q.1 q.2 p.1 p.2) :
    findContainingPeak (peakPos p) ((mountains f).map peakPos) = some k := by
  obtain ⟨k', hfind, hk'⟩ := findContainingPeak_peak (List.mem_of_getElem? hq) hb
  obtain ⟨hlt, hget⟩ := List.getElem?_eq_some_iff.mp hq
  obtain ⟨hlt', hget'⟩ := List.getElem?_eq_some_iff.mp hk'
  have hk : k' = k := (nodup_mountains f).getElem_inj_iff.mp (hget'.trans hget.symm)
  rwa [hk] at hfind

theorem length_leafNode (d : Octets) : (leafNode H d).length = 32 := H.length_digest _

theorem length_climbed (p q : ℕ × ℕ) (siblings : List Octets) {x : Octets} (hx : x.length = 32) :
    (climbed H p q siblings x).length = 32 := by
  unfold climbed
  generalize (path p.1 p.2 q.1 q.2).zip siblings = steps
  induction steps generalizing x with
  | nil => exact hx
  | cons step steps ih =>
      apply ih
      unfold up
      split_ifs
      · exact H.length_digest _
      · exact H.length_digest _

/-- The checks of the body after those on the fields. -/
theorem inclusion_checks {f i : ℕ} (hmax : (nodeCount f : ℤ) < maxMmrSize) (hi : i < f)
    {root bodyDigest : Octets} (hroot : root.length = 32) (hd : bodyDigest.length = 32)
    {w l r : List Octets} (hw : ∀ x ∈ w, x.length = 32) (hl : ∀ x ∈ l, x.length = 32)
    (hr : ∀ x ∈ r, x.length = 32) :
    InclusionHolds H root (nodeCount f) i bodyDigest w l r ↔
      ∃ k p, findContainingPeak (peakPos (0, i)) ((mountains f).map peakPos) = some k ∧
        ((mountains f).map peakPos)[k]? = some p ∧
        w.length = (locatePath p (heightAt p) (peakPos (0, i))).length ∧ l.length = k ∧
        r.length = (mountains f).length - k - 1 ∧
        ∃ acc, ((locatePath p (heightAt p) (peakPos (0, i))).zip w).foldlM (climb H)
            (leafNode H bodyDigest) = some acc ∧
          rootFromPeaks H (l ++ acc :: r) = some root := by
  have hbag : ∀ acc : Octets, acc.length = 32 → ∀ x ∈ l ++ acc :: r, x.length = 32 := by
    intro acc hacc x hx
    rcases List.mem_append.mp hx with hx | hx
    · exact hl x hx
    · rcases List.mem_cons.mp hx with rfl | hx
      · exact hacc
      · exact hr x hx
  constructor
  · rintro ⟨-, -, f', i', q, hf, -, hi', hq, hb, hwlen, hlen, rfl⟩
    obtain rfl : f = f' := nodeCount_strictMono.injective (by exact_mod_cast hf)
    obtain rfl : i = i' := by exact_mod_cast hi'
    have hmem := List.mem_of_getElem? hq
    refine ⟨l.length, peakPos q, findContainingPeak_index hq hb, ?_, ?_, rfl, by omega, _,
      foldlM_locatePath hmax hmem hb (length_leafNode _) hw, rootFromPeaks_eq (hbag _ ?_)⟩
    · rw [List.getElem?_map, hq]
      rfl
    · rw [hwlen, length_locatePath hb (dvd_left (mem_mountains hmem).1)]
    · exact length_climbed _ _ _ (length_leafNode _)
  · rintro ⟨k, p, hfind, hp, hwlen, rfl, hrlen, acc, hacc, hbagged⟩
    obtain ⟨q, hmem, hb⟩ := @exists_mountain_below f 0 i (by simp) (by simpa using hi)
    obtain ⟨k', hfind', hq⟩ := findContainingPeak_peak hmem (p := (0, i)) hb
    obtain rfl : k' = l.length := Option.some.inj (hfind'.symm.trans hfind)
    rw [List.getElem?_map, hq] at hp
    obtain rfl : peakPos q = p := Option.some.inj hp
    rw [foldlM_locatePath (p := (0, i)) hmax hmem hb (length_leafNode _) hw] at hacc
    obtain rfl := Option.some.inj hacc
    rw [length_locatePath (p := (0, i)) hb (dvd_left (mem_mountains hmem).1)] at hwlen
    have hlt := (List.getElem?_eq_some_iff.mp hq).1
    exact ⟨hroot, hd, f, i, q, rfl, hmax, rfl, hq, hb, hwlen, by omega,
      (rootFromPeaks_eq_some_iff.mp hbagged).2⟩

/-- An inclusion proof is accepted when its digests hold. -/
theorem verifyInclusionBy_iff (hparse : ∀ s b, parse s = some b → b.length = 32) {root : Octets}
    {size leafIndex : ℤ} {bodyDigest : Octets} {proof : InclusionProof} :
    verifyInclusionBy H parse root size leafIndex bodyDigest proof = true ↔
      proof.v = 1 ∧ proof.kind = "inclusion" ∧ proof.size = size ∧ proof.leafIndex = leafIndex ∧
      ∃ w l r, proof.witness.mapM parse = some w ∧ proof.peaksLeft.mapM parse = some l ∧
        proof.peaksRight.mapM parse = some r ∧
        InclusionHolds H root size leafIndex bodyDigest w l r := by
  have hbody : verifyInclusionBy H parse root size leafIndex bodyDigest proof = true ↔
      inclusionBody H parse root size leafIndex bodyDigest proof = some true := by
    unfold verifyInclusionBy
    rcases inclusionBody H parse root size leafIndex bodyDigest proof with _ | _ | _ <;> simp
  rw [hbody]
  unfold inclusionBody
  simp only [Option.bind_eq_bind, Option.bind_eq_some_iff, unless_refused, assertDigest_eq_some_iff,
    leafCount_eq_some_iff, not_or, not_not]
  constructor
  · rintro ⟨-, hroot, -, hd, ⟨hv, hkind⟩, ⟨hsize, hindex⟩, ⟨hneg, hmax⟩, hineg, f, ⟨rfl, -⟩, hlt, leafPos,
      hleafPos, pks, hpks, hrest⟩
    obtain ⟨i, rfl⟩ := Int.eq_ofNat_of_zero_le (not_lt.mp hineg)
    have hmax' : (nodeCount f : ℤ) < maxMmrSize := not_le.mp hmax
    have hi : i < f := by omega
    rw [peaks_nodeCount hmax', Option.some.injEq] at hpks
    rw [leafIndexToPos_eq hmax' hi, Option.some.injEq] at hleafPos
    subst hpks hleafPos
    rcases hk : findContainingPeak (peakPos (0, i)) ((mountains f).map peakPos) with _ | k
    · rw [hk] at hrest
      cases hrest
    · rw [hk] at hrest
      dsimp only at hrest
      simp only [Option.bind_eq_some_iff, unless_refused, not_not] at hrest
      obtain ⟨p, hp, hwlen, hllen, hrlen, w, hw, l, hl, r, hr, leaf, hleaf, acc, hacc, computed,
        hcomputed, hroot'⟩ := hrest
      obtain ⟨-, rfl⟩ := leafHash_eq_some_iff.mp hleaf
      obtain rfl : computed = root := by simpa using hroot'
      refine ⟨hv, hkind, hsize, hindex, w, l, r, hw, hl, hr, ?_⟩
      rw [inclusion_checks hmax' hi hroot hd (length_of_mapM_parse hparse hw)
        (length_of_mapM_parse hparse hl) (length_of_mapM_parse hparse hr)]
      refine ⟨k, p, hk, hp, ?_, ?_, ?_, acc, hacc, hcomputed⟩
      · rw [Octets.length_of_mapM hw, hwlen]
      · rw [Octets.length_of_mapM hl, hllen]
      · rw [Octets.length_of_mapM hr, hrlen, List.length_map]
  · rintro ⟨hv, hkind, hsize, hindex, w, l, r, hw, hl, hr, hholds⟩
    obtain ⟨hroot, hd, f, i, q, rfl, hmax, rfl, hq, hb, -⟩ := id hholds
    have hi : i < f := by
      have hmem := mem_mountains (List.mem_of_getElem? hq)
      have hleaves := hb.leaves (dvd_left hmem.1)
      omega
    rw [inclusion_checks hmax hi hroot hd (length_of_mapM_parse hparse hw)
      (length_of_mapM_parse hparse hl) (length_of_mapM_parse hparse hr)] at hholds
    obtain ⟨k, p, hk, hp, hwlen, hllen, hrlen, acc, hacc, hcomputed⟩ := hholds
    refine ⟨(), hroot, (), hd, ⟨hv, hkind⟩, ⟨hsize, hindex⟩, ⟨by omega, not_le.mpr hmax⟩, by omega, f,
      ⟨rfl, hmax⟩, by omega, _, leafIndexToPos_eq hmax hi, _, peaks_nodeCount hmax, ?_⟩
    rw [hk]
    dsimp only
    simp only [Option.bind_eq_some_iff, unless_refused, not_not]
    refine ⟨p, hp, ?_, ?_, ?_, w, hw, l, hl, r, hr, _, leafHash_eq_some_iff.mpr ⟨hd, rfl⟩, acc, hacc,
      root, hcomputed, by simp⟩
    · rw [← Octets.length_of_mapM hw, hwlen]
    · rw [← Octets.length_of_mapM hl, hllen]
    · rw [← Octets.length_of_mapM hr, hrlen, List.length_map]

/-! ## Consistency -/

/-- One old peak. -/
theorem oldPeaksLoop_cons {g k : ℕ} (hmax : (nodeCount g : ℤ) < maxMmrSize) {p q : ℕ × ℕ}
    (hq : (mountains g)[k]? = some q) (hb : Below q.1 q.2 p.1 p.2) {newPeaks olds : List Octets}
    {old : Octets} {ps : List ℕ} {w : List String} {ws : List (List String)}
    (hparse : ∀ s b, parse s = some b → b.length = 32) (hold : old.length = 32) :
    oldPeaksLoop H parse ((mountains g).map peakPos) newPeaks (peakPos p :: ps) (old :: olds)
        (w :: ws) = some true ↔
      ∃ wb, w.mapM parse = some wb ∧ wb.length = (path p.1 p.2 q.1 q.2).length ∧
        newPeaks[k]? = some (climbed H p q wb old) ∧
        oldPeaksLoop H parse ((mountains g).map peakPos) newPeaks ps olds ws = some true := by
  have hmem := List.mem_of_getElem? hq
  have hdvd := dvd_left (mem_mountains hmem).1
  have hget : ((mountains g).map peakPos)[k]? = some (peakPos q) := by
    rw [List.getElem?_map, hq]
    rfl
  rw [oldPeaksLoop, findContainingPeak_index hq hb]
  dsimp only
  rw [hget]
  simp only [Option.bind_eq_bind, Option.bind_some, Option.bind_eq_some_iff, unless_refused, not_not,
    length_locatePath hb hdvd]
  constructor
  · rintro ⟨hlen, wb, hwb, acc, hacc, hnew, hrest⟩
    rw [foldlM_locatePath hmax hmem hb hold (length_of_mapM_parse hparse hwb)] at hacc
    obtain rfl := Option.some.inj hacc
    exact ⟨wb, hwb, (Octets.length_of_mapM hwb).trans hlen, hnew, hrest⟩
  · rintro ⟨wb, hwb, hlen, hnew, hrest⟩
    exact ⟨(Octets.length_of_mapM hwb).symm.trans hlen, wb, hwb, _,
      foldlM_locatePath hmax hmem hb hold (length_of_mapM_parse hparse hwb), hnew, hrest⟩

/-- The loop accepts when siblings lead from each old peak to the new one above it. -/
theorem oldPeaksLoop_iff {g : ℕ} (hmax : (nodeCount g : ℤ) < maxMmrSize)
    (hparse : ∀ s b, parse s = some b → b.length = 32) {newPeaks : List Octets}
    {ps : List (ℕ × ℕ)} (hps : ∀ p ∈ ps, ∃ q ∈ mountains g, Below q.1 q.2 p.1 p.2)
    {olds : List Octets} (holds : ∀ old ∈ olds, old.length = 32) {ws : List (List String)}
    (hlen : olds.length = ps.length) (hwlen : ws.length = ps.length) :
    oldPeaksLoop H parse ((mountains g).map peakPos) newPeaks (ps.map peakPos) olds ws = some true ↔
      ∃ wbs, ws.mapM (fun w => w.mapM parse) = some wbs ∧ OldPeaksHold H g newPeaks ps olds wbs := by
  induction ps generalizing olds ws with
  | nil =>
      obtain rfl : ws = [] := List.length_eq_zero_iff.mp hwlen
      simp [oldPeaksLoop, OldPeaksHold]
  | cons p ps ih =>
      obtain ⟨old, olds, rfl⟩ := List.exists_cons_of_length_eq_add_one hlen
      obtain ⟨w, ws, rfl⟩ := List.exists_cons_of_length_eq_add_one hwlen
      obtain ⟨q, hmem, hb⟩ := hps p List.mem_cons_self
      obtain ⟨k, -, hq⟩ := findContainingPeak_peak hmem hb
      have hrec := ih (fun p hp => hps p (List.mem_cons_of_mem _ hp))
        (fun x hx => holds x (List.mem_cons_of_mem _ hx)) (by simpa using hlen) (by simpa using hwlen)
      rw [List.map_cons, oldPeaksLoop_cons hmax hq hb hparse (holds old List.mem_cons_self), List.mapM_cons]
      simp only [hrec, Option.bind_eq_bind, Option.bind_eq_some_iff, Option.pure_def,
        Option.some.injEq]
      constructor
      · rintro ⟨wb, hwb, hwlen', hnew, wbs, hwbs, hold⟩
        exact ⟨wb :: wbs, ⟨wb, hwb, wbs, hwbs, rfl⟩, ⟨k, q, hq, hb, hwlen', hnew⟩, hold⟩
      · rintro ⟨-, ⟨wb, hwb, wbs, hwbs, rfl⟩, ⟨k', q', hq', hb', hwlen', hnew⟩, hold⟩
        -- the peak above is one peak
        obtain rfl : k = k' := Option.some.inj
          ((findContainingPeak_index hq hb).symm.trans (findContainingPeak_index hq' hb'))
        obtain rfl : q = q' := Option.some.inj (hq.symm.trans hq')
        exact ⟨wb, hwb, hwlen', hnew, wbs, hwbs, hold⟩

/-- A consistency proof is accepted when its digests hold. -/
theorem verifyConsistencyBy_iff (hparse : ∀ s b, parse s = some b → b.length = 32)
    {rootA rootB : Octets} {sizeA sizeB : ℤ} {proof : ConsistencyProof} :
    verifyConsistencyBy H parse rootA sizeA rootB sizeB proof = true ↔
      proof.v = 1 ∧ proof.kind = "consistency" ∧ proof.sizeA = sizeA ∧ proof.sizeB = sizeB ∧
      ∃ old new ws, proof.oldPeaks.mapM parse = some old ∧ proof.newPeaks.mapM parse = some new ∧
        proof.witness.mapM (fun w => w.mapM parse) = some ws ∧
        ConsistencyHolds H rootA sizeA rootB sizeB old new ws := by
  have hbody : verifyConsistencyBy H parse rootA sizeA rootB sizeB proof = true ↔
      consistencyBody H parse rootA sizeA rootB sizeB proof = some true := by
    unfold verifyConsistencyBy
    rcases consistencyBody H parse rootA sizeA rootB sizeB proof with _ | _ | _ <;> simp
  rw [hbody]
  unfold consistencyBody
  simp only [Option.bind_eq_bind, Option.bind_eq_some_iff, unless_refused, assertDigest_eq_some_iff,
    not_or, not_not]
  constructor
  · rintro ⟨-, hrootA, -, hrootB, ⟨hv, hkind⟩, ⟨hsizeA, hsizeB⟩, hneg, hle, ops, hops, nps, hnps, holen,
      hnlen, hwlen, old, hold, new, hnew, a, ha, rfl, b, hb, rfl, hloop⟩
    obtain ⟨f, rfl, -, rfl⟩ := peaks_eq_some_iff.mp hops
    obtain ⟨g, rfl, hmax, rfl⟩ := peaks_eq_some_iff.mp hnps
    rw [List.length_map] at holen hnlen hwlen
    have hfg : f ≤ g := nodeCount_strictMono.le_iff_le.mp (by omega)
    rw [oldPeaksLoop_iff hmax hparse (fun p hp => exists_mountain_of_mem hfg hp)
      (length_of_mapM_parse hparse hold) ((Octets.length_of_mapM hold).trans holen) hwlen] at hloop
    obtain ⟨ws, hws, hholds⟩ := hloop
    exact ⟨hv, hkind, hsizeA, hsizeB, old, new, ws, hold, hnew, hws, hrootA, hrootB, f, g, rfl, rfl, hmax,
      hfg, (Octets.length_of_mapM hold).trans holen, (Octets.length_of_mapM hnew).trans hnlen,
      (Octets.length_of_mapM hws).trans hwlen, (rootFromPeaks_eq_some_iff.mp ha).2,
      (rootFromPeaks_eq_some_iff.mp hb).2, hholds⟩
  · rintro ⟨hv, hkind, hsizeA, hsizeB, old, new, ws, hold, hnew, hws, hrootA, hrootB, f, g, rfl, rfl, hmax,
      hfg, holen, hnlen, hwlen, ha, hb, hholds⟩
    have hle : nodeCount f ≤ nodeCount g := nodeCount_strictMono.monotone hfg
    refine ⟨(), hrootA, (), hrootB, ⟨hv, hkind⟩, ⟨hsizeA, hsizeB⟩, by omega, by omega, _,
      peaks_nodeCount (by omega), _, peaks_nodeCount hmax, ?_, ?_, ?_, old, hold, new, hnew, rootA,
      rootFromPeaks_eq_some_iff.mpr ⟨length_of_mapM_parse hparse hold, ha⟩, rfl, rootB,
      rootFromPeaks_eq_some_iff.mpr ⟨length_of_mapM_parse hparse hnew, hb⟩, rfl, ?_⟩
    · rw [List.length_map, ← Octets.length_of_mapM hold, holen]
    · rw [List.length_map, ← Octets.length_of_mapM hnew, hnlen]
    · rw [List.length_map, ← Octets.length_of_mapM hws, hwlen]
    · rw [oldPeaksLoop_iff hmax hparse (fun p hp => exists_mountain_of_mem hfg hp)
        (length_of_mapM_parse hparse hold) holen ((Octets.length_of_mapM hws).symm.trans hwlen)]
      exact ⟨ws, hws, hholds⟩

end ScittCose.Cll
