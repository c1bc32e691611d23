import ScittCose.Cll.Browser
import ScittCose.Cll.Rollback

/-!
# The browser's verifiers against the library's

On the same data each verifier of `MMR_JS` is the library's with the browser's reader of digests
(`MmrJs.verifyInclusion_eq`, `verifyConsistency_eq`, `verifyRange_eq`). So the two differ on one kind of
proof, those whose digests hold and are written with white space between octets (`verifiers_agree_iff`).
-/

namespace ScittCose.MmrJs

open Cll Js

variable {H : Hash}

/-! ## One verifier, two readers -/

/-- The path to a node below a root of a range. -/
theorem locatePath_peakPos {f : ℕ} (hmax : (Mmr.nodeCount f : ℤ) < Cll.maxMmrSize) {p q : ℕ × ℕ}
    (hq : q ∈ Mmr.mountains f) (hb : Mmr.Below q.1 q.2 p.1 p.2) :
    locatePath (peakPos q) q.1 (peakPos p) =
        (Cll.locatePath (peakPos q) (Cll.heightAt (peakPos q)) (peakPos p)).map stepOf ∧
      ∀ step ∈ Cll.locatePath (peakPos q) (Cll.heightAt (peakPos q)) (peakPos p),
        step.parentPos < 2 ^ 50 := by
  have hdvd := Mmr.dvd_left (Mmr.mem_mountains hq).1
  have hpos := Nat.two_pow_pos (q.1 + 1)
  have hroot : peakPos q = Mmr.nodeCount q.2 + (2 ^ (q.1 + 1) - 2) := rfl
  rw [Cll.heightAt_peakPos hq]
  refine ⟨locatePath_eq (peakPos_lt hmax hq) (by omega), fun step hstep => ?_⟩
  have hmem : (step.targetIsRight, step.parentPos) ∈ Mmr.path p.1 p.2 q.1 q.2 := by
    rw [← locatePath_map hb hdvd, Cll.heightAt_peakPos hq]
    exact List.mem_map_of_mem hstep
  exact lt_of_le_of_lt (hb.path_le hdvd hmem) (peakPos_lt hmax hq)

theorem findContainingPeak_mountains {f : ℕ} (hmax : (Mmr.nodeCount f : ℤ) < Cll.maxMmrSize) (p : ℕ) :
    findContainingPeak p (((Mmr.mountains f).map peakPos).map Nat.cast) 0 =
      some (Cll.findContainingPeak p ((Mmr.mountains f).map peakPos)) := by
  rw [findContainingPeak_eq]
  · exact congrArg some Option.map_id'
  · intro q hq
    obtain ⟨r, hr, rfl⟩ := List.mem_map.mp hq
    exact peakPos_lt hmax hr

theorem inclusionBody_eq {rootHex bodyDigestHex : String} {root bodyDigest : Octets}
    (hroot : hexToBytes rootHex = some root) (hd : hexToBytes bodyDigestHex = some bodyDigest)
    (size leafIndex : ℤ) (proof : InclusionProof) :
    inclusionBody H rootHex size leafIndex bodyDigestHex proof =
      Cll.inclusionBody H parseDigestHex root size leafIndex bodyDigest proof := by
  unfold inclusionBody Cll.inclusionBody
  rw [hroot, hd]
  simp only [Option.bind_eq_bind, Option.bind_some, not_le]
  refine congrArg (Option.bind _) (funext fun _ => congrArg (Option.bind _) (funext fun _ => ?_))
  refine ite_congr rfl (fun _ => rfl) fun _ => ?_
  refine ite_congr rfl (fun _ => rfl) fun _ => ?_
  refine ite_congr rfl (fun _ => rfl) fun hsize => ?_
  refine ite_congr rfl (fun _ => rfl) fun hindex => ?_
  rw [leafCountFromSize_eq]
  rcases hcount : leafCount size with _ | f
  · rfl
  obtain ⟨rfl, hmax⟩ := leafCount_eq_some_iff.mp hcount
  rw [Option.map_some, Option.bind_some, Option.bind_some]
  refine ite_congr rfl (fun _ => rfl) fun hlt => ?_
  obtain ⟨i, rfl⟩ := Int.eq_ofNat_of_zero_le (not_lt.mp hindex)
  have hi : i < f := by omega
  have hf : f ≤ Mmr.nodeCount f := Mmr.nodeCount_strictMono.le_apply
  have hi' : i ≤ 2 ^ 50 := by
    unfold Cll.maxMmrSize at hmax
    omega
  rw [leafIndexToPos_eq hi', Cll.leafIndexToPos_eq hmax hi, Option.map_some, Option.bind_some,
    Option.bind_some, peaks_nodeCount hmax, Cll.peaks_nodeCount hmax, Option.bind_some, Option.bind_some,
    findContainingPeak_mountains hmax, Option.bind_some]
  obtain ⟨q, hmem, hb⟩ := @Mmr.exists_mountain_below f 0 i (by simp) (by simpa using hi)
  obtain ⟨k, hfind, hq⟩ := @findContainingPeak_peak f (0, i) q hmem hb
  obtain ⟨hpath, hpos⟩ := @locatePath_peakPos f hmax (0, i) q hmem hb
  have hklt := (List.getElem?_eq_some_iff.mp hq).1
  have hget : (((Mmr.mountains f).map peakPos).map (Nat.cast : ℕ → ℤ))[k]? = some (peakPos q : ℤ) := by
    rw [List.getElem?_map, List.getElem?_map, hq]
    rfl
  have hget' : ((Mmr.mountains f).map peakPos)[k]? = some (peakPos q) := by
    rw [List.getElem?_map, hq]
    rfl
  have hlen : (Mmr.mountains f).length < 2 ^ 53 := by
    have hpop := Mmr.popcount_le f
    rw [← Mmr.length_mountains] at hpop
    unfold Cll.maxMmrSize at hmax
    omega
  have hrest : num (num (((((Mmr.mountains f).map peakPos).map (Nat.cast : ℕ → ℤ)).length : ℤ) -
      (k : ℕ)) - 1) = (((((Mmr.mountains f).map peakPos).length - k - 1 : ℕ)) : ℤ) := by
    rw [List.length_map, List.length_map,
      num_eq (show -2 ^ 53 < ((Mmr.mountains f).length : ℤ) - (k : ℕ) by omega) (by omega),
      num_eq (by omega) (by omega)]
    omega
  rw [hfind]
  dsimp only
  rw [hget, hget', Option.bind_some, Option.bind_some, heightAt_peakPos hmax hmem, Option.bind_some, hpath,
    List.length_map, hrest]
  refine ite_congr rfl (fun _ => rfl) fun _ => ?_
  refine ite_congr rfl (fun _ => rfl) fun _ => ?_
  refine ite_congr (by rw [ne_eq, Nat.cast_inj]) (fun _ => rfl) fun _ => ?_
  refine congrArg (Option.bind _) (funext fun w => congrArg (Option.bind _) (funext fun l =>
    congrArg (Option.bind _) (funext fun r => congrArg (Option.bind _) (funext fun leaf => ?_))))
  rw [foldlM_climb_eq hpos]
  exact congrArg (Option.bind _) (funext fun acc => by rw [rootFromPeaks_eq])

theorem oldPeaksLoop_eq {g : ℕ} (hmax : (Mmr.nodeCount g : ℤ) < Cll.maxMmrSize)
    (newPeaks : List Octets) {ps : List (ℕ × ℕ)}
    (hps : ∀ p ∈ ps, ∃ q ∈ Mmr.mountains g, Mmr.Below q.1 q.2 p.1 p.2) (olds : List Octets)
    (ws : List (List String)) :
    oldPeaksLoop H (((Mmr.mountains g).map peakPos).map Nat.cast) newPeaks
        ((ps.map peakPos).map Nat.cast) olds ws =
      Cll.oldPeaksLoop H parseDigestHex ((Mmr.mountains g).map peakPos) newPeaks (ps.map peakPos) olds
        ws := by
  induction ps generalizing olds ws with
  | nil =>
      unfold oldPeaksLoop Cll.oldPeaksLoop
      rfl
  | cons p ps ih =>
      rcases olds with _ | ⟨old, olds⟩
      · rfl
      rcases ws with _ | ⟨w, ws⟩
      · rfl
      obtain ⟨q, hmem, hb⟩ := hps p List.mem_cons_self
      obtain ⟨k, hfind, hq⟩ := @findContainingPeak_peak g p q hmem hb
      obtain ⟨hpath, hpos⟩ := @locatePath_peakPos g hmax p q hmem hb
      have hget : (((Mmr.mountains g).map peakPos).map (Nat.cast : ℕ → ℤ))[k]? =
          some (peakPos q : ℤ) := by
        rw [List.getElem?_map, List.getElem?_map, hq]
        rfl
      have hget' : ((Mmr.mountains g).map peakPos)[k]? = some (peakPos q) := by
        rw [List.getElem?_map, hq]
        rfl
      rw [List.map_cons, List.map_cons, oldPeaksLoop, Cll.oldPeaksLoop, findContainingPeak_mountains hmax,
        hfind]
      dsimp only [Option.bind_eq_bind, Option.bind_some]
      rw [hget, hget', Option.bind_some, Option.bind_some, heightAt_peakPos hmax hmem, Option.bind_some,
        hpath, List.length_map]
      refine ite_congr rfl (fun _ => rfl) fun _ => ?_
      refine congrArg (Option.bind _) (funext fun wb => ?_)
      rw [foldlM_climb_eq hpos]
      refine congrArg (Option.bind _) (funext fun acc => ?_)
      exact ite_congr rfl (fun _ => rfl) fun _ => ih (fun q hq => hps q (List.mem_cons_of_mem _ hq)) olds ws

theorem consistencyBody_eq {rootAHex rootBHex : String} {rootA rootB : Octets}
    (hA : hexToBytes rootAHex = some rootA) (hB : hexToBytes rootBHex = some rootB) (sizeA sizeB : ℤ)
    (proof : ConsistencyProof) :
    consistencyBody H rootAHex sizeA rootBHex sizeB proof =
      Cll.consistencyBody H parseDigestHex rootA sizeA rootB sizeB proof := by
  unfold consistencyBody Cll.consistencyBody
  rw [hA, hB]
  simp only [Option.bind_eq_bind, Option.bind_some, not_le]
  refine congrArg (Option.bind _) (funext fun _ => congrArg (Option.bind _) (funext fun _ => ?_))
  refine ite_congr rfl (fun _ => rfl) fun _ => ?_
  refine ite_congr rfl (fun _ => rfl) fun _ => ?_
  refine ite_congr rfl (fun _ => rfl) fun hneg => ?_
  refine ite_congr (propext ⟨fun h => by omega, Or.inr⟩) (fun _ => rfl) fun hle => ?_
  rw [peaks_eq, peaks_eq]
  rcases hpA : Cll.peaks sizeA with _ | pksA
  · rfl
  rcases hpB : Cll.peaks sizeB with _ | pksB
  · rfl
  obtain ⟨f, rfl, -, rfl⟩ := peaks_eq_some_iff.mp hpA
  obtain ⟨g, rfl, hmax, rfl⟩ := peaks_eq_some_iff.mp hpB
  have hfg : f ≤ g := Mmr.nodeCount_strictMono.le_iff_le.mp (by omega)
  simp only [Option.map_some, Option.bind_some, List.length_map]
  refine ite_congr rfl (fun _ => rfl) fun _ => ?_
  refine ite_congr rfl (fun _ => rfl) fun _ => ?_
  refine ite_congr rfl (fun _ => rfl) fun _ => ?_
  refine congrArg (Option.bind _) (funext fun old => congrArg (Option.bind _) (funext fun new => ?_))
  rw [rootFromPeaks_eq, rootFromPeaks_eq]
  refine congrArg (Option.bind _) (funext fun a => ite_congr rfl (fun _ => rfl) fun _ => ?_)
  refine congrArg (Option.bind _) (funext fun b => ite_congr rfl (fun _ => rfl) fun _ => ?_)
  exact oldPeaksLoop_eq hmax new (fun p hp => Mmr.exists_mountain_of_mem hfg hp) old proof.witness

theorem reconstructRangeSubtree_eq {lo hi : ℕ} {digests : ℤ → Option Octets}
    {digests' : ℕ → Option Octets} (hdigests : ∀ i : ℕ, digests i = digests' i) {p h s : ℕ}
    (hp : p < 2 ^ 50) (hlow : 2 ^ (h + 1) ≤ p + 2) (hs : s + 2 ^ h ≤ 2 ^ 52) (ws : List Octets) :
    reconstructRangeSubtree H lo hi digests p h s ws =
      Cll.reconstructRangeSubtree H lo hi digests' p h s ws := by
  induction h generalizing p s ws with
  | zero =>
      have hend : num (num ((s : ℤ) + 2 ^ 0) - 1) = ((s + 2 ^ 0 - 1 : ℕ) : ℤ) := by
        rw [pow_zero] at hs
        rw [pow_zero, num_eq (show -2 ^ 53 < (s : ℤ) + 1 by omega) (by omega),
          num_eq (by omega) (by omega)]
        omega
      unfold reconstructRangeSubtree Cll.reconstructRangeSubtree
      rw [hend]
      dsimp only
      refine ite_congr (by rw [Nat.cast_lt, Nat.cast_lt]) (fun _ => rfl) fun _ => ?_
      rw [hdigests]
      rfl
  | succ h ih =>
      have hpow : 2 ^ (h + 1) = 2 * 2 ^ h := pow_succ' 2 h
      have hpow2 : 2 ^ (h + 2) = 2 * 2 ^ (h + 1) := pow_succ' 2 (h + 1)
      have hpos := Nat.two_pow_pos h
      have hcast : (2 : ℤ) ^ (h + 1) = ((2 ^ (h + 1) : ℕ) : ℤ) := by norm_cast
      have hcast' : (2 : ℤ) ^ h = ((2 ^ h : ℕ) : ℤ) := by norm_cast
      have hend : num (num ((s : ℤ) + 2 ^ (h + 1)) - 1) = ((s + 2 ^ (h + 1) - 1 : ℕ) : ℤ) := by
        rw [hcast, num_eq (show -2 ^ 53 < (s : ℤ) + ((2 ^ (h + 1) : ℕ) : ℤ) by omega) (by omega),
          num_eq (by omega) (by omega)]
        omega
      have hleft : num ((p : ℤ) - 2 ^ (h + 1)) = ((p - 2 ^ (h + 1) : ℕ) : ℤ) := by
        rw [hcast, num_eq (by omega) (by omega)]
        omega
      have hright : num ((p : ℤ) - 1) = ((p - 1 : ℕ) : ℤ) := by
        rw [num_eq (by omega) (by omega)]
        omega
      have hhalf : num ((s : ℤ) + 2 ^ h) = ((s + 2 ^ h : ℕ) : ℤ) := by
        rw [hcast', num_eq (by omega) (by omega)]
        rfl
      unfold reconstructRangeSubtree Cll.reconstructRangeSubtree
      rw [hend]
      dsimp only
      rw [hleft, hright, hhalf, ih (by omega) (by omega) (by omega)]
      refine ite_congr (by rw [Nat.cast_lt, Nat.cast_lt]) (fun _ => rfl) fun _ => ?_
      refine congrArg (Option.bind _) (funext fun left => ?_)
      rw [ih (by omega) (by omega) (by omega)]
      refine congrArg (Option.bind _) (funext fun right => ?_)
      rw [interiorHash_eq hp]

theorem reconstructPeaks_eq {lo hi : ℕ} {digests : ℤ → Option Octets} {digests' : ℕ → Option Octets}
    (hdigests : ∀ i : ℕ, digests i = digests' i) {start f t : ℕ} (ht : 2 ^ t ∣ start) (hf : f < 2 ^ t)
    (hmax : Mmr.nodeCount (start + f) < 2 ^ 50) (ws : List Octets) :
    reconstructPeaks H lo hi digests (((Mmr.mountainsFrom start f).map peakPos).map Nat.cast) start ws =
      Cll.reconstructPeaks H lo hi digests' ((Mmr.mountainsFrom start f).map peakPos) start ws := by
  induction start, f using Mmr.mountainInduction generalizing t ws with
  | zero start =>
      rw [Mmr.mountainsFrom_zero]
      rfl
  | step start h r hr ih =>
      have hpow : 2 ^ (h + 1) = 2 * 2 ^ h := pow_succ' 2 h
      have hpos := Nat.two_pow_pos h
      have hht : h < t := (Nat.pow_lt_pow_iff_right one_lt_two).mp (by omega)
      have hdvd : 2 ^ (h + 1) ∣ start := (Nat.pow_dvd_pow 2 hht).trans ht
      have hheight : Cll.heightAt (peakPos (h, start)) = h := heightAt_pos (Mmr.dvd_left hdvd)
      have hcount : Mmr.nodeCount (start + 2 ^ h) ≤ Mmr.nodeCount (start + (2 ^ h + r)) :=
        Mmr.nodeCount_strictMono.monotone (by omega)
      have hstart : start + 2 ^ h ≤ Mmr.nodeCount (start + 2 ^ h) := Mmr.nodeCount_strictMono.le_apply
      have hroot : peakPos (h, start) = Mmr.nodeCount start + (2 ^ (h + 1) - 2) := rfl
      have hlt : peakPos (h, start) < 2 ^ 50 := by
        rw [Mmr.nodeCount_add_pow hdvd] at hcount
        omega
      have hnext : num ((start : ℤ) + 2 ^ h) = ((start + 2 ^ h : ℕ) : ℤ) := by
        have hcast : (2 : ℤ) ^ h = ((2 ^ h : ℕ) : ℤ) := by norm_cast
        rw [hcast, num_eq (by omega) (by omega)]
        rfl
      rw [Mmr.mountainsFrom_add hr, List.map_cons, List.map_cons, reconstructPeaks, Cll.reconstructPeaks,
        heightAt_eq hlt, hheight]
      dsimp only [Option.bind_eq_bind, Option.bind_some]
      rw [reconstructRangeSubtree_eq hdigests hlt (by omega) (by omega), hnext]
      refine congrArg (Option.bind _) (funext fun tree => ?_)
      rw [ih (Mmr.dvd_right hdvd) hr (by rwa [Nat.add_assoc])]

theorem mapM_assertDigest {hexes : List String} {digests : List Octets}
    (h : hexes.mapM hexToBytes = some digests) :
    (hexes.mapM fun hex => do
        let d ← hexToBytes hex
        assertDigest d
        return d) =
      (digests.forM assertDigest).map fun _ => digests := by
  induction hexes generalizing digests with
  | nil =>
      obtain rfl := Option.some.inj h
      rfl
  | cons hex hexes ih =>
      rw [List.mapM_cons] at h
      obtain ⟨d, hd, h⟩ := Option.bind_eq_some_iff.mp h
      obtain ⟨ds, hds, h⟩ := Option.bind_eq_some_iff.mp h
      obtain rfl := Option.some.inj h
      have hforM : (d :: ds).forM assertDigest = (assertDigest d).bind fun _ => ds.forM assertDigest := rfl
      rw [List.mapM_cons, hd, ih hds, hforM]
      simp only [Option.bind_eq_bind, Option.bind_some]
      rcases assertDigest d with _ | u
      · rfl
      · rcases ds.forM assertDigest with _ | u'
        · rfl
        · rfl

theorem rangeBody_eq {rootHex : String} {root : Octets} (hroot : hexToBytes rootHex = some root)
    {bodyDigestHexes : List String} {bodyDigests : List Octets}
    (hd : bodyDigestHexes.mapM hexToBytes = some bodyDigests) (fromSeq toSeq : ℤ) (proof : RangeProof) :
    rangeBody H rootHex fromSeq toSeq bodyDigestHexes proof =
      Cll.rangeBody H parseDigestHex root fromSeq toSeq bodyDigests proof := by
  unfold rangeBody Cll.rangeBody
  rw [hroot, mapM_assertDigest hd, leafCountFromSize_eq]
  simp only [Option.bind_eq_bind, Option.bind_some]
  refine congrArg (Option.bind _) (funext fun _ => ?_)
  refine ite_congr rfl (fun _ => rfl) fun _ => ?_
  refine ite_congr rfl (fun _ => rfl) fun hrange => ?_
  rcases hcount : leafCount proof.size with _ | m
  · rfl
  obtain ⟨hsize, hmax⟩ := leafCount_eq_some_iff.mp hcount
  rw [Option.map_some, Option.bind_some, Option.bind_some]
  refine ite_congr rfl (fun _ => rfl) fun hm => ?_
  rw [hsize] at hmax
  have hcountle : m ≤ Mmr.nodeCount m := Mmr.nodeCount_strictMono.le_apply
  have hmax' : Mmr.nodeCount m < 2 ^ 50 := by
    unfold Cll.maxMmrSize at hmax
    omega
  rw [num_eq (show -2 ^ 53 < fromSeq - 1 by omega) (by omega),
    num_eq (show -2 ^ 53 < toSeq - 1 by omega) (by omega)]
  refine ite_congr rfl (fun _ => rfl) fun hindex => ?_
  obtain ⟨lo, hlo⟩ := Int.eq_ofNat_of_zero_le (show 0 ≤ proof.fromIndex by omega)
  obtain ⟨hi, hhi⟩ := Int.eq_ofNat_of_zero_le (show 0 ≤ proof.toIndex by omega)
  have hlen : bodyDigestHexes.length = bodyDigests.length := (Octets.length_of_mapM hd).symm
  rw [num_eq (show -2 ^ 53 < proof.toIndex - proof.fromIndex by omega) (by omega),
    num_eq (by omega) (by omega), hlen]
  refine ite_congr rfl (fun _ => rfl) fun _ => ?_
  rcases bodyDigests.forM assertDigest with _ | u
  · rfl
  rw [Option.map_some, Option.bind_some, Option.bind_some]
  refine congrArg (Option.bind _) (funext fun ws => ?_)
  rw [hsize, peaks_nodeCount hmax, Cll.peaks_nodeCount hmax, Option.bind_some, Option.bind_some, hlo, hhi,
    Int.toNat_natCast, Int.toNat_natCast]
  have hdigests : ∀ i : ℕ, digestsByIndex lo bodyDigests i = digestByIndex lo bodyDigests i := by
    intro i
    unfold digestsByIndex digestByIndex
    refine ite_congr (by rw [Nat.cast_lt]) (fun _ => rfl) fun hge => ?_
    have hsub : ((i : ℤ) - (lo : ℤ)).toNat = i - lo := by omega
    rw [hsub]
  have hrec := @reconstructPeaks_eq H lo hi _ _ hdigests 0 m m (dvd_zero _) Nat.lt_two_pow_self
    (by rwa [Nat.zero_add]) ws
  rw [← Mmr.mountains, Nat.cast_zero] at hrec
  rw [hrec]
  refine congrArg (Option.bind _) (funext fun rebuilt => ?_)
  refine ite_congr rfl (fun _ => rfl) fun _ => ?_
  rw [rootFromPeaks_eq]

/-! ## Where they differ -/

/-- The entries of a proof that are read as digests. -/
def inclusionEntries (proof : InclusionProof) : List String :=
  proof.witness ++ proof.peaksLeft ++ proof.peaksRight

def consistencyEntries (proof : ConsistencyProof) : List String :=
  proof.oldPeaks ++ proof.newPeaks ++ proof.witness.flatten

/-- The proof is made for the arguments, and the digests of its entries hold. -/
def InclusionProves (H : Hash) (root : Octets) (size leafIndex : ℤ) (bodyDigest : Octets)
    (proof : InclusionProof) : Prop :=
  proof.v = 1 ∧ proof.kind = "inclusion" ∧ proof.size = size ∧ proof.leafIndex = leafIndex ∧
    ∃ w l r, proof.witness.mapM Cll.parseDigestHex = some w ∧
      proof.peaksLeft.mapM Cll.parseDigestHex = some l ∧
      proof.peaksRight.mapM Cll.parseDigestHex = some r ∧
      InclusionHolds H root size leafIndex bodyDigest w l r

def ConsistencyProves (H : Hash) (rootA : Octets) (sizeA : ℤ) (rootB : Octets) (sizeB : ℤ)
    (proof : ConsistencyProof) : Prop :=
  proof.v = 1 ∧ proof.kind = "consistency" ∧ proof.sizeA = sizeA ∧ proof.sizeB = sizeB ∧
    ∃ old new ws, proof.oldPeaks.mapM Cll.parseDigestHex = some old ∧
      proof.newPeaks.mapM Cll.parseDigestHex = some new ∧
      proof.witness.mapM (fun w => w.mapM Cll.parseDigestHex) = some ws ∧
      ConsistencyHolds H rootA sizeA rootB sizeB old new ws

def RangeProves (H : Hash) (root : Octets) (fromSeq toSeq : ℤ) (bodyDigests : List Octets)
    (proof : RangeProof) : Prop :=
  proof.fromSeq = fromSeq ∧ proof.toSeq = toSeq ∧ proof.fromIndex = fromSeq - 1 ∧
    proof.toIndex = toSeq - 1 ∧ ∃ m lo ws, fromSeq = (lo : ℕ) + 1 ∧ toSeq = (m : ℕ) ∧
      proof.size = Mmr.nodeCount m ∧ proof.witness.mapM Cll.parseDigestHex = some ws ∧
      RangeHolds H root m lo bodyDigests ws

theorem length_of_libraryDigest (s : String) (b : Octets) (h : Cll.parseDigestHex s = some b) :
    b.length = 32 :=
  (parseDigestHex_eq_some_iff.mp h).2

theorem length_of_browserDigest (s : String) (b : Octets) (h : parseDigestHex s = some b) :
    b.length = 32 := by
  rw [parseDigestHex_eq] at h
  split_ifs at h
  exact length_of_libraryDigest s b h

/-- The browser reads what the library reads without white space. -/
theorem mapM_parseDigestHex_iff {ss : List String} {bs : List Octets} :
    ss.mapM parseDigestHex = some bs ↔
      (∀ s ∈ ss, ¬ Spaced s) ∧ ss.mapM Cll.parseDigestHex = some bs := by
  rw [Octets.mapM_eq_some_iff, Octets.mapM_eq_some_iff]
  constructor
  · intro h
    have hclean : ∀ s ∈ ss, ¬ Spaced s := by
      intro s hs hsp
      have hmem : parseDigestHex s ∈ bs.map some := h ▸ List.mem_map_of_mem hs
      rw [parseDigestHex_eq, if_pos hsp] at hmem
      obtain ⟨b, -, hb⟩ := List.mem_map.mp hmem
      cases hb
    refine ⟨hclean, h ▸ List.map_congr_left fun s hs => ?_⟩
    rw [parseDigestHex_eq, if_neg (hclean s hs)]
  · rintro ⟨hclean, h⟩
    rw [← h]
    refine List.map_congr_left fun s hs => ?_
    rw [parseDigestHex_eq, if_neg (hclean s hs)]

theorem mapM_mapM_parseDigestHex_iff {wss : List (List String)} {bss : List (List Octets)} :
    wss.mapM (fun w => w.mapM parseDigestHex) = some bss ↔
      (∀ s ∈ wss.flatten, ¬ Spaced s) ∧
        wss.mapM (fun w => w.mapM Cll.parseDigestHex) = some bss := by
  induction wss generalizing bss with
  | nil => simp
  | cons w wss ih =>
      rw [List.mapM_cons, List.mapM_cons, List.flatten_cons]
      simp only [Option.bind_eq_bind, Option.bind_eq_some_iff, mapM_parseDigestHex_iff, ih,
        List.forall_mem_append]
      constructor
      · rintro ⟨wb, ⟨hw, hwb⟩, wbs, ⟨hws, hwbs⟩, h⟩
        exact ⟨⟨hw, hws⟩, wb, hwb, wbs, hwbs, h⟩
      · rintro ⟨⟨hw, hws⟩, wb, hwb, wbs, hwbs, h⟩
        exact ⟨wb, ⟨hw, hwb⟩, wbs, ⟨hws, hwbs⟩, h⟩

/-- The browser accepts what the library accepts without white space. -/
theorem verifyInclusion_iff {rootHex bodyDigestHex : String} {root bodyDigest : Octets}
    (hroot : hexToBytes rootHex = some root) (hd : hexToBytes bodyDigestHex = some bodyDigest)
    {size leafIndex : ℤ} {proof : InclusionProof} :
    verifyInclusion H rootHex size leafIndex bodyDigestHex proof = true ↔
      (∀ s ∈ inclusionEntries proof, ¬ Spaced s) ∧
        InclusionProves H root size leafIndex bodyDigest proof := by
  have heq : verifyInclusion H rootHex size leafIndex bodyDigestHex proof =
      verifyInclusionBy H parseDigestHex root size leafIndex bodyDigest proof :=
    congrArg (Option.getD · false) (inclusionBody_eq hroot hd size leafIndex proof)
  rw [heq, verifyInclusionBy_iff length_of_browserDigest]
  simp only [mapM_parseDigestHex_iff, inclusionEntries, List.forall_mem_append]
  constructor
  · rintro ⟨hv, hkind, hsize, hindex, w, l, r, ⟨hws, hw⟩, ⟨hls, hl⟩, ⟨hrs, hr⟩, h⟩
    exact ⟨⟨⟨hws, hls⟩, hrs⟩, hv, hkind, hsize, hindex, w, l, r, hw, hl, hr, h⟩
  · rintro ⟨⟨⟨hws, hls⟩, hrs⟩, hv, hkind, hsize, hindex, w, l, r, hw, hl, hr, h⟩
    exact ⟨hv, hkind, hsize, hindex, w, l, r, ⟨hws, hw⟩, ⟨hls, hl⟩, ⟨hrs, hr⟩, h⟩

theorem verifyConsistency_iff {rootAHex rootBHex : String} {rootA rootB : Octets}
    (hA : hexToBytes rootAHex = some rootA) (hB : hexToBytes rootBHex = some rootB) {sizeA sizeB : ℤ}
    {proof : ConsistencyProof} :
    verifyConsistency H rootAHex sizeA rootBHex sizeB proof = true ↔
      (∀ s ∈ consistencyEntries proof, ¬ Spaced s) ∧
        ConsistencyProves H rootA sizeA rootB sizeB proof := by
  have heq : verifyConsistency H rootAHex sizeA rootBHex sizeB proof =
      verifyConsistencyBy H parseDigestHex rootA sizeA rootB sizeB proof :=
    congrArg (Option.getD · false) (consistencyBody_eq hA hB sizeA sizeB proof)
  rw [heq, verifyConsistencyBy_iff length_of_browserDigest]
  simp only [mapM_parseDigestHex_iff, mapM_mapM_parseDigestHex_iff, consistencyEntries,
    List.forall_mem_append]
  constructor
  · rintro ⟨hv, hkind, hsA, hsB, old, new, ws, ⟨hos, ho⟩, ⟨hns, hn⟩, ⟨hwss, hws⟩, h⟩
    exact ⟨⟨⟨hos, hns⟩, hwss⟩, hv, hkind, hsA, hsB, old, new, ws, ho, hn, hws, h⟩
  · rintro ⟨⟨⟨hos, hns⟩, hwss⟩, hv, hkind, hsA, hsB, old, new, ws, ho, hn, hws, h⟩
    exact ⟨hv, hkind, hsA, hsB, old, new, ws, ⟨hos, ho⟩, ⟨hns, hn⟩, ⟨hwss, hws⟩, h⟩

theorem verifyRange_iff {rootHex : String} {root : Octets} (hroot : hexToBytes rootHex = some root)
    {bodyDigestHexes : List String} {bodyDigests : List Octets}
    (hd : bodyDigestHexes.mapM hexToBytes = some bodyDigests) {fromSeq toSeq : ℤ} {proof : RangeProof} :
    verifyRange H rootHex fromSeq toSeq bodyDigestHexes proof = true ↔
      (∀ s ∈ proof.witness, ¬ Spaced s) ∧ RangeProves H root fromSeq toSeq bodyDigests proof := by
  have heq : verifyRange H rootHex fromSeq toSeq bodyDigestHexes proof =
      verifyRangeBy H parseDigestHex root fromSeq toSeq bodyDigests proof :=
    congrArg (Option.getD · false) (rangeBody_eq hroot hd fromSeq toSeq proof)
  rw [heq, verifyRangeBy_iff length_of_browserDigest]
  simp only [mapM_parseDigestHex_iff]
  constructor
  · rintro ⟨hfrom, hto, hfi, hti, m, lo, ws, hlo, hm, hsize, ⟨hwss, hws⟩, h⟩
    exact ⟨hwss, hfrom, hto, hfi, hti, m, lo, ws, hlo, hm, hsize, hws, h⟩
  · rintro ⟨hwss, hfrom, hto, hfi, hti, m, lo, ws, hlo, hm, hsize, hws, h⟩
    exact ⟨hfrom, hto, hfi, hti, m, lo, ws, hlo, hm, hsize, ⟨hwss, hws⟩, h⟩

/-- A refinement differs from what it refines where only the latter holds. -/
theorem agree_iff {js py clean proves : Prop} (hjs : js ↔ clean ∧ proves) (hpy : py ↔ proves) :
    (js ↔ py) ↔ clean ∨ ¬ proves := by
  rw [hjs, hpy]
  tauto

/-- On the same data the three verifiers of the browser agree with the library's exactly when no entry of
the proof holds white space, or its digests do not hold. -/
theorem verifiers_agree_iff (H : Hash) :
    (∀ (rootHex bodyDigestHex : String) (root bodyDigest : Octets) (size leafIndex : ℤ)
        (proof : InclusionProof),
      hexToBytes rootHex = some root → hexToBytes bodyDigestHex = some bodyDigest →
        ((verifyInclusion H rootHex size leafIndex bodyDigestHex proof = true ↔
            Cll.verifyInclusion H root size leafIndex bodyDigest proof = true) ↔
          (∀ s ∈ inclusionEntries proof, ¬ Spaced s) ∨
            ¬ InclusionProves H root size leafIndex bodyDigest proof)) ∧
    (∀ (rootAHex rootBHex : String) (rootA rootB : Octets) (sizeA sizeB : ℤ)
        (proof : ConsistencyProof),
      hexToBytes rootAHex = some rootA → hexToBytes rootBHex = some rootB →
        ((verifyConsistency H rootAHex sizeA rootBHex sizeB proof = true ↔
            Cll.verifyConsistency H rootA sizeA rootB sizeB proof = true) ↔
          (∀ s ∈ consistencyEntries proof, ¬ Spaced s) ∨
            ¬ ConsistencyProves H rootA sizeA rootB sizeB proof)) ∧
    ∀ (rootHex : String) (root : Octets) (fromSeq toSeq : ℤ) (bodyDigestHexes : List String)
        (bodyDigests : List Octets) (proof : RangeProof),
      hexToBytes rootHex = some root → bodyDigestHexes.mapM hexToBytes = some bodyDigests →
        ((verifyRange H rootHex fromSeq toSeq bodyDigestHexes proof = true ↔
            Cll.verifyRange H root fromSeq toSeq bodyDigests proof = true) ↔
          (∀ s ∈ proof.witness, ¬ Spaced s) ∨ ¬ RangeProves H root fromSeq toSeq bodyDigests proof) := by
  refine ⟨?_, ?_, ?_⟩
  · intro rootHex bodyDigestHex root bodyDigest size leafIndex proof hroot hd
    exact agree_iff (verifyInclusion_iff hroot hd) (verifyInclusionBy_iff length_of_libraryDigest)
  · intro rootAHex rootBHex rootA rootB sizeA sizeB proof hA hB
    exact agree_iff (verifyConsistency_iff hA hB) (verifyConsistencyBy_iff length_of_libraryDigest)
  · intro rootHex root fromSeq toSeq bodyDigestHexes bodyDigests proof hroot hd
    exact agree_iff (verifyRange_iff hroot hd) (verifyRangeBy_iff length_of_libraryDigest)

section Sample

/-- The proof of the first of two records, with a space before its sibling. -/
def spacedProof : InclusionProof where
  v := 1
  kind := "inclusion"
  size := 3
  leafIndex := 0
  witness := [" " ++ (mmrNode Hash.sha256 sampleLog 0 1).toHex]
  peaksLeft := []
  peaksRight := []

theorem hexToBytes_toHex (b : Octets) : hexToBytes b.toHex = some b := by
  rw [hexToBytes_eq, Octets.fromHexStrict_toHex]

theorem inclusionProves_spaced :
    InclusionProves Hash.sha256 (mmrNode Hash.sha256 sampleLog 1 0) 3 0 (logEntry sampleLog 0)
      spacedProof := by
  have hb : Mmr.Below 1 0 0 0 := .left (.root 0 0)
  have hmountains : Mmr.mountains 2 = [(1, 0)] := by
    have h : Mmr.mountains (0 + 2 ^ 1) = Mmr.mountains 0 ++ [(1, 0)] :=
      Mmr.mountains_add_pow (dvd_zero _)
    have h0 : Mmr.mountains 0 = [] := Mmr.mountainsFrom_zero 0
    exact h.trans (by rw [h0]; rfl)
  have hparse : Cll.parseDigestHex (" " ++ (mmrNode Hash.sha256 sampleLog 0 1).toHex) =
      some (mmrNode Hash.sha256 sampleLog 0 1) := by
    apply parseDigestHex_eq_some_iff.mpr
    refine ⟨?_, length_mmrNode _ _ _⟩
    have hspace : ∀ s : String, Octets.fromHex (" " ++ s) = Octets.fromHex s := by
      intro s
      unfold Octets.fromHex
      have hchar : " ".toList = [' '] := by decide
      rw [String.toList_append, hchar, List.singleton_append, Octets.fromHexChars.eq_def]
      rfl
    rw [hspace, Octets.fromHex_toHex]
  refine ⟨rfl, rfl, rfl, rfl, [mmrNode Hash.sha256 sampleLog 0 1], [], [], ?_, rfl, rfl,
    length_mmrNode _ _ _, length_logEntry (by decide), 2, 0, (1, 0), ?_, by decide, rfl, ?_, hb, rfl, ?_, ?_⟩
  · show [" " ++ _].mapM Cll.parseDigestHex = _
    rw [List.mapM_cons, hparse]
    rfl
  · rw [nodeCount_two]
    rfl
  · rw [hmountains]
    rfl
  · rw [hmountains]
    rfl
  · exact (hb.foldl_up _ _ _ (dvd_zero _)).symm

theorem spaced_sibling_of_two :
    Spaced (" " ++ (mmrNode Hash.sha256 sampleLog 0 1).toHex) := by
  unfold Spaced
  rw [String.toList_append, List.any_append]
  rfl

/-- A space before a sibling: the library accepts the proof, the browser refuses it. -/
theorem spaced_sibling_refused :
    ¬ (verifyInclusion Hash.sha256 (mmrNode Hash.sha256 sampleLog 1 0).toHex 3 0
          (logEntry sampleLog 0).toHex spacedProof = true ↔
        Cll.verifyInclusion Hash.sha256 (mmrNode Hash.sha256 sampleLog 1 0) 3 0 (logEntry sampleLog 0)
          spacedProof = true) := by
  intro hagree
  have hcase := (agree_iff (verifyInclusion_iff (hexToBytes_toHex _) (hexToBytes_toHex _))
    (verifyInclusionBy_iff length_of_libraryDigest)).mp hagree
  rcases hcase with hclean | hno
  · exact hclean _ List.mem_cons_self spaced_sibling_of_two
  · exact hno inclusionProves_spaced

/-- The case of that proof. -/
theorem verifiers_agree_iff_spaced :
    (verifyInclusion Hash.sha256 (mmrNode Hash.sha256 sampleLog 1 0).toHex 3 0
          (logEntry sampleLog 0).toHex spacedProof = true ↔
        Cll.verifyInclusion Hash.sha256 (mmrNode Hash.sha256 sampleLog 1 0) 3 0 (logEntry sampleLog 0)
          spacedProof = true) ↔
      (∀ s ∈ inclusionEntries spacedProof, ¬ Spaced s) ∨
        ¬ InclusionProves Hash.sha256 (mmrNode Hash.sha256 sampleLog 1 0) 3 0 (logEntry sampleLog 0)
          spacedProof :=
  (verifiers_agree_iff Hash.sha256).1 _ _ _ _ 3 0 spacedProof (hexToBytes_toHex _) (hexToBytes_toHex _)

end Sample

end ScittCose.MmrJs
