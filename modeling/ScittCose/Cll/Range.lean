import ScittCose.Cll.Checkpoint

/-!
# What a range proof rebuilds

`_reconstruct_range_subtree` computes the hash of a tree from body digests and witnesses. `Rebuilt` is
that tree before it is hashed: a witness where a subtree is wholly out of range, a digest at a leaf in
range (`reconstructRangeSubtree_eq`). `RangeHolds` is what `verify_range` checks, over the trees of a
range (`verifyRangeBy_iff`).

A rebuilt node in range with children shows its position, so it is the node of a log at that position
(`Rebuilt.eq_node_of_value`); a rebuilt leaf does not.
-/

namespace ScittCose.Cll

open Mmr

/-- A tree that is hashed, as far as a range proof shows it. -/
inductive Rebuilt where
  | witness (hash : Octets)
  | leaf (digest : Octets)
  | inner (pos : ℕ) (left right : Rebuilt)

section Source

variable (H : Hash)

/-- The hash of a tree. -/
def Rebuilt.value : Rebuilt → Octets
  | .witness hash => hash
  | .leaf digest => leafNode H digest
  | .inner pos left right => innerNode H pos left.value right.value

/-- What the hash of a tree hashes. -/
def Rebuilt.inputs : Rebuilt → List Octets
  | .witness _ => []
  | .leaf digest => [leafInput digest]
  | .inner pos left right =>
    interiorInput (left.value H) (right.value H) pos :: (left.inputs ++ right.inputs)

/-- The tree of height `h` over the leaves from `s` on, and the witnesses that are left. -/
def rebuild (lo hi : ℕ) (bodyDigests : ℕ → Option Octets) :
    ℕ → ℕ → List Octets → Option (Rebuilt × List Octets)
  | h, s, witnessBytes =>
    if s + 2 ^ h - 1 < lo ∨ hi < s then
      match witnessBytes with
      | [] => none
      | w :: rest => some (.witness w, rest)
    else match h with
      | 0 => (bodyDigests s).map fun d => (.leaf d, witnessBytes)
      | h + 1 => do
        let (left, rest) ← rebuild lo hi bodyDigests h s witnessBytes
        let (right, rest) ← rebuild lo hi bodyDigests h (s + 2 ^ h) rest
        return (.inner (pos (h + 1) s) left right, rest)

/-- The trees of a range. -/
def rebuildPeaks (lo hi : ℕ) (bodyDigests : ℕ → Option Octets) :
    List (ℕ × ℕ) → List Octets → Option (List Rebuilt × List Octets)
  | [], witnessBytes => some ([], witnessBytes)
  | p :: ps, witnessBytes => do
    let (tree, rest) ← rebuild lo hi bodyDigests p.1 p.2 witnessBytes
    let (trees, rest) ← rebuildPeaks lo hi bodyDigests ps rest
    return (tree :: trees, rest)

/-- Digests and witnesses rebuild the trees of `m` leaves, all witnesses are used, and the trees bag to
the root. The digests are those of the leaves from `lo` on. -/
def RangeHolds (root : Octets) (m lo : ℕ) (bodyDigests witness : List Octets) : Prop :=
  root.length = 32 ∧ lo + bodyDigests.length = m ∧ lo < m ∧ (nodeCount m : ℤ) < maxMmrSize ∧
    (∀ d ∈ bodyDigests, d.length = 32) ∧
    ∃ trees, rebuildPeaks lo (m - 1) (digestByIndex lo bodyDigests) (mountains m) witness =
        some (trees, []) ∧ root = bagged H (trees.map (Rebuilt.value H))

end Source

variable {H : Hash} {parse : String → Option Octets} {lo hi : ℕ} {bodyDigests : ℕ → Option Octets}

/-! ## The code rebuilds the trees -/

theorem rebuild_lengths {h s : ℕ} {ws rest : List Octets} {tree : Rebuilt}
    (hws : ∀ w ∈ ws, w.length = 32) (hr : rebuild lo hi bodyDigests h s ws = some (tree, rest)) :
    (tree.value H).length = 32 ∧ ∀ w ∈ rest, w.length = 32 := by
  induction h generalizing s ws rest tree with
  | zero =>
      unfold rebuild at hr
      split_ifs at hr
      · rcases ws with _ | ⟨w, ws⟩
        · cases hr
        · obtain ⟨rfl, rfl⟩ := Prod.mk.inj (Option.some.inj hr)
          exact ⟨hws w List.mem_cons_self, fun x hx => hws x (List.mem_cons_of_mem _ hx)⟩
      · obtain ⟨d, -, hr⟩ := Option.map_eq_some_iff.mp hr
        obtain ⟨rfl, rfl⟩ := Prod.mk.inj hr
        exact ⟨H.length_digest _, hws⟩
  | succ h ih =>
      unfold rebuild at hr
      split_ifs at hr
      · rcases ws with _ | ⟨w, ws⟩
        · cases hr
        · obtain ⟨rfl, rfl⟩ := Prod.mk.inj (Option.some.inj hr)
          exact ⟨hws w List.mem_cons_self, fun x hx => hws x (List.mem_cons_of_mem _ hx)⟩
      · obtain ⟨⟨left, mid⟩, hl, hr⟩ := Option.bind_eq_some_iff.mp hr
        obtain ⟨⟨right, end'⟩, hrr, hr⟩ := Option.bind_eq_some_iff.mp hr
        obtain ⟨rfl, rfl⟩ := Prod.mk.inj (Option.some.inj hr)
        exact ⟨H.length_digest _, (ih (ih hws hl).2 hrr).2⟩

/-- Over digests the code hashes the rebuilt tree. -/
theorem reconstructRangeSubtree_eq (hdigests : ∀ i d, bodyDigests i = some d → d.length = 32)
    {h s : ℕ} (hs : 2 ^ h ∣ s) (hpos : pos h s + 1 < 2 ^ 64) {ws : List Octets}
    (hws : ∀ w ∈ ws, w.length = 32) :
    reconstructRangeSubtree H lo hi bodyDigests (pos h s) h s ws =
      (rebuild lo hi bodyDigests h s ws).map fun r => (r.1.value H, r.2) := by
  induction h generalizing s ws with
  | zero =>
      unfold reconstructRangeSubtree rebuild
      dsimp only
      split_ifs
      · rcases ws with _ | ⟨w, ws⟩
        · rfl
        · rfl
      · rcases hd : bodyDigests s with _ | d
        · rfl
        · have hleaf : leafHash H d = some (leafNode H d) :=
            leafHash_eq_some_iff.mpr ⟨hdigests s d hd, rfl⟩
          simp only [Option.bind_eq_bind, Option.bind_some, hleaf, Option.map_some]
          rfl
  | succ h ih =>
      have hleft := pos_left h s
      have hright := pos_right hs
      have hposl : pos (h + 1) s - 2 ^ (h + 1) = pos h s := by omega
      have hposr : pos (h + 1) s - 1 = pos h (s + 2 ^ h) := by omega
      unfold reconstructRangeSubtree rebuild
      dsimp only
      split_ifs
      · rcases ws with _ | ⟨w, ws⟩
        · rfl
        · rfl
      · rw [hposl, hposr, ih (dvd_left hs) (by omega) hws]
        rcases hl : rebuild lo hi bodyDigests h s ws with _ | ⟨left, rest⟩
        · rfl
        · obtain ⟨hlenl, hrest⟩ := @rebuild_lengths H lo hi bodyDigests _ _ _ _ _ hws hl
          simp only [Option.bind_eq_bind, Option.map_some, Option.bind_some]
          rw [ih (dvd_right hs) (by omega) hrest]
          rcases hr : rebuild lo hi bodyDigests h (s + 2 ^ h) rest with _ | ⟨right, rest'⟩
          · rfl
          · obtain ⟨hlenr, -⟩ := @rebuild_lengths H lo hi bodyDigests _ _ _ _ _ hrest hr
            have hhash : interiorHash H (left.value H) (right.value H) (pos (h + 1) s) =
                some (innerNode H (pos (h + 1) s) (left.value H) (right.value H)) :=
              interiorHash_eq_some_iff.mpr ⟨hlenl, hlenr, hpos, rfl⟩
            simp only [Option.map_some, Option.bind_some, hhash]
            rfl

theorem rebuildPeaks_lengths {ps : List (ℕ × ℕ)} {ws rest : List Octets} {trees : List Rebuilt}
    (hws : ∀ w ∈ ws, w.length = 32)
    (hr : rebuildPeaks lo hi bodyDigests ps ws = some (trees, rest)) :
    (∀ x ∈ trees.map (Rebuilt.value H), x.length = 32) ∧ ∀ w ∈ rest, w.length = 32 := by
  induction ps generalizing ws trees with
  | nil =>
      obtain ⟨rfl, rfl⟩ := Prod.mk.inj (Option.some.inj hr)
      exact ⟨by simp, hws⟩
  | cons p ps ih =>
      obtain ⟨⟨tree, mid⟩, hl, hr⟩ := Option.bind_eq_some_iff.mp hr
      obtain ⟨⟨trees', rest'⟩, hrec, hr⟩ := Option.bind_eq_some_iff.mp hr
      obtain ⟨rfl, rfl⟩ := Prod.mk.inj (Option.some.inj hr)
      obtain ⟨hlen, hmid⟩ := @rebuild_lengths H _ _ _ _ _ _ _ _ hws hl
      obtain ⟨hrest, hend⟩ := ih hmid hrec
      rw [List.map_cons, List.forall_mem_cons]
      exact ⟨⟨hlen, hrest⟩, hend⟩

theorem reconstructPeaks_eq (hdigests : ∀ i d, bodyDigests i = some d → d.length = 32)
    {start f t : ℕ} (ht : 2 ^ t ∣ start) (hf : f < 2 ^ t) (hmax : nodeCount (start + f) < 2 ^ 64)
    {ws : List Octets} (hws : ∀ w ∈ ws, w.length = 32) :
    reconstructPeaks H lo hi bodyDigests ((mountainsFrom start f).map peakPos) start ws =
      (rebuildPeaks lo hi bodyDigests (mountainsFrom start f) ws).map
        fun r => (r.1.map (Rebuilt.value H), r.2) := by
  induction start, f using mountainInduction generalizing t ws with
  | zero start =>
      rw [mountainsFrom_zero]
      rfl
  | step start h r hr ih =>
      have hpow : 2 ^ (h + 1) = 2 * 2 ^ h := pow_succ' 2 h
      have hht : h < t := (Nat.pow_lt_pow_iff_right one_lt_two).mp (by omega)
      have hdvd : 2 ^ (h + 1) ∣ start := (Nat.pow_dvd_pow 2 hht).trans ht
      have hheight : heightAt (peakPos (h, start)) = h := heightAt_pos (dvd_left hdvd)
      have hcount : nodeCount (start + 2 ^ h) ≤ nodeCount (start + (2 ^ h + r)) :=
        nodeCount_strictMono.monotone (by omega)
      have hpos : pos h start + 1 < 2 ^ 64 := by
        rw [nodeCount_add_pow hdvd] at hcount
        have := Nat.two_pow_pos h
        unfold pos
        omega
      rw [mountainsFrom_add hr, List.map_cons, reconstructPeaks, rebuildPeaks, hheight]
      dsimp only
      rw [peakPos, reconstructRangeSubtree_eq hdigests (dvd_left hdvd) hpos hws]
      rcases hl : rebuild lo hi bodyDigests h start ws with _ | ⟨tree, rest⟩
      · rfl
      · obtain ⟨-, hrest⟩ := @rebuild_lengths H lo hi bodyDigests _ _ _ _ _ hws hl
        simp only [Option.bind_eq_bind, Option.map_some, Option.bind_some]
        rw [ih (dvd_right hdvd) hr (by rwa [Nat.add_assoc]) hrest]
        rcases rebuildPeaks lo hi bodyDigests (mountainsFrom (start + 2 ^ h) r) rest with
          _ | ⟨trees, rest'⟩
        · rfl
        · rfl

/-! ## What is checked -/

theorem length_of_digestByIndex {digests : List Octets} (h : ∀ d ∈ digests, d.length = 32) (i : ℕ)
    (d : Octets) (hd : digestByIndex lo digests i = some d) : d.length = 32 := by
  unfold digestByIndex at hd
  split_ifs at hd
  exact h d (List.mem_of_getElem? hd)

theorem forM_assertDigest_eq_some_iff {digests : List Octets} {u : PUnit} :
    digests.forM assertDigest = some u ↔ ∀ d ∈ digests, d.length = 32 := by
  induction digests with
  | nil => exact ⟨fun _ d hd => absurd hd List.not_mem_nil, fun _ => rfl⟩
  | cons d digests ih =>
      show (assertDigest d >>= fun _ => digests.forM assertDigest) = some u ↔ _
      simp only [Option.bind_eq_bind, Option.bind_eq_some_iff, assertDigest_eq_some_iff, ih,
        List.mem_cons, forall_eq_or_imp]
      exact ⟨fun ⟨_, h⟩ => h, fun h => ⟨(), h⟩⟩

/-- A range proof is accepted when its digests hold. -/
theorem verifyRangeBy_iff (hparse : ∀ s b, parse s = some b → b.length = 32) {root : Octets}
    {fromSeq toSeq : ℤ} {digests : List Octets} {proof : RangeProof} :
    verifyRangeBy H parse root fromSeq toSeq digests proof = true ↔
      proof.fromSeq = fromSeq ∧ proof.toSeq = toSeq ∧ proof.fromIndex = fromSeq - 1 ∧
      proof.toIndex = toSeq - 1 ∧ ∃ m lo ws, fromSeq = (lo : ℕ) + 1 ∧ toSeq = (m : ℕ) ∧
        proof.size = nodeCount m ∧ proof.witness.mapM parse = some ws ∧
        RangeHolds H root m lo digests ws := by
  have hbody : verifyRangeBy H parse root fromSeq toSeq digests proof = true ↔
      rangeBody H parse root fromSeq toSeq digests proof = some true := by
    unfold verifyRangeBy
    rcases rangeBody H parse root fromSeq toSeq digests proof with _ | _ | _ <;> simp
  rw [hbody]
  unfold rangeBody
  simp only [Option.bind_eq_bind, Option.bind_eq_some_iff, unless_refused, assertDigest_eq_some_iff,
    leafCount_eq_some_iff, forM_assertDigest_eq_some_iff, not_or, not_not]
  constructor
  · rintro ⟨-, hroot, ⟨hfrom, hto⟩, ⟨hpos, hle⟩, m, ⟨hsize, hmax⟩, rfl, ⟨hfi, hti⟩, hlen, -, hdigests, ws,
      hws, pks, hpks, ⟨peaks', rest⟩, hrec, hrest, computed, hcomputed, hroot'⟩
    obtain ⟨lo, hlo⟩ := Int.eq_ofNat_of_zero_le (show 0 ≤ fromSeq - 1 by omega)
    rw [hsize] at hmax hpks
    rw [peaks_nodeCount hmax, Option.some.injEq] at hpks
    subst hpks
    obtain rfl : computed = root := by simpa using hroot'
    obtain rfl : rest = [] := hrest
    have hmax' : nodeCount (0 + m) < 2 ^ 64 := by
      unfold maxMmrSize at hmax
      rw [Nat.zero_add]
      omega
    have hlo' : proof.fromIndex.toNat = lo := by omega
    have hhi' : proof.toIndex.toNat = m - 1 := by omega
    rw [hlo', hhi', mountains, reconstructPeaks_eq (length_of_digestByIndex hdigests)
      (dvd_zero (2 ^ m)) Nat.lt_two_pow_self hmax' (length_of_mapM_parse hparse hws)] at hrec
    obtain ⟨⟨trees, rest⟩, hreb, hval⟩ := Option.map_eq_some_iff.mp hrec
    obtain ⟨rfl, rfl⟩ := Prod.mk.inj hval
    exact ⟨hfrom, hto, hfi, hti, m, lo, ws, by omega, rfl, hsize, hws, hroot, by omega, by omega, hmax,
      hdigests, trees, hreb, (rootFromPeaks_eq_some_iff.mp hcomputed).2⟩
  · rintro ⟨hfrom, hto, hfi, hti, m, lo, ws, rfl, rfl, hsize, hws, hroot, hlen, hlt, hmax, hdigests, trees,
      hreb, hroot'⟩
    have hmax' : nodeCount (0 + m) < 2 ^ 64 := by
      unfold maxMmrSize at hmax
      rw [Nat.zero_add]
      omega
    have hlo' : proof.fromIndex.toNat = lo := by omega
    have hhi' : proof.toIndex.toNat = m - 1 := by omega
    have hrec := @reconstructPeaks_eq H lo (m - 1) _ (@length_of_digestByIndex lo digests hdigests) 0 m m
      (dvd_zero (2 ^ m)) Nat.lt_two_pow_self hmax' ws (length_of_mapM_parse hparse hws)
    rw [← mountains, hreb, Option.map_some] at hrec
    refine ⟨(), hroot, ⟨hfrom, hto⟩, ⟨by omega, by omega⟩, m, ⟨hsize, by omega⟩, rfl, ⟨hfi, hti⟩, by omega,
      ⟨⟩, hdigests, ws, hws, (mountains m).map peakPos, ?_, (trees.map (Rebuilt.value H), []), ?_, rfl,
      root, ?_, by simp⟩
    · rw [hsize]
      exact peaks_nodeCount hmax
    · rw [hlo', hhi']
      exact hrec
    · apply rootFromPeaks_eq_some_iff.mpr
      exact ⟨(rebuildPeaks_lengths (length_of_mapM_parse hparse hws) hreb).1, hroot'⟩

/-! ## What the rebuilt trees show -/

/-- A tree with a leaf in range is not a witness. -/
theorem rebuild_ne_witness {h s : ℕ} {ws rest : List Octets} {w : Octets} (hlo : lo < s + 2 ^ h)
    (hhi : s ≤ hi) : rebuild lo hi bodyDigests h s ws ≠ some (.witness w, rest) := by
  have hpos := Nat.two_pow_pos h
  intro hr
  unfold rebuild at hr
  rw [if_neg (by omega)] at hr
  rcases h with _ | h
  · obtain ⟨d, -, hr⟩ := Option.map_eq_some_iff.mp hr
    cases hr
  · obtain ⟨⟨left, mid⟩, -, hr⟩ := Option.bind_eq_some_iff.mp hr
    obtain ⟨⟨right, end'⟩, -, hr⟩ := Option.bind_eq_some_iff.mp hr
    cases hr

/-- A leaf of a rebuilt range is a tree of height zero. -/
theorem rebuild_zero {s : ℕ} {ws rest : List Octets} {tree : Rebuilt} (hlo : lo ≤ s) (hhi : s ≤ hi)
    (hr : rebuild lo hi bodyDigests 0 s ws = some (tree, rest)) :
    ∃ d, bodyDigests s = some d ∧ tree = .leaf d ∧ rest = ws := by
  unfold rebuild at hr
  rw [if_neg (by rw [pow_zero]; omega)] at hr
  obtain ⟨d, hd, hr⟩ := Option.map_eq_some_iff.mp hr
  obtain ⟨rfl, rfl⟩ := Prod.mk.inj hr
  exact ⟨d, hd, rfl, rfl⟩

/-- A tree in range of more than one leaf has two children. -/
theorem rebuild_succ {h s : ℕ} {ws rest : List Octets} {tree : Rebuilt} (hlo : lo < s + 2 ^ (h + 1))
    (hhi : s ≤ hi) (hr : rebuild lo hi bodyDigests (h + 1) s ws = some (tree, rest)) :
    ∃ left right mid, tree = .inner (pos (h + 1) s) left right ∧
      rebuild lo hi bodyDigests h s ws = some (left, mid) ∧
      rebuild lo hi bodyDigests h (s + 2 ^ h) mid = some (right, rest) := by
  unfold rebuild at hr
  rw [if_neg (by omega)] at hr
  obtain ⟨⟨left, mid⟩, hl, hr⟩ := Option.bind_eq_some_iff.mp hr
  obtain ⟨⟨right, end'⟩, hrr, hr⟩ := Option.bind_eq_some_iff.mp hr
  obtain ⟨rfl, rfl⟩ := Prod.mk.inj (Option.some.inj hr)
  exact ⟨left, right, mid, rfl, hl, hrr⟩

/-- A tree out of range is the next witness. -/
theorem rebuild_outside {h s : ℕ} (hout : s + 2 ^ h ≤ lo) (w : Octets) (ws : List Octets) :
    rebuild lo hi bodyDigests h s (w :: ws) = some (.witness w, ws) := by
  have hpos := Nat.two_pow_pos h
  unfold rebuild
  rw [if_pos (Or.inl (by omega))]

/-- A rebuilt tree with the value of a node of a log, at one position, shows the log's entries at every
leaf in range. -/
theorem digests_of_value {inputs : List Octets} (hno : ¬ H.Collision inputs) {L : List Digest} {h s : ℕ}
    {ws rest : List Octets} {tree : Rebuilt} (hws : ∀ w ∈ ws, w.length = 32)
    (hr : rebuild lo hi bodyDigests h s ws = some (tree, rest)) (htree : tree.inputs H ⊆ inputs)
    (hlog : nodeInputs H L h s ⊆ inputs) (hval : tree.value H = mmrNode H L h s) {i : ℕ} (hlo : lo ≤ i)
    (hhi : i ≤ hi) (hs : s ≤ i) (hi' : i < s + 2 ^ h) : bodyDigests i = some (logEntry L i) := by
  induction h generalizing s ws rest tree with
  | zero =>
      rw [pow_zero] at hi'
      obtain rfl : i = s := by omega
      obtain ⟨d, hd, rfl, -⟩ := rebuild_zero hlo hhi hr
      have hinput := Hash.eq_of_digest_eq hno (htree (List.mem_singleton_self _))
        (hlog (List.mem_singleton_self _)) hval
      rw [hd, (List.cons.inj hinput).2]
  | succ h ih =>
      have hpow : 2 ^ (h + 1) = 2 * 2 ^ h := pow_succ' 2 h
      obtain ⟨left, right, mid, rfl, hl, hrr⟩ := rebuild_succ (by omega) (by omega) hr
      obtain ⟨hlenl, hmid⟩ := @rebuild_lengths H _ _ _ _ _ _ _ _ hws hl
      have hinput := Hash.eq_of_digest_eq hno (htree List.mem_cons_self) (hlog List.mem_cons_self) hval
      obtain ⟨hleft, hright⟩ := interiorInput_inj_of_pos (hlenl.trans (length_mmrNode L h s).symm) hinput
      rcases Nat.lt_or_ge i (s + 2 ^ h) with hlt | hge
      · exact ih hws hl (fun x hx => htree (List.mem_cons_of_mem _ (List.mem_append_left _ hx)))
          (fun x hx => hlog (List.mem_cons_of_mem _ (List.mem_append_left _ hx))) hleft hs hlt
      · exact ih hmid hrr (fun x hx => htree (List.mem_cons_of_mem _ (List.mem_append_right _ hx)))
          (fun x hx => hlog (List.mem_cons_of_mem _ (List.mem_append_right _ hx))) hright hge (by omega)

/-- A rebuilt tree in range with children has the value of one node of a log only, that at its position;
a rebuilt leaf has the value of any leaf with its digest. -/
theorem node_of_value {inputs : List Octets} (hno : ¬ H.Collision inputs) {L : List Digest}
    {h s h' s' : ℕ} (hs : 2 ^ h ∣ s) (hs' : 2 ^ h' ∣ s') {ws rest : List Octets} {tree : Rebuilt}
    (hdigests : ∀ i d, bodyDigests i = some d → d.length = 32) (hws : ∀ w ∈ ws, w.length = 32)
    (hlo : lo < s + 2 ^ h) (hhi : s + 2 ^ h ≤ hi + 1) (hpos : pos h s + 1 < 2 ^ 64)
    (hpos' : h' ≠ 0 → pos h' s' + 1 < 2 ^ 64) (hentry : (logEntry L s').length = 32)
    (hr : rebuild lo hi bodyDigests h s ws = some (tree, rest)) (htree : tree.inputs H ⊆ inputs)
    (hlog : nodeInputs H L h' s' ⊆ inputs) (hval : tree.value H = mmrNode H L h' s') :
    (h = 0 ∧ h' = 0 ∧ bodyDigests s = some (logEntry L s') ∧ rest = ws) ∨ (h ≠ 0 ∧ h = h' ∧ s = s') := by
  have hpow := Nat.two_pow_pos h
  rcases h with _ | h
  · rw [pow_zero] at hlo hhi
    obtain ⟨d, hd, rfl, hrest⟩ := rebuild_zero (by omega) (by omega) hr
    have hdlen := hdigests s d hd
    rcases h' with _ | h'
    · have hinput := Hash.eq_of_digest_eq hno (htree (List.mem_singleton_self _))
        (hlog (List.mem_singleton_self _)) hval
      rw [hd, (List.cons.inj hinput).2]
      exact Or.inl ⟨rfl, rfl, rfl, hrest⟩
    · have hinput := Hash.eq_of_digest_eq hno (htree (List.mem_singleton_self _))
        (hlog List.mem_cons_self) hval
      have hlen := congrArg List.length hinput
      rw [length_leafInput, length_interiorInput, length_mmrNode, length_mmrNode] at hlen
      omega
  · obtain ⟨left, right, mid, rfl, hl, hrr⟩ := rebuild_succ hlo (by omega) hr
    obtain ⟨hlenl, hmid⟩ := @rebuild_lengths H _ _ _ _ _ _ _ _ hws hl
    obtain ⟨hlenr, -⟩ := @rebuild_lengths H _ _ _ _ _ _ _ _ hmid hrr
    rcases h' with _ | h'
    · have hinput := Hash.eq_of_digest_eq hno (htree List.mem_cons_self)
        (hlog (List.mem_singleton_self _)) hval
      have hlen := congrArg List.length hinput
      rw [length_leafInput, length_interiorInput, hlenl, hlenr] at hlen
      omega
    · have hinput := Hash.eq_of_digest_eq hno (htree List.mem_cons_self) (hlog List.mem_cons_self) hval
      obtain ⟨hsame, -, -⟩ := interiorInput_inj hlenl (length_mmrNode L h' s') hpos
        (hpos' (Nat.succ_ne_zero _)) hinput
      -- a position has one height
      have hheight : h + 1 = h' + 1 := by rw [← heightAt_pos hs, hsame, heightAt_pos hs']
      rw [← hheight] at hsame
      have hcount : nodeCount s = nodeCount s' := by
        unfold pos at hsame
        omega
      exact Or.inr ⟨Nat.succ_ne_zero _, hheight, nodeCount_strictMono.injective hcount⟩

end ScittCose.Cll
