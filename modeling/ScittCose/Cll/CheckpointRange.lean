import ScittCose.Lib.Sha256
import ScittCose.Cll.Range
import ScittCose.Cll.Rollback

/-!
# A range verified against a checkpoint (`scitt_cose/cll.py`)

`verify_range_against_checkpoint` takes the size of the log from the proof, not from the checkpoint. The
trees of the proof's size have to bag to the checkpoint's root, so there are as many of them as the log
has (`bagged_inj_of_last`). The last is in range: with children it shows its position and the two sizes
are one, a lone leaf shows nothing but its digest. So there is one kind of range under a checkpoint that
is not of its log, the last record of the log under the number of another odd size (`Forged`), and
`verifyRangeAgainstCheckpoint_iff` says that it is the only one.
-/

namespace ScittCose.Cll

open Mmr

section Statement

variable (H : Hash)

/-- What `verify_range` hashes where it raises nothing. -/
def verifyRangeInputs (bodyDigests : List Octets) (proof : RangeProof) : List Octets :=
  (do
    let m ← leafCount proof.size
    let ws ← proof.witness.mapM parseDigestHex
    let lo := proof.fromIndex.toNat
    let (trees, _) ← rebuildPeaks lo proof.toIndex.toNat (digestByIndex lo bodyDigests) (mountains m) ws
    some (trees.flatMap (Rebuilt.inputs H) ++
      baggedInputs H (trees.map (Rebuilt.value H))) : Option (List Octets)).getD []

/-- The records are those of the log under their numbers. -/
def InLog (L : List Digest) (fromSeq toSeq : ℤ) (bodyDigests : List Octets) : Prop :=
  1 ≤ fromSeq ∧ fromSeq ≤ toSeq ∧ toSeq ≤ L.length ∧
    ∀ (j : ℕ) (d : Octets), bodyDigests[j]? = some d →
      (L.map Subtype.val)[(fromSeq - 1).toNat + j]? = some d

/-- The proof is one for the range. -/
def RangeProof.MadeFor (proof : RangeProof) (fromSeq toSeq : ℤ) : Prop :=
  proof.fromSeq = fromSeq ∧ proof.toSeq = toSeq ∧ proof.fromIndex = fromSeq - 1 ∧
    proof.toIndex = toSeq - 1

/-- The last record of a log of odd size under the number of another odd size with as many trees, the
other peaks of the log being the witnesses. -/
def Forged (L : List Digest) (fromSeq toSeq : ℤ) (bodyDigests : List Octets) (proof : RangeProof) :
    Prop :=
  proof.MadeFor fromSeq toSeq ∧ ∃ m : ℕ,
    fromSeq = m ∧ toSeq = m ∧ proof.size = nodeCount m ∧ (nodeCount m : ℤ) < maxMmrSize ∧
    m % 2 = 1 ∧ L.length % 2 = 1 ∧ popcount m = popcount L.length ∧
    bodyDigests = [logEntry L (L.length - 1)] ∧
    proof.witness.mapM parseDigestHex = some (peakHashes H L).dropLast ∧
    (L.map Subtype.val)[m - 1]? ≠ some (logEntry L (L.length - 1))

/-- Records and witnesses that rebuild 32 zero octets, the root of the log without records. -/
def RebuildsZero (fromSeq toSeq : ℤ) (bodyDigests : List Octets) (proof : RangeProof) : Prop :=
  proof.MadeFor fromSeq toSeq ∧ ∃ (m lo : ℕ) (ws : List Octets),
    fromSeq = lo + 1 ∧ toSeq = m ∧ proof.size = nodeCount m ∧
    proof.witness.mapM parseDigestHex = some ws ∧
    RangeHolds H (List.replicate 32 0) m lo bodyDigests ws

end Statement

variable {H : Hash} {lo hi : ℕ} {bodyDigests : ℕ → Option Octets}

/-! ## As many trees -/

/-- The last of a row of peaks is a hash of something other than a bagging. -/
def LastHashed (H : Hash) (inputs ps : List Octets) : Prop :=
  ∃ (init : List Octets) (x : Octets), ps = init ++ [H.digest x] ∧ x ∈ inputs ∧ x.length ≠ 64

theorem LastHashed.tail {inputs ps : List Octets} {p q : Octets}
    (h : LastHashed H inputs (p :: q :: ps)) : LastHashed H inputs (q :: ps) := by
  obtain ⟨init, x, heq, hx, hlen⟩ := h
  rcases init with _ | ⟨p', init⟩
  · cases heq
  · exact ⟨init, x, (List.cons.inj heq).2, hx, hlen⟩

theorem LastHashed.single {inputs : List Octets} {p : Octets} (h : LastHashed H inputs [p]) :
    ∃ x ∈ inputs, p = H.digest x ∧ x.length ≠ 64 := by
  obtain ⟨init, x, heq, hx, hlen⟩ := h
  rcases init with _ | ⟨p', init⟩
  · exact ⟨x, hx, (List.cons.inj heq).1, hlen⟩
  · rcases init with _ | ⟨p'', init⟩
    · cases heq
    · cases heq

/-- Rows that bag to one root are one row, or two inputs collide: a bagging is no last peak. -/
theorem bagged_inj_of_last {inputs ps qs : List Octets} (hno : ¬ H.Collision inputs)
    (hps : ∀ p ∈ ps, p.length = 32) (hqs : ∀ q ∈ qs, q.length = 32)
    (hpin : baggedInputs H ps ⊆ inputs) (hqin : baggedInputs H qs ⊆ inputs)
    (hplast : LastHashed H inputs ps) (hqlast : LastHashed H inputs qs)
    (h : bagged H ps = bagged H qs) : ps = qs := by
  induction ps generalizing qs with
  | nil =>
      obtain ⟨init, x, heq, -⟩ := hplast
      exact absurd heq.symm (List.append_ne_nil_of_right_ne_nil _ (List.cons_ne_nil _ _))
  | cons p ps ih =>
      rcases qs with _ | ⟨q, qs⟩
      · obtain ⟨init, x, heq, -⟩ := hqlast
        exact absurd heq.symm (List.append_ne_nil_of_right_ne_nil _ (List.cons_ne_nil _ _))
      rcases ps with _ | ⟨p', ps⟩
      · rcases qs with _ | ⟨q', qs⟩
        · exact congrArg (fun x => [x]) h
        · -- one peak against a bagging of several
          obtain ⟨x, hx, rfl, hlen⟩ := hplast.single
          have hinput := Hash.eq_of_digest_eq hno hx (hqin List.mem_cons_self) h
          have hbag := @length_bagged H _ fun y hy => hqs y (List.mem_cons_of_mem _ hy)
          have hq := hqs q List.mem_cons_self
          rw [hinput, List.length_append, hbag, hq] at hlen
          exact absurd rfl hlen
      · rcases qs with _ | ⟨q', qs⟩
        · obtain ⟨x, hx, rfl, hlen⟩ := hqlast.single
          have hinput := Hash.eq_of_digest_eq hno (hpin List.mem_cons_self) hx h
          have hbag := @length_bagged H _ fun y hy => hps y (List.mem_cons_of_mem _ hy)
          have hp := hps p List.mem_cons_self
          rw [← hinput, List.length_append, hbag, hp] at hlen
          exact absurd rfl hlen
        · have hinput := Hash.eq_of_digest_eq hno (hpin List.mem_cons_self) (hqin List.mem_cons_self) h
          have hps' : ∀ x ∈ p' :: ps, x.length = 32 := fun x hx => hps x (List.mem_cons_of_mem _ hx)
          have hqs' : ∀ x ∈ q' :: qs, x.length = 32 := fun x hx => hqs x (List.mem_cons_of_mem _ hx)
          obtain ⟨hrest, rfl⟩ := List.append_inj hinput
            ((length_bagged hps').trans (length_bagged hqs').symm)
          rw [ih hps' hqs' (fun x hx => hpin (List.mem_cons_of_mem _ hx))
            (fun x hx => hqin (List.mem_cons_of_mem _ hx)) hplast.tail hqlast.tail hrest]

/-! ## Rows of trees -/

theorem rebuildPeaks_append {ps qs : List (ℕ × ℕ)} {ws rest : List Octets} {trees : List Rebuilt}
    (hr : rebuildPeaks lo hi bodyDigests (ps ++ qs) ws = some (trees, rest)) :
    ∃ ts us mid, trees = ts ++ us ∧ ts.length = ps.length ∧
      rebuildPeaks lo hi bodyDigests ps ws = some (ts, mid) ∧
      rebuildPeaks lo hi bodyDigests qs mid = some (us, rest) := by
  induction ps generalizing ws trees with
  | nil => exact ⟨[], trees, ws, rfl, rfl, rfl, hr⟩
  | cons p ps ih =>
      obtain ⟨⟨tree, next⟩, hl, hr⟩ := Option.bind_eq_some_iff.mp hr
      obtain ⟨⟨trees', rest'⟩, hrec, hr⟩ := Option.bind_eq_some_iff.mp hr
      obtain ⟨rfl, rfl⟩ := Prod.mk.inj (Option.some.inj hr)
      obtain ⟨ts, us, mid, rfl, hlen, hts, hus⟩ := ih hrec
      refine ⟨tree :: ts, us, mid, rfl, congrArg Nat.succ hlen, ?_, hus⟩
      unfold rebuildPeaks
      rw [hl]
      dsimp only [Option.bind_eq_bind, Option.bind_some]
      rw [hts]
      rfl

theorem rebuildPeaks_of_append {ps qs : List (ℕ × ℕ)} {ws mid rest : List Octets}
    {ts us : List Rebuilt} (hts : rebuildPeaks lo hi bodyDigests ps ws = some (ts, mid))
    (hus : rebuildPeaks lo hi bodyDigests qs mid = some (us, rest)) :
    rebuildPeaks lo hi bodyDigests (ps ++ qs) ws = some (ts ++ us, rest) := by
  induction ps generalizing ws ts with
  | nil =>
      obtain ⟨rfl, rfl⟩ := Prod.mk.inj (Option.some.inj hts)
      exact hus
  | cons p ps ih =>
      obtain ⟨⟨tree, next⟩, hl, hts⟩ := Option.bind_eq_some_iff.mp hts
      obtain ⟨⟨trees', rest'⟩, hrec, hts⟩ := Option.bind_eq_some_iff.mp hts
      obtain ⟨rfl, rfl⟩ := Prod.mk.inj (Option.some.inj hts)
      rw [List.cons_append, rebuildPeaks, hl]
      dsimp only [Option.bind_eq_bind, Option.bind_some]
      rw [ih hrec]
      rfl

/-- A tree for each. -/
theorem length_of_rebuildPeaks {ps : List (ℕ × ℕ)} {ws rest : List Octets} {trees : List Rebuilt}
    (hr : rebuildPeaks lo hi bodyDigests ps ws = some (trees, rest)) : trees.length = ps.length := by
  rw [← List.append_nil ps] at hr
  obtain ⟨ts, us, mid, rfl, hlen, -, hus⟩ := rebuildPeaks_append hr
  obtain ⟨rfl, -⟩ := Prod.mk.inj (Option.some.inj hus)
  rw [List.append_nil, hlen]

/-- A row and one more tree. -/
theorem rebuildPeaks_concat {ps : List (ℕ × ℕ)} {p : ℕ × ℕ} {ws rest : List Octets}
    {trees : List Rebuilt}
    (hr : rebuildPeaks lo hi bodyDigests (ps ++ [p]) ws = some (trees, rest)) :
    ∃ ts t mid, trees = ts ++ [t] ∧ ts.length = ps.length ∧
      rebuildPeaks lo hi bodyDigests ps ws = some (ts, mid) ∧
      rebuild lo hi bodyDigests p.1 p.2 mid = some (t, rest) := by
  obtain ⟨ts, us, mid, rfl, hlen, hts, hus⟩ := rebuildPeaks_append hr
  obtain ⟨⟨t, next⟩, hl, hus⟩ := Option.bind_eq_some_iff.mp hus
  obtain ⟨⟨us', rest'⟩, hrec, hus⟩ := Option.bind_eq_some_iff.mp hus
  obtain ⟨rfl, rfl⟩ := Prod.mk.inj (Option.some.inj hrec)
  obtain ⟨rfl, rfl⟩ := Prod.mk.inj (Option.some.inj hus)
  exact ⟨ts, t, mid, rfl, hlen, hts, hl⟩

/-- A row wholly before the range is a row of witnesses. -/
theorem rebuildPeaks_outside {ps : List (ℕ × ℕ)} (hout : ∀ p ∈ ps, p.2 + 2 ^ p.1 ≤ lo)
    {ws : List Octets} (hlen : ws.length = ps.length) :
    rebuildPeaks lo hi bodyDigests ps ws = some (ws.map Rebuilt.witness, []) := by
  induction ps generalizing ws with
  | nil =>
      obtain rfl : ws = [] := List.length_eq_zero_iff.mp hlen
      rfl
  | cons p ps ih =>
      obtain ⟨w, ws, rfl⟩ := List.exists_cons_of_length_eq_add_one hlen
      unfold rebuildPeaks
      rw [rebuild_outside (hout p List.mem_cons_self) w ws]
      dsimp only [Option.bind_eq_bind, Option.bind_some]
      rw [ih (fun q hq => hout q (List.mem_cons_of_mem _ hq)) (by simpa using hlen)]
      rfl

/-- The witnesses a row wholly before the range takes are its hashes. -/
theorem witness_of_outside {ps : List (ℕ × ℕ)} (hout : ∀ p ∈ ps, p.2 + 2 ^ p.1 ≤ lo)
    {ws rest : List Octets} {trees : List Rebuilt}
    (hr : rebuildPeaks lo hi bodyDigests ps ws = some (trees, rest)) :
    ws = trees.map (Rebuilt.value H) ++ rest := by
  induction ps generalizing ws trees with
  | nil =>
      obtain ⟨rfl, rfl⟩ := Prod.mk.inj (Option.some.inj hr)
      rfl
  | cons p ps ih =>
      obtain ⟨⟨tree, next⟩, hl, hr⟩ := Option.bind_eq_some_iff.mp hr
      obtain ⟨⟨trees', rest'⟩, hrec, hr⟩ := Option.bind_eq_some_iff.mp hr
      obtain ⟨rfl, rfl⟩ := Prod.mk.inj (Option.some.inj hr)
      rcases ws with _ | ⟨w, ws⟩
      · have hpos := Nat.two_pow_pos p.1
        have hout' := hout p List.mem_cons_self
        unfold rebuild at hl
        rw [if_pos (Or.inl (by omega))] at hl
        cases hl
      · rw [rebuild_outside (hout p List.mem_cons_self) w ws, Option.some.injEq, Prod.mk.injEq] at hl
        obtain ⟨rfl, rfl⟩ := hl
        rw [ih (fun q hq => hout q (List.mem_cons_of_mem _ hq)) hrec]
        rfl

/-- Trees with the values of a log's show the log's entries at every leaf in range. -/
theorem digests_of_values {inputs : List Octets} (hno : ¬ H.Collision inputs) {L : List Digest}
    {ps : List (ℕ × ℕ)} (hlog : ∀ p ∈ ps, nodeInputs H L p.1 p.2 ⊆ inputs) {ws rest : List Octets}
    {trees : List Rebuilt} (hws : ∀ w ∈ ws, w.length = 32)
    (hr : rebuildPeaks lo hi bodyDigests ps ws = some (trees, rest))
    (htrees : trees.flatMap (Rebuilt.inputs H) ⊆ inputs)
    (hval : trees.map (Rebuilt.value H) = ps.map fun p => mmrNode H L p.1 p.2) {i : ℕ} (hlo : lo ≤ i)
    (hhi : i ≤ hi) {p : ℕ × ℕ} (hp : p ∈ ps) (hs : p.2 ≤ i) (hi' : i < p.2 + 2 ^ p.1) :
    bodyDigests i = some (logEntry L i) := by
  induction ps generalizing ws trees with
  | nil => cases hp
  | cons q ps ih =>
      obtain ⟨⟨tree, next⟩, hl, hr⟩ := Option.bind_eq_some_iff.mp hr
      obtain ⟨⟨trees', rest'⟩, hrec, hr⟩ := Option.bind_eq_some_iff.mp hr
      obtain ⟨rfl, rfl⟩ := Prod.mk.inj (Option.some.inj hr)
      rw [List.map_cons, List.map_cons, List.cons.injEq] at hval
      rw [List.flatMap_cons, List.append_subset] at htrees
      rcases List.mem_cons.mp hp with rfl | hp
      · exact digests_of_value hno hws hl htrees.1 (hlog p List.mem_cons_self) hval.1 hlo hhi hs hi'
      · exact ih (fun p hp => hlog p (List.mem_cons_of_mem _ hp))
          (@rebuild_lengths H _ _ _ _ _ _ _ _ hws hl).2 hrec htrees.2 hval.2 hp

/-! ## The size of the proof -/

/-- A tree in range is a hash of its own, of no bagging. -/
theorem exists_input_of_rebuild {h s : ℕ} {ws rest : List Octets} {tree : Rebuilt}
    (hdigests : ∀ i d, bodyDigests i = some d → d.length = 32) (hws : ∀ w ∈ ws, w.length = 32)
    (hlo : lo < s + 2 ^ h) (hhi : s ≤ hi)
    (hr : rebuild lo hi bodyDigests h s ws = some (tree, rest)) :
    ∃ x ∈ tree.inputs H, tree.value H = H.digest x ∧ x.length ≠ 64 := by
  rcases h with _ | h
  · rw [pow_zero] at hlo
    obtain ⟨d, hd, rfl, -⟩ := rebuild_zero (by omega) hhi hr
    refine ⟨leafInput d, List.mem_singleton_self _, rfl, ?_⟩
    rw [length_leafInput, hdigests s d hd]
    omega
  · obtain ⟨left, right, mid, rfl, hl, hrr⟩ := rebuild_succ hlo hhi hr
    obtain ⟨hlenl, hmid⟩ := @rebuild_lengths H _ _ _ _ _ _ _ _ hws hl
    obtain ⟨hlenr, -⟩ := @rebuild_lengths H _ _ _ _ _ _ _ _ hmid hrr
    refine ⟨_, List.mem_cons_self, rfl, ?_⟩
    rw [length_interiorInput, hlenl, hlenr]
    omega

theorem exists_input_of_mmrNode {L : List Digest} {h s : ℕ} (hs : s < L.length) :
    ∃ x ∈ nodeInputs H L h s, mmrNode H L h s = H.digest x ∧ x.length ≠ 64 := by
  rcases h with _ | h
  · refine ⟨_, List.mem_singleton_self _, rfl, ?_⟩
    rw [length_leafInput, length_logEntry hs]
    omega
  · refine ⟨_, List.mem_cons_self, rfl, ?_⟩
    rw [length_interiorInput, length_mmrNode, length_mmrNode]
    omega

theorem peakHashes_add_pow {L : List Digest} {h s : ℕ} (hs : 2 ^ (h + 1) ∣ s)
    (hL : L.length = s + 2 ^ h) :
    peakHashes H L = ((mountains s).map fun p => mmrNode H L p.1 p.2) ++ [mmrNode H L h s] := by
  unfold peakHashes
  rw [hL, mountains_add_pow hs, List.map_append]
  rfl

/-- A peak of a log whose root is computed lies at a position that can be written. -/
theorem pos_of_mmrRoot {L : List Digest} {root : Octets} (hroot : mmrRoot H L = some root) {p : ℕ × ℕ}
    (hp : p ∈ mountains L.length) (hne : p.1 ≠ 0) : pos p.1 p.2 + 1 < 2 ^ 64 := by
  obtain ⟨ps, hps, -⟩ := Option.bind_eq_some_iff.mp hroot
  have hmem : nodeHash H L p.1 p.2 ∈ ps.map some := by
    rw [← Octets.mapM_eq_some_iff.mp hps]
    exact List.mem_map_of_mem hp
  obtain ⟨x, -, hx⟩ := List.mem_map.mp hmem
  exact (eq_mmrNode_of_nodeHash hx.symm).2 hne

/-- What a range accepted under a log's root is taken from: the trees of the proof have the hashes of the
log's peaks, and the size of the proof is the log's or the range is the last leaf of either. -/
theorem size_of_holds {inputs : List Octets} (hno : ¬ H.Collision inputs) {L : List Digest}
    (hL : L ≠ []) {root : Octets} (hroot : mmrRoot H L = some root) (hlog : mmrInputs H L ⊆ inputs)
    {m : ℕ} (hlt : lo < m) (hmax : (nodeCount m : ℤ) < maxMmrSize)
    (hdigests : ∀ i d, bodyDigests i = some d → d.length = 32) {ws : List Octets}
    (hws : ∀ w ∈ ws, w.length = 32) {trees : List Rebuilt}
    (hreb : rebuildPeaks lo (m - 1) bodyDigests (mountains m) ws = some (trees, []))
    (hin : trees.flatMap (Rebuilt.inputs H) ++ baggedInputs H (trees.map (Rebuilt.value H)) ⊆ inputs)
    (hbag : root = bagged H (trees.map (Rebuilt.value H))) :
    trees.map (Rebuilt.value H) = peakHashes H L ∧
      (m = L.length ∨ ∃ s, m = lo + 1 ∧ L.length = s + 1 ∧ 2 ∣ lo ∧ 2 ∣ s ∧
        bodyDigests lo = some (logEntry L s) ∧ ws = (mountains s).map fun p => mmrNode H L p.1 p.2) := by
  have hmlt : nodeCount m + 1 < 2 ^ 64 := by
    unfold maxMmrSize at hmax
    omega
  obtain ⟨h, s, hs, hm⟩ := @exists_last m (by omega)
  obtain ⟨h', s', hs', hn⟩ := @exists_last L.length (by
    rw [ne_eq, List.length_eq_zero_iff]
    exact hL)
  have hpow := Nat.two_pow_pos h
  have hpow' := Nat.two_pow_pos h'
  have hlast : (h', s') ∈ mountains L.length := by
    rw [hn, mountains_add_pow hs']
    exact List.mem_append_right _ (List.mem_singleton_self _)
  have hpeaks := @peakHashes_add_pow H L h' s' hs' hn
  have hnodes : ∀ p ∈ mountains L.length, nodeInputs H L p.1 p.2 ⊆ inputs := fun p hp =>
    List.Subset.trans (nodeInputs_subset_mmrInputs le_rfl hp) hlog
  rw [List.append_subset] at hin
  have hrows := hreb
  rw [hm, mountains_add_pow hs, ← hm] at hrows
  obtain ⟨ts, t, mid, rfl, htslen, hts, ht⟩ := rebuildPeaks_concat hrows
  dsimp only at ht
  obtain ⟨-, hmid⟩ := @rebuildPeaks_lengths H _ _ _ _ _ _ _ hws hts
  have htin : t.inputs H ⊆ inputs := fun x hx =>
    hin.1 (List.mem_flatMap.mpr ⟨t, List.mem_append_right _ (List.mem_singleton_self _), hx⟩)
  -- the two rows bag to one root and end in a hash of their own
  have hvals : (ts ++ [t]).map (Rebuilt.value H) = peakHashes H L := by
    apply bagged_inj_of_last hno (rebuildPeaks_lengths hws hreb).1
      (fun p hp => length_of_mem_peakHashes hp) hin.2
      (fun x hx => hlog (List.mem_append_right _ hx))
    · obtain ⟨x, hx, hval, hlen⟩ := @exists_input_of_rebuild H _ _ _ _ _ _ _ _ hdigests hmid (by omega)
        (by omega) ht
      refine ⟨ts.map (Rebuilt.value H), x, ?_, htin hx, hlen⟩
      rw [List.map_append, ← hval]
      rfl
    · obtain ⟨x, hx, hval, hlen⟩ := @exists_input_of_mmrNode H L h' s' (by omega)
      refine ⟨(mountains s').map fun p => mmrNode H L p.1 p.2, x, ?_, hnodes (h', s') hlast hx, hlen⟩
      rw [hpeaks, hval]
    · exact hbag.symm.trans (bagged_of_mmrRoot hroot)
  refine ⟨hvals, ?_⟩
  rw [hpeaks, List.map_append] at hvals
  obtain ⟨hinit, hlastval⟩ := List.append_inj' hvals rfl
  have htval : t.value H = mmrNode H L h' s' := (List.cons.inj hlastval).1
  have hposm : pos h s + 1 < 2 ^ 64 := by
    have hmem : (h, s) ∈ mountains m := by
      rw [hm, mountains_add_pow hs]
      exact List.mem_append_right _ (List.mem_singleton_self _)
    have := pos_lt_nodeCount hmem
    dsimp only at this
    omega
  rcases node_of_value hno (dvd_left hs) (dvd_left hs') hdigests hmid (by omega) (by omega) hposm
      (fun hne => pos_of_mmrRoot hroot hlast hne) (length_logEntry (by omega)) ht htin
      (hnodes (h', s') hlast) htval with ⟨rfl, rfl, hd, rfl⟩ | ⟨-, rfl, rfl⟩
  · rw [pow_zero] at hm hn
    rw [zero_add, pow_one] at hs hs'
    rcases Nat.lt_or_ge lo s with hlo | hlo
    · -- the range takes in the tree before the last leaf, and that tree shows its position
      have hlens : (mountains s).length = (mountains s').length := by
        rw [← htslen, ← List.length_map (f := Rebuilt.value H), hinit, List.length_map]
      obtain ⟨k, u, hu, hsu⟩ := @exists_last s (by omega)
      obtain ⟨k', u', hu', hsu'⟩ := @exists_last s' (by
        rintro rfl
        rw [hsu, mountains_add_pow hu, List.length_append, mountains, mountains,
          mountainsFrom_zero] at hlens
        exact absurd hlens (Nat.succ_ne_zero _))
      have hkpow := Nat.two_pow_pos k
      have hkpow' := Nat.two_pow_pos k'
      have hk : k ≠ 0 := by
        rintro rfl
        rw [zero_add, pow_one] at hu
        rw [pow_zero] at hsu
        omega
      have hmem : (k, u) ∈ mountains m := by
        rw [hm, ← pow_zero 2, mountains_add_pow (by rwa [zero_add, pow_one]), hsu, mountains_add_pow hu]
        exact List.mem_append_left _ (List.mem_append_right _ (List.mem_singleton_self _))
      have hmem' : (k', u') ∈ mountains L.length := by
        rw [hn, ← pow_zero 2, mountains_add_pow (by rwa [zero_add, pow_one]), hsu',
          mountains_add_pow hu']
        exact List.mem_append_left _ (List.mem_append_right _ (List.mem_singleton_self _))
      rw [hsu, mountains_add_pow hu] at hts
      obtain ⟨vs, v, mid', rfl, -, hvs, hv⟩ := rebuildPeaks_concat hts
      dsimp only at hv
      obtain ⟨-, hmid'⟩ := @rebuildPeaks_lengths H _ _ _ _ _ _ _ hws hvs
      rw [hsu', mountains_add_pow hu', List.map_append, List.map_append] at hinit
      have hvval : v.value H = mmrNode H L k' u' := (List.cons.inj (List.append_inj' hinit rfl).2).1
      have hvin : v.inputs H ⊆ inputs := fun x hx =>
        hin.1 (List.mem_flatMap.mpr ⟨v, List.mem_append_left _ (List.mem_append_right _
          (List.mem_singleton_self _)), hx⟩)
      have hposv : pos k u + 1 < 2 ^ 64 := by
        have := pos_lt_nodeCount hmem
        dsimp only at this
        omega
      rcases node_of_value hno (dvd_left hu) (dvd_left hu') hdigests hmid' (by omega) (by omega) hposv
          (fun hne => pos_of_mmrRoot hroot hmem' hne) (length_logEntry (by omega)) hv hvin
          (hnodes (k', u') hmem') hvval with ⟨rfl, -⟩ | ⟨-, rfl, rfl⟩
      · exact absurd rfl hk
      · exact Or.inl (by omega)
    · -- the range is the last leaf, and the row before it is made of witnesses
      obtain rfl : lo = s := by omega
      have hout : ∀ p ∈ mountains lo, p.2 + 2 ^ p.1 ≤ lo := fun p hp => (mem_mountains hp).2.1
      have hwit := @witness_of_outside H _ _ _ _ hout _ _ _ hts
      rw [hinit, List.append_nil] at hwit
      exact Or.inr ⟨s', hm, hn, hs, hs', hd, hwit⟩
  · exact Or.inl (by omega)

/-! ## Exactly when a verified range is one of the log -/

theorem hparse_digestHex (s : String) (b : Octets) (h : parseDigestHex s = some b) : b.length = 32 :=
  (parseDigestHex_eq_some_iff.mp h).2

theorem getElem?_logEntry {L : List Digest} {i : ℕ} (hi : i < L.length) :
    (L.map Subtype.val)[i]? = some (logEntry L i) := by
  unfold logEntry
  rw [List.getD_eq_getElem?_getD, List.getElem?_eq_getElem (by rwa [List.length_map]), Option.getD_some]

theorem dropLast_peakHashes {L : List Digest} {h s : ℕ} (hs : 2 ^ (h + 1) ∣ s)
    (hL : L.length = s + 2 ^ h) :
    (peakHashes H L).dropLast = (mountains s).map fun p => mmrNode H L p.1 p.2 := by
  rw [peakHashes_add_pow hs hL, List.dropLast_concat]

/-- The inputs of a run that rebuilds trees. -/
theorem verifyRangeInputs_eq {m lo : ℕ} {digests ws : List Octets} {proof : RangeProof}
    {trees : List Rebuilt} {rest : List Octets} (hsize : proof.size = nodeCount m)
    (hmax : (nodeCount m : ℤ) < maxMmrSize) (hlo : proof.fromIndex.toNat = lo)
    (hhi : proof.toIndex.toNat = m - 1) (hws : proof.witness.mapM parseDigestHex = some ws)
    (hreb : rebuildPeaks lo (m - 1) (digestByIndex lo digests) (mountains m) ws = some (trees, rest)) :
    verifyRangeInputs H digests proof =
      trees.flatMap (Rebuilt.inputs H) ++ baggedInputs H (trees.map (Rebuilt.value H)) := by
  have hcount : leafCount proof.size = some m := leafCount_eq_some_iff.mpr ⟨hsize, by omega⟩
  unfold verifyRangeInputs
  rw [hlo, hhi, hcount, hws]
  dsimp only [Option.bind_eq_bind, Option.bind_some]
  rw [hreb]
  rfl

/-- What is forged is accepted. -/
theorem verifyRange_of_forged {L : List Digest} {fromSeq toSeq : ℤ} {digests : List Octets}
    {proof : RangeProof} (h : Forged H L fromSeq toSeq digests proof) :
    verifyRange H (bagged H (peakHashes H L)) fromSeq toSeq digests proof = true := by
  obtain ⟨⟨hfrom, hto, hfi, hti⟩, m, hfm, htm, hsize, hmax, hodd, hLodd, hpop, rfl, hws, -⟩ := h
  obtain ⟨s, hm⟩ : ∃ s, m = s + 2 ^ 0 := ⟨m - 1, by rw [pow_zero]; omega⟩
  obtain ⟨s', hL⟩ : ∃ s', L.length = s' + 2 ^ 0 := ⟨L.length - 1, by rw [pow_zero]; omega⟩
  have hs : 2 ^ (0 + 1) ∣ s := by
    rw [zero_add, pow_one]
    rw [pow_zero] at hm
    omega
  have hs' : 2 ^ (0 + 1) ∣ s' := by
    rw [zero_add, pow_one]
    rw [pow_zero] at hL
    omega
  have hlens : ((mountains s').map fun p => mmrNode H L p.1 p.2).length = (mountains s).length := by
    rw [← length_mountains, ← length_mountains, hm, hL, mountains_add_pow hs, mountains_add_pow hs',
      List.length_append, List.length_append] at hpop
    rw [List.length_map]
    exact (Nat.add_right_cancel hpop).symm
  rw [dropLast_peakHashes hs' hL] at hws
  have hpeaks := @peakHashes_add_pow H L 0 s' hs' hL
  rw [pow_zero] at hL hm
  have hlast : L.length - 1 = s' := by omega
  have hentry : (logEntry L s').length = 32 := length_logEntry (by omega)
  rw [hlast]
  apply (verifyRangeBy_iff hparse_digestHex).mpr
  refine ⟨hfrom, hto, hfi, hti, m, s, _, by omega, htm, hsize, hws,
    length_bagged fun p hp => length_of_mem_peakHashes hp, hm.symm, by omega, hmax, by simpa using hentry,
    ((mountains s').map fun p => mmrNode H L p.1 p.2).map Rebuilt.witness ++ [.leaf (logEntry L s')],
    ?_, ?_⟩
  · have hout : ∀ p ∈ mountains s, p.2 + 2 ^ p.1 ≤ s := fun p hp => (mem_mountains hp).2.1
    have hmtn : mountains m = mountains s ++ [(0, s)] := by
      rw [hm, ← pow_zero 2, mountains_add_pow hs]
    rw [hmtn]
    apply rebuildPeaks_of_append (rebuildPeaks_outside hout hlens)
    have hleaf : rebuild s (m - 1) (digestByIndex s [logEntry L s']) 0 s [] =
        some (.leaf (logEntry L s'), []) := by
      unfold rebuild digestByIndex
      rw [if_neg (by rw [pow_zero]; omega), if_neg (lt_irrefl _), Nat.sub_self]
      rfl
    unfold rebuildPeaks
    rw [hleaf]
    rfl
  · have hvalues : ∀ xs : List Octets, (xs.map Rebuilt.witness).map (Rebuilt.value H) = xs := by
      intro xs
      rw [List.map_map]
      exact List.map_id xs
    rw [hpeaks, List.map_append, hvalues]
    rfl

/-- A range accepted under the root of a log is one of the log, or it is the last record under the number
of another odd size, or two inputs collide. -/
theorem inLog_or_forged {L : List Digest} {root : Octets} (hroot : mmrRoot H L = some root)
    {fromSeq toSeq : ℤ} {digests : List Octets} {proof : RangeProof}
    (hno : ¬ H.Collision (verifyRangeInputs H digests proof ++ mmrInputs H L))
    (hok : verifyRange H root fromSeq toSeq digests proof = true) :
    InLog L fromSeq toSeq digests ∨ Forged H L fromSeq toSeq digests proof ∨
      (L = [] ∧ RebuildsZero H fromSeq toSeq digests proof) := by
  obtain ⟨hfrom, hto, hfi, hti, m, lo, ws, rfl, rfl, hsize, hws, hholds⟩ :=
    (verifyRangeBy_iff hparse_digestHex).mp hok
  rcases eq_or_ne L [] with rfl | hL
  · -- the root of the empty log
    have hzero : root = List.replicate 32 0 := by
      rw [bagged_of_mmrRoot hroot, peakHashes, mountains, List.length_nil, mountainsFrom_zero]
      rfl
    rw [hzero] at hholds
    exact Or.inr (Or.inr ⟨rfl, ⟨hfrom, hto, hfi, hti⟩, m, lo, ws, rfl, rfl, hsize, hws, hholds⟩)
  obtain ⟨hrlen, hlen, hlt, hmax, hdigests, trees, hreb, hbag⟩ := hholds
  have hws32 := length_of_mapM_parse hparse_digestHex hws
  have hinputs := verifyRangeInputs_eq (H := H) hsize hmax (by omega) (by omega) hws hreb
  have hin : trees.flatMap (Rebuilt.inputs H) ++ baggedInputs H (trees.map (Rebuilt.value H)) ⊆
      verifyRangeInputs H digests proof ++ mmrInputs H L := by
    rw [hinputs]
    exact List.subset_append_left _ _
  have hlog : mmrInputs H L ⊆ verifyRangeInputs H digests proof ++ mmrInputs H L :=
    List.subset_append_right _ _
  obtain ⟨hvals, hcase⟩ := size_of_holds hno hL hroot hlog hlt hmax
    (@length_of_digestByIndex lo digests hdigests) hws32 hreb hin hbag
  rcases hcase with rfl | ⟨s, rfl, hn, hlo2, hs2, hd, rfl⟩
  · refine Or.inl ⟨by omega, by omega, le_rfl, fun j d hj => ?_⟩
    have hj' : j < digests.length := (List.getElem?_eq_some_iff.mp hj).1
    obtain ⟨p, hp, hlo', hhi'⟩ := @exists_mem_mountainsFrom 0 L.length (lo + j) (Nat.zero_le _) (by omega)
    have hentry := digests_of_values hno
      (fun p hp => List.Subset.trans (nodeInputs_subset_mmrInputs le_rfl hp) hlog) hws32 hreb
      (List.append_subset.mp hin).1 hvals (Nat.le_add_right lo j) (by omega) hp hlo' hhi'
    unfold digestByIndex at hentry
    rw [if_neg (by omega), Nat.add_sub_cancel_left, hj, Option.some.injEq] at hentry
    have hindex : ((lo : ℤ) + 1 - 1).toNat + j = lo + j := by omega
    rw [hindex, hentry, getElem?_logEntry (by omega)]
  · have hpop : popcount (lo + 1) = popcount L.length := by
      have hlens := congrArg List.length hvals
      unfold peakHashes at hlens
      rwa [List.length_map, List.length_map, length_of_rebuildPeaks hreb, length_mountains,
        length_mountains] at hlens
    have hdrop : (peakHashes H L).dropLast = (mountains s).map fun p => mmrNode H L p.1 p.2 :=
      dropLast_peakHashes (by rwa [zero_add, pow_one]) (by rwa [pow_zero])
    have hlast : L.length - 1 = s := by omega
    have hone : digests = [logEntry L s] := by
      unfold digestByIndex at hd
      rw [if_neg (lt_irrefl _), Nat.sub_self] at hd
      obtain ⟨d, rfl⟩ := List.length_eq_one_iff.mp (show digests.length = 1 by omega)
      exact congrArg (fun x => [x]) (Option.some.inj hd)
    by_cases hsame : (L.map Subtype.val)[lo]? = some (logEntry L s)
    · -- the record is at that number too
      have hlt' : lo < L.length := by simpa using (List.getElem?_eq_some_iff.mp hsame).1
      refine Or.inl ⟨by omega, by omega, by omega, fun j d hj => ?_⟩
      rw [hone] at hj
      rcases j with _ | j
      · obtain rfl : logEntry L s = d := Option.some.inj hj
        have hindex : ((lo : ℤ) + 1 - 1).toNat + 0 = lo := by omega
        rw [hindex, hsame]
      · cases hj
    · refine Or.inr (Or.inl ⟨⟨hfrom, hto, hfi, hti⟩, lo + 1, by omega, rfl, hsize, hmax, by omega,
        by omega, hpop, ?_, ?_, ?_⟩)
      · rw [hlast, hone]
      · rw [hws, hdrop]
      · rwa [Nat.add_sub_cancel, hlast]

/-- A range verified against a checkpoint of a log is one of the log or the run exhibits a collision,
exactly when it is not the last record under the number of another odd size, and no root of 32 zero octets
is rebuilt under the checkpoint of the log without records; or the run exhibits a collision. -/
theorem verifyRangeAgainstCheckpoint_iff {L : List Digest} {checkpoint : Checkpoint} {root : Octets}
    (_hsize : checkpoint.mmrSize = nodeCount L.length) (hroot : checkpoint.rootBytes = some root)
    (hlog : mmrRoot H L = some root) (fromSeq toSeq : ℤ) (digests : List Octets) (proof : RangeProof)
    (current : Option ℤ) :
    ((verifyRangeAgainstCheckpoint H fromSeq toSeq digests checkpoint proof current).ok = true →
        InLog L fromSeq toSeq digests ∨
          H.Collision (verifyRangeInputs H digests proof ++ mmrInputs H L)) ↔
      (¬ Forged H L fromSeq toSeq digests proof ∧
          ¬ (L = [] ∧ RebuildsZero H fromSeq toSeq digests proof)) ∨
        H.Collision (verifyRangeInputs H digests proof ++ mmrInputs H L) := by
  rw [verifyRangeAgainstCheckpoint_ok_iff]
  have hbag := bagged_of_mmrRoot hlog
  constructor
  · intro hsound
    by_cases hno : H.Collision (verifyRangeInputs H digests proof ++ mmrInputs H L)
    · exact Or.inr hno
    refine Or.inl ⟨fun hforged => ?_, fun ⟨hnil, hzero⟩ => ?_⟩
    · have haccept := verifyRange_of_forged hforged
      rw [← hbag] at haccept
      obtain ⟨-, -, -, hdigests⟩ := (hsound ⟨root, hroot, haccept⟩).resolve_right hno
      obtain ⟨-, m, rfl, -, -, -, -, -, -, rfl, -, hother⟩ := hforged
      have hrecord := hdigests 0 _ rfl
      have hindex : ((m : ℤ) - 1).toNat + 0 = m - 1 := by omega
      rw [hindex] at hrecord
      exact hother hrecord
    · obtain ⟨⟨hfrom, hto, hfi, hti⟩, m, lo, ws, hlo, hm, hsize, hws, hholds⟩ := hzero
      subst hnil
      have hzeroes : root = List.replicate 32 0 := by
        rw [hbag, peakHashes, mountains, List.length_nil, mountainsFrom_zero]
        rfl
      rw [← hzeroes] at hholds
      have haccept : verifyRange H root fromSeq toSeq digests proof = true :=
        (verifyRangeBy_iff hparse_digestHex).mpr
          ⟨hfrom, hto, hfi, hti, m, lo, ws, hlo, hm, hsize, hws, hholds⟩
      obtain ⟨h1, h2, h3, -⟩ := (hsound ⟨root, hroot, haccept⟩).resolve_right hno
      rw [List.length_nil] at h3
      omega
  · rintro (⟨hforged, hzero⟩ | hcollision) ⟨root', hroot', haccept⟩
    · obtain rfl : root = root' := Option.some.inj (hroot.symm.trans hroot')
      by_cases hno : H.Collision (verifyRangeInputs H digests proof ++ mmrInputs H L)
      · exact Or.inr hno
      rcases inLog_or_forged hlog hno haccept with h | h | h
      · exact Or.inl h
      · exact absurd h hforged
      · exact absurd h hzero
    · exact Or.inr hcollision

section Forgery

/-- A record of 32 equal octets. -/
def record (x : UInt8) : Digest := ⟨List.replicate 32 x, List.length_replicate⟩

/-- A log of five records: a tree of four and a lone leaf. -/
def fiveRecords : List Digest := [record 1, record 2, record 3, record 4, record 5]

/-- The checkpoint of the log. -/
def fiveCheckpoint : Checkpoint := checkpointAt Hash.sha256 fiveRecords 5

/-- A proof for a log of three records, whose witness is the first peak of the log of five. -/
def threeProof : RangeProof where
  fromSeq := 3
  toSeq := 3
  size := 4
  fromIndex := 2
  toIndex := 2
  witness := [(mmrNode Hash.sha256 fiveRecords 2 0).toHex]

theorem mountains_three : mountains 3 = [(1, 0), (0, 2)] := by
  have h1 : mountains (2 + 2 ^ 0) = mountains 2 ++ [(0, 2)] := mountains_add_pow (by decide)
  have h2 : mountains (0 + 2 ^ 1) = mountains 0 ++ [(1, 0)] := mountains_add_pow (dvd_zero _)
  have h0 : mountains 0 = [] := mountainsFrom_zero 0
  exact h1.trans (by rw [show mountains 2 = _ from h2, h0]; rfl)

theorem mountains_five : mountains 5 = [(2, 0), (0, 4)] := by
  have h1 : mountains (4 + 2 ^ 0) = mountains 4 ++ [(0, 4)] := mountains_add_pow (by decide)
  have h2 : mountains (0 + 2 ^ 2) = mountains 0 ++ [(2, 0)] := mountains_add_pow (dvd_zero _)
  have h0 : mountains 0 = [] := mountainsFrom_zero 0
  exact h1.trans (by rw [show mountains 4 = _ from h2, h0]; rfl)

theorem nodeCount_three : nodeCount 3 = 4 := by
  norm_num [nodeCount, popcount]

theorem nodeCount_five : nodeCount 5 = 8 := by
  norm_num [nodeCount, popcount]

theorem peakHashes_five (H : Hash) :
    peakHashes H fiveRecords = [mmrNode H fiveRecords 2 0, mmrNode H fiveRecords 0 4] := by
  unfold peakHashes
  rw [show fiveRecords.length = 5 from rfl, mountains_five]
  rfl

theorem forged_three : Forged Hash.sha256 fiveRecords 3 3 [logEntry fiveRecords 4] threeProof := by
  refine ⟨⟨rfl, rfl, rfl, rfl⟩, 3, rfl, rfl, ?_, ?_, rfl, rfl, ?_, rfl, ?_, ?_⟩
  · rw [nodeCount_three]
    rfl
  · rw [nodeCount_three]
    decide
  · rw [← length_mountains, ← length_mountains, show fiveRecords.length = 5 from rfl, mountains_three,
      mountains_five]
    rfl
  · rw [peakHashes_five, List.dropLast_cons_cons, List.dropLast_singleton]
    apply @mapM_parseDigestHex_toHex [mmrNode Hash.sha256 fiveRecords 2 0]
    intro b hb
    rw [List.mem_singleton.mp hb]
    exact length_mmrNode _ _ _
  · decide

/-- The run over the log of five records, written out. -/
def fiveInputs : List Octets :=
  let d := logEntry fiveRecords
  let l := fun i => leafNode Hash.sha256 (d i)
  let n1 := innerNode Hash.sha256 2 (l 0) (l 1)
  let n2 := innerNode Hash.sha256 5 (l 2) (l 3)
  let peak := innerNode Hash.sha256 6 n1 n2
  [interiorInput n1 n2 6, interiorInput (l 0) (l 1) 2, leafInput (d 0), leafInput (d 1),
    interiorInput (l 2) (l 3) 5, leafInput (d 2), leafInput (d 3), leafInput (d 4), l 4 ++ peak]

theorem mmrInputs_five : mmrInputs Hash.sha256 fiveRecords = fiveInputs := by
  have hpos1 : pos 1 0 = 2 := by simp [pos]
  have hpos2 : pos 1 2 = 5 := by norm_num [pos, nodeCount, popcount]
  have hpos3 : pos 2 0 = 6 := by simp [pos]
  unfold mmrInputs
  rw [peakHashes_five, show fiveRecords.length = 5 from rfl, mountains_five]
  simp only [List.flatMap_cons, List.flatMap_nil, nodeInputs, mmrNode, node, baggedInputs, bagged,
    pow_zero, pow_one, zero_add, hpos1, hpos2, hpos3, Nat.reduceAdd]
  rfl

/-- The run over the forged range hashes the record and one bagging of the log. -/
theorem verifyRangeInputs_three :
    verifyRangeInputs Hash.sha256 [logEntry fiveRecords 4] threeProof =
      [leafInput (logEntry fiveRecords 4),
        mmrNode Hash.sha256 fiveRecords 0 4 ++ mmrNode Hash.sha256 fiveRecords 2 0] := by
  have hcount : leafCount threeProof.size = some 3 := by
    rw [leafCount_eq_some_iff, nodeCount_three]
    exact ⟨rfl, by decide⟩
  have hws : threeProof.witness.mapM parseDigestHex = some [mmrNode Hash.sha256 fiveRecords 2 0] := by
    apply @mapM_parseDigestHex_toHex [mmrNode Hash.sha256 fiveRecords 2 0]
    intro b hb
    rw [List.mem_singleton.mp hb]
    exact length_mmrNode _ _ _
  have hreb : rebuildPeaks 2 2 (digestByIndex 2 [logEntry fiveRecords 4]) (mountains 3)
      [mmrNode Hash.sha256 fiveRecords 2 0] =
      some ([.witness (mmrNode Hash.sha256 fiveRecords 2 0), .leaf (logEntry fiveRecords 4)], []) := by
    rw [mountains_three]
    rfl
  unfold verifyRangeInputs
  rw [hcount, hws]
  dsimp only [Option.bind_eq_bind, Option.bind_some]
  rw [show threeProof.fromIndex.toNat = 2 from rfl, show threeProof.toIndex.toNat = 2 from rfl, hreb]
  rfl

theorem mmrRoot_five :
    mmrRoot Hash.sha256 fiveRecords = some (bagged Hash.sha256 (peakHashes Hash.sha256 fiveRecords)) := by
  apply mmrRoot_eq
  rw [show fiveRecords.length = 5 from rfl, nodeCount_five]
  decide

set_option maxRecDepth 100000 in
/-- The fifth record of a log of five passes for the third. -/
theorem fifth_record_as_third :
    fiveCheckpoint.mmrSize = nodeCount fiveRecords.length ∧
      fiveCheckpoint.rootBytes = mmrRoot Hash.sha256 fiveRecords ∧
      ¬ ((verifyRangeAgainstCheckpoint Hash.sha256 3 3 [logEntry fiveRecords 4] fiveCheckpoint threeProof
            none).ok = true →
          InLog fiveRecords 3 3 [logEntry fiveRecords 4] ∨
            Hash.sha256.Collision (verifyRangeInputs Hash.sha256 [logEntry fiveRecords 4] threeProof ++
              mmrInputs Hash.sha256 fiveRecords)) := by
  have hroot : fiveCheckpoint.rootBytes =
      some (bagged Hash.sha256 (peakHashes Hash.sha256 fiveRecords)) := Octets.fromHex_toHex _
  refine ⟨rfl, hroot.trans mmrRoot_five.symm, fun hsound => ?_⟩
  have haccept : (verifyRangeAgainstCheckpoint Hash.sha256 3 3 [logEntry fiveRecords 4] fiveCheckpoint
      threeProof none).ok = true :=
    verifyRangeAgainstCheckpoint_ok_iff.mpr ⟨_, hroot, verifyRange_of_forged forged_three⟩
  rcases hsound haccept with hlog | hcollision
  · have hother : ¬ InLog fiveRecords 3 3 [logEntry fiveRecords 4] := by
      rintro ⟨-, -, -, hdigests⟩
      exact absurd (hdigests 0 _ rfl) (by decide)
    exact hother hlog
  · rw [verifyRangeInputs_three, mmrInputs_five] at hcollision
    exact Hash.not_collision_of_nodup (by decide +kernel) hcollision

/-- The case of the forged range. -/
theorem verifyRangeAgainstCheckpoint_iff_five :
    ((verifyRangeAgainstCheckpoint Hash.sha256 3 3 [logEntry fiveRecords 4] fiveCheckpoint threeProof
          none).ok = true →
        InLog fiveRecords 3 3 [logEntry fiveRecords 4] ∨
          Hash.sha256.Collision (verifyRangeInputs Hash.sha256 [logEntry fiveRecords 4] threeProof ++
            mmrInputs Hash.sha256 fiveRecords)) ↔
      (¬ Forged Hash.sha256 fiveRecords 3 3 [logEntry fiveRecords 4] threeProof ∧
          ¬ (fiveRecords = [] ∧
            RebuildsZero Hash.sha256 3 3 [logEntry fiveRecords 4] threeProof)) ∨
        Hash.sha256.Collision (verifyRangeInputs Hash.sha256 [logEntry fiveRecords 4] threeProof ++
          mmrInputs Hash.sha256 fiveRecords) :=
  @verifyRangeAgainstCheckpoint_iff _ fiveRecords fiveCheckpoint _ rfl (Octets.fromHex_toHex _)
    mmrRoot_five 3 3 _ _ _

end Forgery

end ScittCose.Cll
