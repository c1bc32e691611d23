import ScittCose.Cll.CheckpointRange
import ScittCose.Merkle.Exact

/-!
# Roots are binding

Neither root encodes a size. The RFC 6962 tree keeps leaves and nodes apart by a prefix; the mountain
range has no prefix in its bagging, and a leaf's hash carries no position. There the rows of peaks have
to be of one length because a last peak is a hash of its own, of 33 or 72 octets, and a bagging one of
64; two peaks at one place then have one height, by the length of what they hash and by the position in
it (`height_eq_of_mmrNode_eq`).
-/

namespace ScittCose.Cll

open Mmr

variable {H : Hash} {inputs : List Octets}

/-- Two nodes over leaves from one place on have one height. -/
theorem height_eq_of_mmrNode_eq (hno : ¬ H.Collision inputs) {L M : List Digest} {h k s : ℕ}
    (hL : s < L.length) (hM : s < M.length) (hhpos : pos h s + 1 < 2 ^ 64) (hkpos : pos k s + 1 < 2 ^ 64)
    (hLin : nodeInputs H L h s ⊆ inputs) (hMin : nodeInputs H M k s ⊆ inputs)
    (heq : mmrNode H L h s = mmrNode H M k s) : h = k := by
  cases h with
  | zero =>
      cases k with
      | zero => rfl
      | succ k =>
          have hinput := Hash.eq_of_digest_eq hno (hLin (List.mem_singleton_self _))
            (hMin List.mem_cons_self) heq
          have hlen := congrArg List.length hinput
          rw [length_leafInput, length_interiorInput, length_mmrNode, length_mmrNode,
            length_logEntry hL] at hlen
          omega
  | succ h =>
      cases k with
      | zero =>
          have hinput := Hash.eq_of_digest_eq hno (hLin List.mem_cons_self)
            (hMin (List.mem_singleton_self _)) heq
          have hlen := congrArg List.length hinput
          rw [length_leafInput, length_interiorInput, length_mmrNode, length_mmrNode,
            length_logEntry hM] at hlen
          omega
      | succ k =>
          have hinput := Hash.eq_of_digest_eq hno (hLin List.mem_cons_self) (hMin List.mem_cons_self) heq
          obtain ⟨hpos, -, -⟩ := interiorInput_inj (length_mmrNode L h s) (length_mmrNode M k s) hhpos
            hkpos hinput
          -- the position tells the height
          unfold pos at hpos
          have htwo := Nat.two_pow_pos (h + 1)
          have htwo' := Nat.two_pow_pos (k + 1)
          have hpow : 2 ^ (h + 1 + 1) = 2 ^ (k + 1 + 1) := by
            rw [pow_succ 2 (h + 1), pow_succ 2 (k + 1)] at hpos ⊢
            omega
          have := Nat.pow_right_injective le_rfl hpow
          omega

/-- Nodes of one height and place with one value are over the same entries. -/
theorem logEntry_eq_of_mmrNode_eq (hno : ¬ H.Collision inputs) {L M : List Digest} {h s : ℕ}
    (hLin : nodeInputs H L h s ⊆ inputs) (hMin : nodeInputs H M h s ⊆ inputs)
    (heq : mmrNode H L h s = mmrNode H M h s) {i : ℕ} (hlo : s ≤ i) (hhi : i < s + 2 ^ h) :
    logEntry L i = logEntry M i := by
  induction h generalizing s with
  | zero =>
      obtain rfl : i = s := by
        rw [pow_zero] at hhi
        omega
      have hinput := Hash.eq_of_digest_eq hno (hLin (List.mem_singleton_self _))
        (hMin (List.mem_singleton_self _)) heq
      exact (List.cons.inj hinput).2
  | succ h ih =>
      have hpow : 2 ^ (h + 1) = 2 * 2 ^ h := pow_succ' 2 h
      have hinput := Hash.eq_of_digest_eq hno (hLin List.mem_cons_self) (hMin List.mem_cons_self) heq
      obtain ⟨hleft, hright⟩ := interiorInput_inj_of_pos
        ((length_mmrNode L h s).trans (length_mmrNode M h s).symm) hinput
      rcases Nat.lt_or_ge i (s + 2 ^ h) with hlt | hge
      · exact ih (fun x hx => hLin (List.mem_cons_of_mem _ (List.mem_append_left _ hx)))
          (fun x hx => hMin (List.mem_cons_of_mem _ (List.mem_append_left _ hx))) hleft hlo hlt
      · exact ih (fun x hx => hLin (List.mem_cons_of_mem _ (List.mem_append_right _ hx)))
          (fun x hx => hMin (List.mem_cons_of_mem _ (List.mem_append_right _ hx))) hright hge (by omega)

/-- A tree of a log whose node count can be written lies at a position that can be written. -/
theorem pos_lt_of_le {h s f : ℕ} (hs : 2 ^ (h + 1) ∣ s) (hle : s + 2 ^ h ≤ f)
    (hmax : nodeCount f < 2 ^ 64) : pos h s + 1 < 2 ^ 64 := by
  have hcount := nodeCount_strictMono.monotone hle
  have hpos := Nat.two_pow_pos h
  rw [nodeCount_add_pow hs, pow_succ] at hcount
  unfold pos
  rw [pow_succ]
  omega

/-- The largest power of two within a number, and what is left. -/
theorem exists_eq_two_pow_add {n : ℕ} (hn : n ≠ 0) : ∃ k r, n = 2 ^ k + r ∧ r < 2 ^ k := by
  have hle := Nat.log2_self_le hn
  have hlt : n < 2 ^ (n.log2 + 1) := Nat.lt_log2_self
  rw [pow_succ] at hlt
  exact ⟨n.log2, n - 2 ^ n.log2, by omega, by omega⟩

/-- The last peak of a log is a hash of its own. -/
theorem lastHashed_peakHashes {L : List Digest} (hL : L ≠ []) (hin : mmrInputs H L ⊆ inputs) :
    LastHashed H inputs (peakHashes H L) := by
  obtain ⟨h, s, hs, hlen⟩ := @exists_last L.length (by
    rw [ne_eq, List.length_eq_zero_iff]
    exact hL)
  have hpos := Nat.two_pow_pos h
  have hmem : (h, s) ∈ mountains L.length := by
    rw [hlen, mountains_add_pow hs]
    exact List.mem_append_right _ (List.mem_singleton_self _)
  obtain ⟨x, hx, hval, hne⟩ := @exists_input_of_mmrNode H L h s (by omega)
  refine ⟨(mountains s).map fun p => mmrNode H L p.1 p.2, x, ?_,
    hin (nodeInputs_subset_mmrInputs le_rfl hmem hx), hne⟩
  rw [peakHashes_add_pow hs hlen, hval]

/-- Two rows of trees from one place on with the same values are rows of as many leaves, over the same
entries. -/
theorem eq_of_mountains_map_eq (hno : ¬ H.Collision inputs) {L M : List Digest} {start f g t : ℕ}
    (ht : 2 ^ t ∣ start) (hf : f < 2 ^ t) (hg : g < 2 ^ t) (hfL : start + f ≤ L.length)
    (hgM : start + g ≤ M.length) (hLmax : nodeCount L.length < 2 ^ 64)
    (hMmax : nodeCount M.length < 2 ^ 64)
    (hLin : ∀ p ∈ mountainsFrom start f, nodeInputs H L p.1 p.2 ⊆ inputs)
    (hMin : ∀ p ∈ mountainsFrom start g, nodeInputs H M p.1 p.2 ⊆ inputs)
    (heq : ((mountainsFrom start f).map fun p => mmrNode H L p.1 p.2) =
      (mountainsFrom start g).map fun p => mmrNode H M p.1 p.2) :
    f = g ∧ ∀ i, start ≤ i → i < start + f → logEntry L i = logEntry M i := by
  induction start, f using mountainInduction generalizing g t with
  | zero start =>
      rcases eq_or_ne g 0 with rfl | hne
      · exact ⟨rfl, fun i h1 h2 => by omega⟩
      · rw [mountainsFrom_zero, mountainsFrom_pos hne] at heq
        cases heq
  | step start h r hr ih =>
      rcases eq_or_ne g 0 with rfl | hne
      · rw [mountainsFrom_zero, mountainsFrom_add hr] at heq
        cases heq
      obtain ⟨k, q, rfl, hq⟩ := exists_eq_two_pow_add hne
      rw [mountainsFrom_add hr, mountainsFrom_add hq, List.map_cons, List.map_cons,
        List.cons.injEq] at heq
      rw [mountainsFrom_add hr, List.forall_mem_cons] at hLin
      rw [mountainsFrom_add hq, List.forall_mem_cons] at hMin
      have hposh := Nat.two_pow_pos h
      have hposk := Nat.two_pow_pos k
      have hht : h < t := (Nat.pow_lt_pow_iff_right one_lt_two).mp (by omega)
      have hkt : k < t := (Nat.pow_lt_pow_iff_right one_lt_two).mp (by omega)
      have hdvd : 2 ^ (h + 1) ∣ start := (Nat.pow_dvd_pow 2 hht).trans ht
      obtain rfl : h = k := height_eq_of_mmrNode_eq hno (by omega) (by omega)
        (pos_lt_of_le hdvd (by omega) hLmax)
        (pos_lt_of_le ((Nat.pow_dvd_pow 2 hkt).trans ht) (by omega) hMmax) hLin.1 hMin.1 heq.1
      obtain ⟨rfl, hrest⟩ := ih (dvd_right hdvd) hr hq (by omega) (by omega) hLin.2 hMin.2 heq.2
      refine ⟨rfl, fun i h1 h2 => ?_⟩
      rcases Nat.lt_or_ge i (start + 2 ^ h) with hlt | hge
      · exact logEntry_eq_of_mmrNode_eq hno hLin.1 hMin.1 heq.1 h1 hlt
      · exact hrest i hge (by omega)

/-- Logs of computed roots: one root, one log, unless the two computations exhibit a collision. -/
theorem eq_of_mmrRoot_eq {L M : List Digest} (hL : L ≠ []) (hM : M ≠ [])
    (hLmax : nodeCount L.length < 2 ^ 64) (hMmax : nodeCount M.length < 2 ^ 64)
    (hno : ¬ H.Collision inputs) (hLin : mmrInputs H L ⊆ inputs) (hMin : mmrInputs H M ⊆ inputs)
    (heq : mmrRoot H L = mmrRoot H M) : L = M := by
  rw [mmrRoot_eq hLmax, mmrRoot_eq hMmax, Option.some.injEq] at heq
  have hpeaks := bagged_inj_of_last hno (fun p hp => length_of_mem_peakHashes hp)
    (fun p hp => length_of_mem_peakHashes hp) (fun x hx => hLin (List.mem_append_right _ hx))
    (fun x hx => hMin (List.mem_append_right _ hx)) (lastHashed_peakHashes hL hLin)
    (lastHashed_peakHashes hM hMin) heq
  have hnodes : ∀ {N : List Digest}, mmrInputs H N ⊆ inputs →
      ∀ p ∈ mountainsFrom 0 N.length, nodeInputs H N p.1 p.2 ⊆ inputs := fun hN p hp =>
    List.Subset.trans (nodeInputs_subset_mmrInputs le_rfl hp) hN
  obtain ⟨t, hLt, hMt⟩ : ∃ t, L.length < 2 ^ t ∧ M.length < 2 ^ t :=
    ⟨L.length + M.length, (Nat.lt_two_pow_self).trans_le (Nat.pow_le_pow_right (by omega) (by omega)),
      (Nat.lt_two_pow_self).trans_le (Nat.pow_le_pow_right (by omega) (by omega))⟩
  obtain ⟨hlen, hentries⟩ := eq_of_mountains_map_eq hno (dvd_zero (2 ^ t)) hLt hMt (by omega) (by omega)
    hLmax hMmax (hnodes hLin) (hnodes hMin) hpeaks
  have hvals : L.map Subtype.val = M.map Subtype.val := by
    refine List.ext_getElem? fun i => ?_
    rcases Nat.lt_or_ge i L.length with hi | hi
    · rw [getElem?_logEntry hi, getElem?_logEntry (by omega), hentries i (Nat.zero_le _) (by omega)]
    · rw [List.getElem?_eq_none (by rwa [List.length_map]),
        List.getElem?_eq_none (by rw [List.length_map]; omega)]
  exact List.map_injective_iff.mpr Subtype.val_injective hvals
end ScittCose.Cll

namespace ScittCose

/-- Roots are binding: equal roots are roots of the same entries, in number, order and contents, or the
two computations exhibit a collision; for RFC 6962 trees over entries of any length and for mountain
ranges over body digests. -/
theorem roots_binding (H : Hash) :
    (∀ (D E : List String) (dEntries eEntries : List Octets), D.mapM Octets.fromHex = some dEntries →
      E.mapM Octets.fromHex = some eEntries → Merkle.merkleRoot H D = Merkle.merkleRoot H E →
        dEntries = eEntries ∨
          H.Collision (Merkle.merkleRootInputs H dEntries ++ Merkle.merkleRootInputs H eEntries)) ∧
      ∀ L M : List Cll.Digest, L ≠ [] → M ≠ [] → (Mmr.nodeCount L.length : ℤ) < Cll.maxMmrSize →
        (Mmr.nodeCount M.length : ℤ) < Cll.maxMmrSize → Cll.mmrRoot H L = Cll.mmrRoot H M →
          L = M ∨ H.Collision (Cll.mmrInputs H L ++ Cll.mmrInputs H M) := by
  constructor
  · intro D E dEntries eEntries hD hE heq
    refine or_iff_not_imp_right.mpr fun hno => ?_
    have hroot : Merkle.merkleRoot H D = some (Octets.toHex (Merkle.rootOf H dEntries)) :=
      Merkle.merkleRoot_eq_some_iff.mpr ⟨dEntries, hD, rfl⟩
    obtain ⟨_, hE', htext⟩ := Merkle.merkleRoot_eq_some_iff.mp (heq.symm.trans hroot)
    obtain rfl := Option.some.inj (hE.symm.trans hE')
    exact Merkle.eq_of_rootOf_eq hno (List.subset_append_left _ _) (List.subset_append_right _ _)
      (Octets.toHex_inj.mp htext)
  · intro L M hL hM hLmax hMmax heq
    unfold Cll.maxMmrSize at hLmax hMmax
    exact or_iff_not_imp_right.mpr fun hno => Cll.eq_of_mmrRoot_eq hL hM (by omega) (by omega) hno
      (List.subset_append_left _ _) (List.subset_append_right _ _) heq

/-- Two spellings of one entry, and one log. -/
theorem roots_binding_samples :
    (([[0xab]] : List Octets) = [[0xab]] ∨ Hash.sha256.Collision
        (Merkle.merkleRootInputs Hash.sha256 [[0xab]] ++ Merkle.merkleRootInputs Hash.sha256 [[0xab]])) ∧
      (Cll.sampleLog = Cll.sampleLog ∨ Hash.sha256.Collision
        (Cll.mmrInputs Hash.sha256 Cll.sampleLog ++ Cll.mmrInputs Hash.sha256 Cll.sampleLog)) := by
  have hmax : (Mmr.nodeCount Cll.sampleLog.length : ℤ) < Cll.maxMmrSize := by
    rw [show Cll.sampleLog.length = 2 from rfl, Cll.nodeCount_two]
    decide
  exact ⟨(roots_binding Hash.sha256).1 ["ab"] ["AB"] [[0xab]] [[0xab]] (by decide) (by decide)
      (by decide +kernel),
    (roots_binding Hash.sha256).2 Cll.sampleLog Cll.sampleLog (by decide) (by decide) hmax hmax rfl⟩

end ScittCose
