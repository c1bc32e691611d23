import ScittCose.Lib.Mmr

/-!
# Position math of the checkpointed log (`scitt_cose/cll.py`)

`height_at`, `peaks`, `leaf_count`, `_find_containing_peak` and `_locate_path`, over the flat positions
of a Merkle mountain range. `none` is an exception. Each is related to the nodes of `Mmr`: a valid size
is the node count of exactly one number of leaves (`peaks_eq_some_iff`), and the path located between
two positions is the way up between their nodes (`locatePath_eq`).
-/

namespace ScittCose.Cll

open Mmr

/-- `MAX_MMR_SIZE` -/
def maxMmrSize : ℤ := 2 ^ 50

section Source

/-- The first loop of `height_at`; `fuel` bounds its rounds. -/
def growHeight (pos1 : ℕ) : ℕ → ℕ → ℕ
  | 0, h => h
  | fuel + 1, h => if 2 ^ (h + 1) - 1 < pos1 then growHeight pos1 fuel (h + 1) else h

/-- The second loop of `height_at`. -/
def descendHeight : ℕ → ℕ → ℕ
  | 0, _ => 0
  | h + 1, pos1 =>
    if pos1 = 2 ^ (h + 2) - 1 then h + 1
    else
      let leftSize := 2 ^ (h + 1) - 1
      descendHeight h (if leftSize < pos1 then pos1 - leftSize else pos1)

/-- `height_at` -/
def heightAt (pos : ℕ) : ℕ := descendHeight (growHeight (pos + 1) (pos + 1) 0) (pos + 1)

/-- The inner loop of `peaks`; `fuel` bounds its rounds. -/
def peakHeight (remaining : ℕ) : ℕ → ℕ → ℕ
  | 0, h => h
  | fuel + 1, h => if 2 ^ (h + 2) - 1 ≤ remaining then peakHeight remaining fuel (h + 1) else h

/-- The outer loop of `peaks`. No previous height is an infinite one. -/
def peaksLoop : ℕ → ℕ → ℕ → Option ℕ → Option (List ℕ)
  | 0, _, _, _ => some []
  | fuel + 1, remaining, offset, prevHeight =>
    if remaining = 0 then some []
    else
      let h := peakHeight remaining remaining 0
      if prevHeight.any fun prev => prev ≤ h then none
      else
        let mSize := 2 ^ (h + 1) - 1
        (peaksLoop fuel (remaining - mSize) (offset + mSize) (some h)).map
          fun result => (offset + mSize - 1) :: result

/-- `peaks` -/
def peaks (size : ℤ) : Option (List ℕ) :=
  if size < 0 ∨ maxMmrSize ≤ size then none
  else peaksLoop size.toNat size.toNat 0 none

/-- `leaf_count` -/
def leafCount (size : ℤ) : Option ℕ :=
  (peaks size).map fun pks => (pks.map fun p => 2 ^ heightAt p).sum

/-- `leaf_index_to_pos` -/
def leafIndexToPos (leafIndex : ℤ) : Option ℕ :=
  if leafIndex < 0 then none
  else if maxMmrSize ≤ nodeCount leafIndex.toNat then none
  else some (nodeCount leafIndex.toNat)

/-- `_find_containing_peak`; `none` is `-1`. -/
def findContainingPeak (pos : ℕ) (peakPositions : List ℕ) : Option ℕ :=
  peakPositions.findIdx? fun peakPos =>
    let h := heightAt peakPos
    let mSize := 2 ^ (h + 1) - 1
    let start : ℤ := peakPos - (mSize : ℕ) + 1
    start ≤ pos ∧ pos ≤ peakPos

/-- `_PathStep` -/
structure PathStep where
  siblingPos : ℕ
  targetIsRight : Bool
  parentPos : ℕ
deriving DecidableEq

/-- The loop of `_locate_path`, top down. A root of height `h` is no less than `2 ^ (h + 1) - 2`, so no
difference is negative. -/
def locateDown (targetPos : ℕ) : ℕ → ℕ → List PathStep
  | 0, _ => []
  | h + 1, curRoot =>
    if curRoot = targetPos then []
    else
      let leftSize := 2 ^ (h + 1) - 1
      let leftChildRoot := curRoot - leftSize - 1
      let rightChildRoot := curRoot - 1
      if targetPos ≤ leftChildRoot then
        ⟨rightChildRoot, false, curRoot⟩ :: locateDown targetPos h leftChildRoot
      else ⟨leftChildRoot, true, curRoot⟩ :: locateDown targetPos h rightChildRoot

/-- `_locate_path` -/
def locatePath (rootPos height targetPos : ℕ) : List PathStep :=
  (locateDown targetPos height rootPos).reverse

end Source

/-! ## Heights -/

theorem growHeight_spec {pos1 fuel h : ℕ} (hfuel : pos1 < 2 ^ (h + fuel + 1)) :
    pos1 ≤ 2 ^ (growHeight pos1 fuel h + 1) - 1 := by
  induction fuel generalizing h with
  | zero =>
      unfold growHeight
      rw [Nat.add_zero] at hfuel
      omega
  | succ fuel ih =>
      unfold growHeight
      split_ifs with hlt
      · apply ih
        have hcount : h + 1 + fuel + 1 = h + (fuel + 1) + 1 := by omega
        rwa [hcount]
      · omega

/-- Descending from a tree that holds a node finds the node's height. -/
theorem descendHeight_below {H h s : ℕ} (hb : Below H 0 h s) :
    descendHeight H (pos h s + 1) = h := by
  induction H generalizing s with
  | zero =>
      obtain ⟨hle, -⟩ := hb.leaves (dvd_zero _)
      unfold descendHeight
      omega
  | succ H ih =>
      have hpow : 2 ^ (H + 1) = 2 * 2 ^ H := pow_succ' 2 H
      have hpow2 : 2 ^ (H + 2) = 2 * 2 ^ (H + 1) := pow_succ' 2 (H + 1)
      have hposH := Nat.two_pow_pos H
      have htop : pos (H + 1) 0 = 2 ^ (H + 2) - 2 := by
        unfold pos
        rw [nodeCount_zero, Nat.zero_add]
      unfold descendHeight
      cases hb with
      | root =>
          rw [if_pos]
          omega
      | left hb =>
          -- the left half: the position stays
          have hbound := (hb.pos_bounds (dvd_zero _)).2
          have htop' : pos H 0 = 2 ^ (H + 1) - 2 := by
            unfold pos
            rw [nodeCount_zero, Nat.zero_add]
          rw [if_neg (by omega)]
          dsimp only
          rw [if_neg (by omega)]
          exact ih hb
      | right hb =>
          -- the right half: the position moves back over the left half
          have hdvd : 2 ^ H ∣ 0 + 2 ^ H := by simp
          obtain ⟨hle, hs, hlo, hhi⟩ := hb.leaves hdvd
          have hbound := hb.pos_bounds hdvd
          have hfirst : nodeCount (0 + 2 ^ H) = 2 ^ (H + 1) - 1 := by
            rw [Nat.zero_add, nodeCount_pow]
          have hroot := pos_right (show 2 ^ (H + 1) ∣ 0 from dvd_zero _)
          obtain ⟨r, rfl⟩ : ∃ r, s = 2 ^ H + r := ⟨s - 2 ^ H, by omega⟩
          have hr : r < 2 ^ H := by
            have := Nat.two_pow_pos h
            omega
          have hcount : nodeCount (2 ^ H + r) = (2 ^ (H + 1) - 1) + nodeCount r := by
            rw [nodeCount_add (dvd_refl _) hr, nodeCount_pow]
          have hmove : pos h (2 ^ H + r) + 1 - (2 ^ (H + 1) - 1) = pos h r + 1 := by
            unfold pos
            omega
          rw [if_neg (by omega)]
          dsimp only
          rw [if_pos (by omega), hmove]
          apply ih
          refine below_of_leaves (dvd_zero _) hle ?_ (Nat.zero_le _) (by omega)
          exact (Nat.dvd_add_right (Nat.pow_dvd_pow 2 hle)).mp hs

/-- The height of a node's position. -/
theorem heightAt_pos {h s : ℕ} (hs : 2 ^ h ∣ s) : heightAt (pos h s) = h := by
  have hgrow := @growHeight_spec (pos h s + 1) (pos h s + 1) 0 (by
    rw [Nat.zero_add]
    exact (Nat.lt_two_pow_self).trans (Nat.pow_lt_pow_right one_lt_two (Nat.lt_succ_self _)))
  unfold heightAt
  generalize growHeight (pos h s + 1) (pos h s + 1) 0 = H at hgrow ⊢
  apply descendHeight_below
  have hH : pos h s + 1 ≤ nodeCount (2 ^ H) := by rwa [nodeCount_pow]
  -- a node that ends within the tree covers leaves of the tree
  have hlt : s < 2 ^ H := nodeCount_strictMono.lt_iff_lt.mp (by
    have := nodeCount_le_pos h s
    omega)
  have hle : h ≤ H := by
    by_contra hlt'
    have h1 : 2 ^ (H + 2) ≤ 2 ^ (h + 1) := Nat.pow_le_pow_right (by omega) (by omega)
    have h2 : 2 ^ (H + 2) = 2 * 2 ^ (H + 1) := pow_succ' 2 (H + 1)
    have := Nat.two_pow_pos (H + 1)
    unfold pos at hgrow
    omega
  refine below_of_leaves (dvd_zero _) hle hs (Nat.zero_le _) ?_
  rw [Nat.zero_add]
  obtain ⟨a, rfl⟩ := hs
  obtain ⟨b, hb⟩ : 2 ^ h ∣ 2 ^ H := Nat.pow_dvd_pow 2 hle
  rw [hb] at hlt ⊢
  have hab : a < b := lt_of_mul_lt_mul_left' hlt
  calc 2 ^ h * a + 2 ^ h = 2 ^ h * (a + 1) := by ring
    _ ≤ 2 ^ h * b := Nat.mul_le_mul_left _ hab

/-! ## Peaks -/

/-- Where the root of a tree lies. -/
def peakPos (p : ℕ × ℕ) : ℕ := pos p.1 p.2

theorem peakHeight_eq {remaining h fuel k : ℕ} (hlo : 2 ^ (h + 1) - 1 ≤ remaining)
    (hhi : remaining < 2 ^ (h + 2) - 1) (hk : k ≤ h) (hfuel : h ≤ k + fuel) :
    peakHeight remaining fuel k = h := by
  induction fuel generalizing k with
  | zero =>
      unfold peakHeight
      omega
  | succ fuel ih =>
      unfold peakHeight
      rcases Nat.lt_or_ge k h with hlt | hge
      · have hpow : 2 ^ (k + 2) ≤ 2 ^ (h + 1) := Nat.pow_le_pow_right (by omega) (by omega)
        rw [if_pos (by omega)]
        exact ih hlt (by omega)
      · obtain rfl : k = h := by omega
        rw [if_neg (by omega)]

/-- Some tree is the tallest that fits. -/
theorem exists_height {remaining : ℕ} (h : remaining ≠ 0) :
    ∃ h, 2 ^ (h + 1) - 1 ≤ remaining ∧ remaining < 2 ^ (h + 2) - 1 := by
  have hne : remaining + 1 ≠ 0 := Nat.succ_ne_zero _
  have hlo := Nat.log2_self_le hne
  have hhi : remaining + 1 < 2 ^ ((remaining + 1).log2 + 1) := Nat.lt_log2_self
  obtain ⟨e, he⟩ : ∃ e, (remaining + 1).log2 = e + 1 := by
    refine ⟨(remaining + 1).log2 - 1, ?_⟩
    have : 1 ≤ (remaining + 1).log2 := (Nat.le_log2 hne).mpr (by omega)
    omega
  rw [he] at hlo hhi
  have hpow : 2 ^ (e + 2) = 2 ^ (e + 1 + 1) := rfl
  exact ⟨e, by omega, by omega⟩

/-- The loop as one step, with the height of the tree that fits. -/
theorem peaksLoop_step {fuel remaining offset h : ℕ} {prev : Option ℕ}
    (hlo : 2 ^ (h + 1) - 1 ≤ remaining) (hhi : remaining < 2 ^ (h + 2) - 1) :
    peaksLoop (fuel + 1) remaining offset prev =
      if prev.any fun p => p ≤ h then none
      else (peaksLoop fuel (remaining - (2 ^ (h + 1) - 1)) (offset + (2 ^ (h + 1) - 1)) (some h)).map
        fun result => (offset + (2 ^ (h + 1) - 1) - 1) :: result := by
  have hpos := Nat.two_pow_pos (h + 1)
  have hfuel : h < 2 ^ h := Nat.lt_two_pow_self
  have hpow : 2 ^ (h + 1) = 2 * 2 ^ h := pow_succ' 2 h
  have hheight : peakHeight remaining remaining 0 = h :=
    peakHeight_eq hlo hhi (Nat.zero_le _) (by omega)
  rw [peaksLoop, if_neg (by omega)]
  dsimp only
  rw [hheight]

/-- The loop accepts what is left of a node count, and its positions are those of the trees. -/
theorem peaksLoop_nodeCount {start f : ℕ} {fuel : ℕ} {prev : Option ℕ} (hfuel : nodeCount f ≤ fuel)
    {t : ℕ} (ht : 2 ^ t ∣ start) (hf : f < 2 ^ t) (hprev : ∀ p ∈ prev, f < 2 ^ p) :
    peaksLoop fuel (nodeCount f) (nodeCount start) prev =
      some ((mountainsFrom start f).map peakPos) := by
  induction start, f using mountainInduction generalizing fuel prev t with
  | zero start =>
      rw [mountainsFrom_zero, nodeCount_zero]
      cases fuel with
      | zero => rfl
      | succ fuel =>
          rw [peaksLoop, if_pos rfl]
          rfl
  | step start h r hr ih =>
      have hpow : 2 ^ (h + 1) = 2 * 2 ^ h := pow_succ' 2 h
      have hpow2 : 2 ^ (h + 2) = 2 * 2 ^ (h + 1) := pow_succ' 2 (h + 1)
      have hpos := Nat.two_pow_pos h
      have hcount : nodeCount (2 ^ h + r) = (2 ^ (h + 1) - 1) + nodeCount r := by
        rw [nodeCount_add (dvd_refl _) hr, nodeCount_pow]
      have hlt := nodeCount_lt_pow hr
      have hht : h < t := (Nat.pow_lt_pow_iff_right one_lt_two).mp (by omega)
      have hdvd : 2 ^ (h + 1) ∣ start := (Nat.pow_dvd_pow 2 hht).trans ht
      obtain ⟨fuel, rfl⟩ : ∃ n, fuel = n + 1 := ⟨fuel - 1, by omega⟩
      have hany : ¬ (prev.any fun p => p ≤ h) = true := by
        cases prev with
        | none => simp
        | some p =>
            have hp := hprev p rfl
            have : h < p := (Nat.pow_lt_pow_iff_right one_lt_two).mp (by omega)
            simpa using this
      rw [hcount, @peaksLoop_step _ _ _ h _ (by omega) (by omega), if_neg hany,
        Nat.add_sub_cancel_left, ← nodeCount_add_pow hdvd,
        ih (by omega) (dvd_right hdvd) hr (fun p hp => by cases hp; exact hr), mountainsFrom_add hr]
      refine congrArg some (congrArg (· :: _) ?_)
      have hroot : peakPos (h, start) = nodeCount start + (2 ^ (h + 1) - 2) := rfl
      rw [nodeCount_add_pow hdvd, hroot]
      omega

/-- What the loop accepts is left of a node count. -/
theorem exists_nodeCount_of_peaksLoop {fuel remaining offset : ℕ} {prev : Option ℕ} {pks : List ℕ}
    (h : peaksLoop fuel remaining offset prev = some pks) (hfuel : remaining ≤ fuel) :
    ∃ f, remaining = nodeCount f ∧ ∀ p ∈ prev, f < 2 ^ p := by
  induction fuel generalizing remaining offset prev pks with
  | zero =>
      obtain rfl : remaining = 0 := by omega
      exact ⟨0, nodeCount_zero.symm, fun p _ => Nat.two_pow_pos p⟩
  | succ fuel ih =>
      rcases Nat.eq_zero_or_pos remaining with rfl | hpos
      · exact ⟨0, nodeCount_zero.symm, fun p _ => Nat.two_pow_pos p⟩
      · obtain ⟨height, hlo, hhi⟩ := exists_height (Nat.pos_iff_ne_zero.mp hpos)
        rw [peaksLoop_step hlo hhi] at h
        split_ifs at h with hany
        obtain ⟨rest, hrest, -⟩ := Option.map_eq_some_iff.mp h
        have hpow := Nat.two_pow_pos height
        have hpow' : 2 ^ (height + 1) = 2 * 2 ^ height := pow_succ' 2 height
        obtain ⟨r, hr, hrlt⟩ := ih hrest (by omega)
        have hr' : r < 2 ^ height := hrlt height rfl
        refine ⟨2 ^ height + r, ?_, fun p hp => ?_⟩
        · rw [nodeCount_add (dvd_refl _) hr', nodeCount_pow]
          omega
        · have hlt : height < p := by
            obtain rfl := hp
            simpa using hany
          have : 2 ^ (height + 1) ≤ 2 ^ p := Nat.pow_le_pow_right (by omega) hlt
          omega

/-- A size is valid when it is the node count of some number of leaves and below the maximum. -/
theorem peaks_eq_some_iff {size : ℤ} {pks : List ℕ} :
    peaks size = some pks ↔
      ∃ f, size = nodeCount f ∧ size < maxMmrSize ∧ pks = (mountains f).map peakPos := by
  have hval : ∀ f, peaksLoop (nodeCount f) (nodeCount f) 0 none =
      some ((mountains f).map peakPos) := by
    intro f
    have h := @peaksLoop_nodeCount 0 f (nodeCount f) none le_rfl f (dvd_zero _)
      Nat.lt_two_pow_self (by simp)
    rwa [nodeCount_zero] at h
  constructor
  · intro h
    unfold peaks at h
    split_ifs at h with hrange
    obtain ⟨f, hf, -⟩ := exists_nodeCount_of_peaksLoop h le_rfl
    refine ⟨f, by omega, by omega, ?_⟩
    rw [hf, hval] at h
    exact (Option.some.inj h).symm
  · rintro ⟨f, rfl, hmax, rfl⟩
    unfold peaks
    rw [if_neg (by omega), Int.toNat_natCast, hval]

theorem peaks_nodeCount {f : ℕ} (hmax : (nodeCount f : ℤ) < maxMmrSize) :
    peaks (nodeCount f) = some ((mountains f).map peakPos) :=
  peaks_eq_some_iff.mpr ⟨f, rfl, hmax, rfl⟩

theorem heightAt_peakPos {f : ℕ} {p : ℕ × ℕ} (hp : p ∈ mountains f) : heightAt (peakPos p) = p.1 :=
  heightAt_pos (dvd_left (mem_mountains hp).1)

theorem sum_mountainsFrom (start f : ℕ) :
    ((mountainsFrom start f).map fun p => 2 ^ p.1).sum = f := by
  induction start, f using mountainInduction with
  | zero start =>
      rw [mountainsFrom_zero]
      rfl
  | step start h r hr ih => rw [mountainsFrom_add hr, List.map_cons, List.sum_cons, ih]

/-- The leaves of a valid size. -/
theorem leafCount_eq_some_iff {size : ℤ} {n : ℕ} :
    leafCount size = some n ↔ size = nodeCount n ∧ size < maxMmrSize := by
  have hsum : ∀ f, (((mountains f).map peakPos).map fun p => 2 ^ heightAt p).sum = f := by
    intro f
    rw [List.map_map]
    calc ((mountains f).map ((fun p => 2 ^ heightAt p) ∘ peakPos)).sum
        = ((mountains f).map fun p => 2 ^ p.1).sum := by
          refine congrArg List.sum (List.map_congr_left fun p hp => ?_)
          rw [Function.comp_apply, heightAt_peakPos hp]
      _ = f := sum_mountainsFrom 0 f
  unfold leafCount
  rw [Option.map_eq_some_iff]
  constructor
  · rintro ⟨pks, hpks, rfl⟩
    obtain ⟨f, hf, hmax, rfl⟩ := peaks_eq_some_iff.mp hpks
    rw [hsum]
    exact ⟨hf, hmax⟩
  · rintro ⟨rfl, hmax⟩
    exact ⟨_, peaks_nodeCount hmax, hsum n⟩

/-! ## Paths -/

/-- The first peak whose tree holds a node is the root above the node. -/
theorem findContainingPeak_from {start f t : ℕ} (ht : 2 ^ t ∣ start) (hf : f < 2 ^ t) {q : ℕ × ℕ}
    (hq : q ∈ mountainsFrom start f) {h s : ℕ} (hb : Below q.1 q.2 h s) :
    ∃ i, findContainingPeak (pos h s) ((mountainsFrom start f).map peakPos) = some i ∧
      (mountainsFrom start f)[i]? = some q := by
  induction start, f using mountainInduction generalizing t with
  | zero start =>
      rw [mountainsFrom_zero] at hq
      cases hq
  | step start H r hr ih =>
      have hpow : 2 ^ (H + 1) = 2 * 2 ^ H := pow_succ' 2 H
      have hposH := Nat.two_pow_pos H
      have hHt : H < t := (Nat.pow_lt_pow_iff_right one_lt_two).mp (by omega)
      have hdvd : 2 ^ (H + 1) ∣ start := (Nat.pow_dvd_pow 2 hHt).trans ht
      have hheight : heightAt (peakPos (H, start)) = H := heightAt_pos (dvd_left hdvd)
      have hroot : peakPos (H, start) = nodeCount start + (2 ^ (H + 1) - 2) := rfl
      have hnode : pos h s = nodeCount s + (2 ^ (h + 1) - 2) := rfl
      rw [mountainsFrom_add hr] at hq ⊢
      unfold findContainingPeak at ih ⊢
      rw [List.map_cons, List.findIdx?_cons]
      dsimp only
      rw [hheight]
      rcases List.mem_cons.mp hq with rfl | hq'
      · obtain ⟨h1, h2⟩ := hb.pos_bounds (dvd_left hdvd)
        have h2' : pos h s ≤ peakPos (H, start) := h2
        refine ⟨0, ?_, rfl⟩
        rw [if_pos]
        rw [decide_eq_true_eq]
        dsimp only at h1
        omega
      · obtain ⟨hq1, hq2, -, -⟩ := mem_mountainsFrom hq' (dvd_right hdvd) hr
        obtain ⟨h1, -⟩ := hb.pos_bounds (dvd_left hq1)
        have hfirst := nodeCount_strictMono.monotone hq2
        rw [nodeCount_add_pow hdvd] at hfirst
        obtain ⟨i, hi, hget⟩ := ih (dvd_right hdvd) hr hq'
        refine ⟨i + 1, ?_, hget⟩
        rw [if_neg, hi]
        · rfl
        · rw [decide_eq_true_eq]
          omega

theorem findContainingPeak_eq {f : ℕ} {q : ℕ × ℕ} (hq : q ∈ mountains f) {h s : ℕ}
    (hb : Below q.1 q.2 h s) :
    ∃ i, findContainingPeak (pos h s) ((mountains f).map peakPos) = some i ∧
      (mountains f)[i]? = some q :=
  findContainingPeak_from (dvd_zero (2 ^ f)) Nat.lt_two_pow_self hq hb

theorem locatePath_self (rootPos height : ℕ) : locatePath rootPos height rootPos = [] := by
  unfold locatePath
  cases height with
  | zero => rfl
  | succ height =>
      rw [locateDown, if_pos rfl]
      rfl

/-- The last step up to a root from the tree of its left child. -/
theorem locatePath_left {H S h s : ℕ} (hb : Below H S h s) (hS : 2 ^ (H + 1) ∣ S) :
    locatePath (pos (H + 1) S) (H + 1) (pos h s) =
      locatePath (pos H S) H (pos h s) ++ [⟨pos H (S + 2 ^ H), false, pos (H + 1) S⟩] := by
  have hbound := (hb.pos_bounds (dvd_left hS)).2
  have hpos := Nat.two_pow_pos (H + 1)
  have hroot := pos_left H S
  have hroot' := pos_right hS
  have hleft : pos (H + 1) S - (2 ^ (H + 1) - 1) - 1 = pos H S := by omega
  have hright : pos (H + 1) S - 1 = pos H (S + 2 ^ H) := by omega
  unfold locatePath
  rw [locateDown, if_neg (by omega)]
  dsimp only
  rw [hleft, if_pos hbound, hright, List.reverse_cons]

/-- The last step up to a root from the tree of its right child. -/
theorem locatePath_right {H S h s : ℕ} (hb : Below H (S + 2 ^ H) h s)
    (hS : 2 ^ (H + 1) ∣ S) :
    locatePath (pos (H + 1) S) (H + 1) (pos h s) =
      locatePath (pos H (S + 2 ^ H)) H (pos h s) ++ [⟨pos H S, true, pos (H + 1) S⟩] := by
  obtain ⟨hlo, hhi⟩ := hb.pos_bounds (dvd_right hS)
  have hpos := Nat.two_pow_pos (H + 1)
  have hroot := pos_right hS
  have hroot' := pos_left H S
  have hleft : pos (H + 1) S - (2 ^ (H + 1) - 1) - 1 = pos H S := by omega
  have hright : pos (H + 1) S - 1 = pos H (S + 2 ^ H) := by omega
  rw [nodeCount_add_pow hS] at hlo
  have hnot : ¬ pos h s ≤ pos H S := by
    rw [pos.eq_def H S]
    omega
  unfold locatePath
  rw [locateDown, if_neg (by omega)]
  dsimp only
  rw [hleft, if_neg hnot, hright, List.reverse_cons]

/-- The path located between a root and a node below it is the way up. -/
theorem locatePath_eq {H S h s : ℕ} (hb : Below H S h s) (hS : 2 ^ H ∣ S) :
    (locatePath (pos H S) H (pos h s)).map (fun step => (step.targetIsRight, step.parentPos)) =
      path h s H S := by
  induction hb with
  | root H S =>
      rw [path_self, locatePath_self]
      rfl
  | @left H S h s hb ih =>
      rw [locatePath_left hb hS, List.map_append, ih (dvd_left hS), hb.path_left (dvd_left hS)]
      rfl
  | @right H S h s hb ih =>
      rw [locatePath_right hb hS, List.map_append, ih (dvd_right hS), hb.path_right (dvd_right hS)]
      rfl

end ScittCose.Cll
