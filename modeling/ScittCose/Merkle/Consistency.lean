import ScittCose.Merkle.Inclusion
import ScittCose.Lib.Sha256

/-!
# RFC 6962 consistency proofs (`scitt_cose/merkle.py`)

`verify_consistency` walks the bits of the two sizes from the bottom; the recursion of `_subproof`
goes down the split. `spine m n` is the way up from the last complete subtree of the first `m` leaves
of `n`, and `consistencyLoop_eq_iff` says the loop replays it. The verifier checks no node's length,
so the first node hashed may be cut from its sibling elsewhere than after 32 octets (`Resplit`);
`verifyConsistency_sound_iff` says that is the only way a root that is not the root of the first `m`
entries passes.
-/

namespace ScittCose.Merkle

section Source

variable (H : Hash)

/-- `_subproof`, with the number of leaves as fuel. -/
def subproofFuel : ℕ → ℕ → List Octets → Bool → List Octets
  | 0, _, _, _ => []
  | fuel + 1, m, leaves, b =>
    if m = leaves.length then if b then [] else [mth H leaves]
    else
      let k := largestPow2Below leaves.length
      if m ≤ k then subproofFuel fuel m (leaves.take k) b ++ [mth H (leaves.drop k)]
      else subproofFuel fuel (m - k) (leaves.drop k) false ++ [mth H (leaves.take k)]

/-- `_subproof`. -/
def subproof (m : ℕ) (leaves : List Octets) (b : Bool) : List Octets :=
  subproofFuel H leaves.length m leaves b

/-- `consistency_proof`; the error is the name of the exception. -/
def consistencyProof (entriesHex : List String) (m n : ℤ) : Except String (List String) :=
  if ¬ (0 ≤ m ∧ m ≤ n) then .error "ValueError"
  else if entriesHex.length < n then .error "ValueError"
  else if m = 0 ∨ m = n then .ok []
  else
    match (entriesHex.take n.toNat).mapM Octets.fromHex with
    | none => .error "ValueError"
    | some entries =>
      .ok ((subproof H m.toNat (entries.map (leafHashBytes H)) true).map Octets.toHex)

/-- `while fn & 1: fn >>= 1; sn >>= 1`; `fuel` bounds the rounds. -/
def shiftOdd : ℕ → ℕ → ℕ → ℕ × ℕ
  | 0, fn, sn => (fn, sn)
  | fuel + 1, fn, sn => if fn % 2 = 1 then shiftOdd fuel (fn / 2) (sn / 2) else (fn, sn)

/-- `while not (fn & 1) and fn != 0: fn >>= 1; sn >>= 1`; `fuel` bounds the rounds. -/
def shiftEven : ℕ → ℕ → ℕ → ℕ × ℕ
  | 0, fn, sn => (fn, sn)
  | fuel + 1, fn, sn =>
    if fn % 2 = 0 ∧ fn ≠ 0 then shiftEven fuel (fn / 2) (sn / 2) else (fn, sn)

/-- The loop over `proof[1:]`: `none` where it returns `False`, else the last `sn`, `fr` and `sr`. -/
def consistencyLoop : List Octets → ℕ → ℕ → Octets → Octets → Option (ℕ × Octets × Octets)
  | [], _, sn, fr, sr => some (sn, fr, sr)
  | node :: nodes, fn, sn, fr, sr =>
    if sn = 0 then none
    else if fn % 2 = 1 ∨ fn = sn then
      let shifted := shiftEven fn fn sn
      consistencyLoop nodes (shifted.1 / 2) (shifted.2 / 2) (nodeHash H node fr) (nodeHash H node sr)
    else consistencyLoop nodes (fn / 2) (sn / 2) fr (nodeHash H sr node)

/-- The nodes `verify_consistency` works on: the proof, after the first root when `m` is a power of
two; `none` is the `ValueError` of a text that is not hexadecimal. -/
def seededProof (firstRootHex : String) (m : ℕ) (proofHex : List String) :
    Option (List Octets) := do
  let proof ← proofHex.mapM Octets.fromHex
  if m &&& (m - 1) = 0 then
    let seed ← Octets.fromHex firstRootHex
    return seed :: proof
  else return proof

/-- `verify_consistency`; the error is the name of the exception. -/
def verifyConsistency (firstRootHex secondRootHex : String) (firstSize secondSize : ℤ)
    (proofHex : List String) : Except String Bool :=
  if firstSize < 0 ∨ secondSize < 0 ∨ secondSize < firstSize then .ok false
  else if firstSize = 0 then .ok proofHex.isEmpty
  else if firstSize = secondSize then .ok (proofHex.isEmpty && firstRootHex == secondRootHex)
  else
    let m := firstSize.toNat
    let n := secondSize.toNat
    match seededProof firstRootHex m proofHex with
    | none => .error "ValueError"
    | some [] => .ok false
    | some (seed :: nodes) =>
      let shifted := shiftOdd (m - 1) (m - 1) (n - 1)
      match consistencyLoop H nodes shifted.1 shifted.2 seed seed with
      | none => .ok false
      | some (sn, fr, sr) =>
        .ok (sn == 0 && Octets.toHex fr == firstRootHex && Octets.toHex sr == secondRootHex)

/-- What the loop hashes. -/
def consistencyLoopInputs : List Octets → ℕ → ℕ → Octets → Octets → List Octets
  | [], _, _, _, _ => []
  | node :: nodes, fn, sn, fr, sr =>
    if sn = 0 then []
    else if fn % 2 = 1 ∨ fn = sn then
      let shifted := shiftEven fn fn sn
      nodeInput node fr :: nodeInput node sr ::
        consistencyLoopInputs nodes (shifted.1 / 2) (shifted.2 / 2) (nodeHash H node fr)
          (nodeHash H node sr)
    else
      nodeInput sr node :: consistencyLoopInputs nodes (fn / 2) (sn / 2) fr (nodeHash H sr node)

/-- What `verify_consistency` hashes when `0 < m < n`. -/
def consistencyInputs (firstRootHex : String) (m n : ℕ) (proofHex : List String) : List Octets :=
  match seededProof firstRootHex m proofHex with
  | some (seed :: nodes) =>
    let shifted := shiftOdd (m - 1) (m - 1) (n - 1)
    consistencyLoopInputs H nodes shifted.1 shifted.2 seed seed
  | _ => []

end Source

/-! ## The way up, from the bits and from the split -/

/-- The steps of the loop from the bits of the last indices at a level: `true` hashes a left sibling
into both roots, `false` a right sibling into the second. A last node without a sibling moves up. -/
def steps (fn sn : ℕ) : List Bool :=
  if _h : sn = 0 then []
  else if fn % 2 = 1 then true :: steps (fn / 2) (sn / 2)
  else if fn = sn then steps (fn / 2) (sn / 2)
  else false :: steps (fn / 2) (sn / 2)
termination_by sn
decreasing_by all_goals omega

/-- `steps` after the levels at which the old tree ends with a complete subtree. -/
def stepsFrom (fn sn : ℕ) : List Bool :=
  if _h : fn % 2 = 1 then stepsFrom (fn / 2) (sn / 2) else steps fn sn
termination_by fn
decreasing_by omega

/-- The way up from the last complete subtree of the first `m` of `n` leaves, by the split. -/
def spine (m n : ℕ) : List Bool :=
  if _h : m < n ∧ 0 < m then
    if m ≤ largestPow2Below n then spine m (largestPow2Below n) ++ [false]
    else spine (m - largestPow2Below n) (n - largestPow2Below n) ++ [true]
  else []
termination_by n
decreasing_by
  · exact largestPow2Below_lt (by omega)
  · have := largestPow2Below_pos n
    omega

theorem steps_zero (fn : ℕ) : steps fn 0 = [] := by
  rw [steps, dif_pos rfl]

theorem steps_odd {fn sn : ℕ} (hs : sn ≠ 0) (h : fn % 2 = 1) :
    steps fn sn = true :: steps (fn / 2) (sn / 2) := by
  rw [steps, dif_neg hs, if_pos h]

theorem steps_even {fn sn : ℕ} (hs : sn ≠ 0) (h : fn % 2 = 0) (hne : fn ≠ sn) :
    steps fn sn = false :: steps (fn / 2) (sn / 2) := by
  rw [steps, dif_neg hs, if_neg (by omega), if_neg hne]

theorem steps_last {fn : ℕ} (hs : fn ≠ 0) (h : fn % 2 = 0) :
    steps fn fn = steps (fn / 2) (fn / 2) := by
  rw [steps, dif_neg hs, if_neg (by omega), if_pos rfl]

/-- The code hashes before it moves a last node up; the level does not matter. -/
theorem steps_shiftEven {fn fuel : ℕ} (hs : fn ≠ 0) (hfuel : fn ≤ fuel) :
    steps fn fn =
      true :: steps ((shiftEven fuel fn fn).1 / 2) ((shiftEven fuel fn fn).2 / 2) := by
  induction fuel generalizing fn with
  | zero => omega
  | succ fuel ih =>
      rw [shiftEven]
      split_ifs with h
      · rw [steps_last hs h.1]
        exact ih (by omega) (by omega)
      · exact steps_odd hs (by omega)

theorem shiftEven_of_odd {fn sn fuel : ℕ} (h : fn % 2 = 1) : shiftEven fuel fn sn = (fn, sn) := by
  cases fuel with
  | zero => rfl
  | succ fuel => rw [shiftEven, if_neg (by omega)]

theorem shiftEven_same {fn fuel : ℕ} :
    (shiftEven fuel fn fn).1 = (shiftEven fuel fn fn).2 := by
  induction fuel generalizing fn with
  | zero => rfl
  | succ fuel ih =>
      rw [shiftEven]
      split_ifs
      · exact ih
      · rfl

theorem steps_ne_nil {fn sn : ℕ} (hs : sn ≠ 0) (hle : fn ≤ sn) : steps fn sn ≠ [] := by
  by_cases h : fn % 2 = 1
  · rw [steps_odd hs h]
    exact List.cons_ne_nil _ _
  · by_cases hne : fn = sn
    · subst hne
      rw [steps_shiftEven hs le_rfl]
      exact List.cons_ne_nil _ _
    · rw [steps_even hs (by omega) hne]
      exact List.cons_ne_nil _ _

theorem stepsFrom_eq {fn sn fuel : ℕ} (h : fn ≤ fuel) :
    stepsFrom fn sn = steps (shiftOdd fuel fn sn).1 (shiftOdd fuel fn sn).2 := by
  induction fuel generalizing fn sn with
  | zero =>
      obtain rfl : fn = 0 := by omega
      rw [stepsFrom, dif_neg (by norm_num)]
      rfl
  | succ fuel ih =>
      rw [stepsFrom, shiftOdd]
      split_ifs with hodd
      · exact ih (by omega)
      · rfl

theorem steps_zero_one : steps 0 1 = [false] := by
  rw [steps_even one_ne_zero rfl zero_ne_one]
  exact congrArg _ (steps_zero 0)

theorem steps_one_one : steps 1 1 = [true] := by
  rw [steps_odd one_ne_zero rfl]
  exact congrArg _ (steps_zero 0)

theorem shiftOdd_le {fuel fn sn : ℕ} (h : fn ≤ sn) :
    (shiftOdd fuel fn sn).1 ≤ (shiftOdd fuel fn sn).2 := by
  induction fuel generalizing fn sn with
  | zero => exact h
  | succ fuel ih =>
      rw [shiftOdd]
      split_ifs
      · exact ih (Nat.div_le_div_right h)
      · exact h

/-- Below the top level of a tree, in its left part. -/
theorem steps_left {fn sn t : ℕ} (hf : fn < 2 ^ t) (hlo : 2 ^ t ≤ sn) (hhi : sn < 2 ^ (t + 1)) :
    steps fn sn = steps fn (2 ^ t - 1) ++ [false] := by
  induction t generalizing fn sn with
  | zero =>
      obtain rfl : fn = 0 := by omega
      obtain rfl : sn = 1 := by omega
      rw [steps_zero_one, pow_zero, Nat.sub_self, steps_zero]
      rfl
  | succ t ih =>
      have hpos : 0 < 2 ^ t := by positivity
      have hpow : 2 ^ (t + 1) = 2 ^ t * 2 := pow_succ 2 t
      have hhalf : (2 ^ (t + 1) - 1) / 2 = 2 ^ t - 1 := by omega
      have hrec := @ih (fn / 2) (sn / 2) (by omega) (by omega) (by omega)
      by_cases h : fn % 2 = 1
      · have hlast : steps fn (2 ^ (t + 1) - 1) = true :: steps (fn / 2) (2 ^ t - 1) := by
          rw [steps_odd (by omega) h, hhalf]
        rw [steps_odd (by omega) h, hrec, hlast]
        rfl
      · have hlast : steps fn (2 ^ (t + 1) - 1) = false :: steps (fn / 2) (2 ^ t - 1) := by
          rw [steps_even (by omega) (by omega) (by omega), hhalf]
        rw [steps_even (by omega) (by omega) (by omega), hrec, hlast]
        rfl

/-- Below the top level of a tree, in its right part. -/
theorem steps_right {fn sn t : ℕ} (hf : 2 ^ t ≤ fn) (hle : fn ≤ sn) (hhi : sn < 2 ^ (t + 1)) :
    steps fn sn = steps (fn - 2 ^ t) (sn - 2 ^ t) ++ [true] := by
  induction t generalizing fn sn with
  | zero =>
      obtain rfl : fn = 1 := by omega
      obtain rfl : sn = 1 := by omega
      rw [steps_one_one, pow_zero, Nat.sub_self, steps_zero]
      rfl
  | succ t ih =>
      have hpos : 0 < 2 ^ t := by positivity
      have hpow : 2 ^ (t + 1) = 2 ^ t * 2 := pow_succ 2 t
      have hhalf : (fn - 2 ^ (t + 1)) / 2 = fn / 2 - 2 ^ t := by omega
      have hhalf' : (sn - 2 ^ (t + 1)) / 2 = sn / 2 - 2 ^ t := by omega
      have hrec := @ih (fn / 2) (sn / 2) (by omega) (by omega) (by omega)
      by_cases h : fn % 2 = 1
      · have hlast : steps (fn - 2 ^ (t + 1)) (sn - 2 ^ (t + 1)) =
            true :: steps (fn / 2 - 2 ^ t) (sn / 2 - 2 ^ t) := by
          rw [steps_odd (by omega) (by omega), hhalf, hhalf']
        rw [steps_odd (by omega) h, hrec, hlast]
        rfl
      · by_cases hne : fn = sn
        · subst hne
          have hlast : steps (fn - 2 ^ (t + 1)) (fn - 2 ^ (t + 1)) =
              steps (fn / 2 - 2 ^ t) (fn / 2 - 2 ^ t) := by
            by_cases hzero : fn = 2 ^ (t + 1)
            · rw [hzero, Nat.sub_self, show 2 ^ (t + 1) / 2 - 2 ^ t = 0 by omega]
            · rw [steps_last (by omega) (by omega), hhalf]
          rw [steps_last (by omega) (by omega), hrec, hlast]
        · have hlast : steps (fn - 2 ^ (t + 1)) (sn - 2 ^ (t + 1)) =
              false :: steps (fn / 2 - 2 ^ t) (sn / 2 - 2 ^ t) := by
            rw [steps_even (by omega) (by omega) (by omega), hhalf, hhalf']
          rw [steps_even (by omega) (by omega) hne, hrec, hlast]
          rfl

theorem stepsFrom_left {fn sn t : ℕ} (hf : fn < 2 ^ t) (hlo : 2 ^ t ≤ sn)
    (hhi : sn < 2 ^ (t + 1)) : stepsFrom fn sn = stepsFrom fn (2 ^ t - 1) ++ [false] := by
  induction t generalizing fn sn with
  | zero =>
      obtain rfl : fn = 0 := by omega
      rw [stepsFrom, dif_neg (by norm_num), stepsFrom, dif_neg (by norm_num)]
      exact steps_left hf hlo hhi
  | succ t ih =>
      rw [stepsFrom]
      conv_rhs => rw [stepsFrom]
      by_cases h : fn % 2 = 1
      · rw [dif_pos h, dif_pos h]
        have hhalf : (2 ^ (t + 1) - 1) / 2 = 2 ^ t - 1 := by rw [pow_succ]; omega
        rw [pow_succ] at hf hlo hhi
        rw [hhalf]
        exact ih (by omega) (by omega) (by omega)
      · rw [dif_neg h, dif_neg h]
        exact steps_left hf hlo hhi

theorem stepsFrom_right {fn sn t : ℕ} (hf : 2 ^ t ≤ fn) (hlt : fn < sn) (hhi : sn < 2 ^ (t + 1)) :
    stepsFrom fn sn = stepsFrom (fn - 2 ^ t) (sn - 2 ^ t) ++ [true] := by
  induction t generalizing fn sn with
  | zero => omega
  | succ t ih =>
      rw [stepsFrom]
      conv_rhs => rw [stepsFrom]
      by_cases h : fn % 2 = 1
      · have hhalf : (fn - 2 ^ (t + 1)) / 2 = fn / 2 - 2 ^ t := by rw [pow_succ]; omega
        have hhalf' : (sn - 2 ^ (t + 1)) / 2 = sn / 2 - 2 ^ t := by rw [pow_succ]; omega
        have hodd : (fn - 2 ^ (t + 1)) % 2 = 1 := by rw [pow_succ] at hf ⊢; omega
        rw [pow_succ] at hf hhi
        rw [dif_pos h, dif_pos hodd, hhalf, hhalf']
        exact ih (by omega) (by omega) (by omega)
      · have heven : ¬ (fn - 2 ^ (t + 1)) % 2 = 1 := by rw [pow_succ] at hf ⊢; omega
        rw [dif_neg h, dif_neg heven]
        exact steps_right hf hlt.le hhi

theorem spine_self (n : ℕ) : spine n n = [] := by
  rw [spine, dif_neg (by omega)]

theorem spine_left {m n : ℕ} (hm : 0 < m) (hlt : m < n) (hk : m ≤ largestPow2Below n) :
    spine m n = spine m (largestPow2Below n) ++ [false] := by
  rw [spine, dif_pos ⟨hlt, hm⟩, if_pos hk]

theorem spine_right {m n : ℕ} (hlt : m < n) (hk : largestPow2Below n < m) :
    spine m n = spine (m - largestPow2Below n) (n - largestPow2Below n) ++ [true] := by
  rw [spine, dif_pos ⟨hlt, by omega⟩, if_neg (by omega)]

theorem spine_ne_nil {m n : ℕ} (hm : 0 < m) (hlt : m < n) : spine m n ≠ [] := by
  by_cases hk : m ≤ largestPow2Below n
  · rw [spine_left hm hlt hk]
    simp
  · rw [spine_right hlt (by omega)]
    simp

theorem stepsFrom_self (n : ℕ) : stepsFrom (2 ^ n - 1) (2 ^ n - 1) = [] := by
  induction n with
  | zero =>
      rw [pow_zero, Nat.sub_self, stepsFrom, dif_neg (by norm_num), steps_zero]
  | succ n ih =>
      have hpos : 0 < 2 ^ n := by positivity
      have hhalf : (2 ^ (n + 1) - 1) / 2 = 2 ^ n - 1 := by rw [pow_succ]; omega
      rw [stepsFrom, dif_pos (by rw [pow_succ]; omega), hhalf, ih]

/-- The bits of the sizes walk up the split. -/
theorem stepsFrom_eq_spine {m n : ℕ} (hm : 0 < m) (hlt : m < n) :
    stepsFrom (m - 1) (n - 1) = spine m n := by
  induction n using Nat.strong_induction_on generalizing m with
  | _ n ih =>
      obtain ⟨t, ht, htlt, htle⟩ := largestPow2Below_spec (n := n) (by omega)
      by_cases hk : m ≤ largestPow2Below n
      · rw [spine_left hm hlt hk, stepsFrom_left (t := t) (by omega) (by omega) (by omega), ht]
        by_cases hmk : m = 2 ^ t
        · rw [hmk, stepsFrom_self, spine_self]
        · rw [ih _ htlt hm (by omega)]
      · rw [spine_right hlt (by omega), stepsFrom_right (t := t) (by omega) (by omega) (by omega), ht,
          ← ih (n - 2 ^ t) (by have : 0 < 2 ^ t := by positivity
                               omega) (by omega) (by omega)]
        rw [show m - 1 - 2 ^ t = m - 2 ^ t - 1 by omega, show n - 1 - 2 ^ t = n - 2 ^ t - 1 by omega]

/-! ## Replaying the way up -/

section Replay

variable (H : Hash)

/-- One step: a left sibling is hashed into both roots, a right sibling into the second. -/
def hashStep (d : Bool) (node : Octets) (roots : Octets × Octets) : Octets × Octets :=
  if d then (nodeHash H node roots.1, nodeHash H node roots.2)
  else (roots.1, nodeHash H roots.2 node)

/-- What a step hashes. -/
def stepInputs (d : Bool) (node : Octets) (roots : Octets × Octets) : List Octets :=
  if d then [nodeInput node roots.1, nodeInput node roots.2] else [nodeInput roots.2 node]

/-- Hash the nodes of a proof into both roots, one node a step; `none` when the counts differ. -/
def replay : List Bool → List Octets → Octets × Octets → Option (Octets × Octets)
  | [], [], roots => some roots
  | d :: ds, node :: nodes, roots => replay ds nodes (hashStep H d node roots)
  | _, _, _ => none

/-- What `replay` hashes. -/
def replayInputs : List Bool → List Octets → Octets × Octets → List Octets
  | d :: ds, node :: nodes, roots =>
    stepInputs d node roots ++ replayInputs ds nodes (hashStep H d node roots)
  | _, _, _ => []

variable {H}

/-- The loop accepts when it replays the steps of its bits. -/
theorem consistencyLoop_eq_iff {nodes : List Octets} {fn sn : ℕ} {fr sr fr' sr' : Octets}
    (hle : fn ≤ sn) :
    consistencyLoop H nodes fn sn fr sr = some (0, fr', sr') ↔
      replay H (steps fn sn) nodes (fr, sr) = some (fr', sr') := by
  induction nodes generalizing fn sn fr sr with
  | nil =>
      by_cases hs : sn = 0
      · subst hs
        rw [steps_zero]
        simp [consistencyLoop, replay]
      · obtain ⟨d, ds, hds⟩ := List.exists_cons_of_ne_nil (steps_ne_nil hs hle)
        simp [consistencyLoop, replay, hds, hs]
  | cons node nodes ih =>
      rw [consistencyLoop]
      by_cases hs : sn = 0
      · subst hs
        rw [steps_zero, if_pos rfl]
        simp [replay]
      rw [if_neg hs]
      by_cases hodd : fn % 2 = 1
      · rw [if_pos (.inl hodd), steps_odd hs hodd, shiftEven_of_odd hodd, replay]
        exact ih (Nat.div_le_div_right hle)
      by_cases hlast : fn = sn
      · subst hlast
        rw [if_pos (.inr rfl), steps_shiftEven hs le_rfl, replay]
        exact ih (by rw [shiftEven_same])
      · rw [if_neg (by tauto), steps_even hs (by omega) hlast, replay]
        exact ih (Nat.div_le_div_right hle)

theorem consistencyLoopInputs_eq {nodes : List Octets} {fn sn : ℕ} {fr sr : Octets}
    (hle : fn ≤ sn) :
    consistencyLoopInputs H nodes fn sn fr sr = replayInputs H (steps fn sn) nodes (fr, sr) := by
  induction nodes generalizing fn sn fr sr with
  | nil => cases steps fn sn <;> rfl
  | cons node nodes ih =>
      rw [consistencyLoopInputs]
      by_cases hs : sn = 0
      · subst hs
        rw [steps_zero, if_pos rfl]
        rfl
      rw [if_neg hs]
      by_cases hodd : fn % 2 = 1
      · rw [if_pos (.inl hodd), steps_odd hs hodd, shiftEven_of_odd hodd, replayInputs]
        dsimp only
        rw [ih (Nat.div_le_div_right hle)]
        rfl
      by_cases hlast : fn = sn
      · subst hlast
        rw [if_pos (.inr rfl), steps_shiftEven hs le_rfl, replayInputs]
        dsimp only
        rw [ih (by rw [shiftEven_same])]
        rfl
      · rw [if_neg (by tauto), steps_even hs (by omega) hlast, replayInputs,
          ih (Nat.div_le_div_right hle)]
        rfl

/-- The last step of a replay. -/
theorem replay_snoc {ds : List Bool} {d : Bool} {nodes : List Octets} {roots roots' : Octets × Octets} :
    replay H (ds ++ [d]) nodes roots = some roots' ↔
      ∃ ys y roots₁, nodes = ys ++ [y] ∧ replay H ds ys roots = some roots₁ ∧
        roots' = hashStep H d y roots₁ := by
  induction ds generalizing nodes roots with
  | nil =>
      match nodes with
      | [] => simp [replay]
      | [x] =>
          rw [List.nil_append, replay, replay, Option.some.injEq]
          constructor
          · rintro rfl
            exact ⟨[], x, roots, rfl, rfl, rfl⟩
          · rintro ⟨ys, y, roots₁, hx, hr, rfl⟩
            match ys, hx, hr with
            | [], hx, hr =>
                obtain rfl : x = y := by simpa using hx
                rw [replay, Option.some.injEq] at hr
                rw [hr]
            | _ :: _, hx, hr => simp at hx
      | x :: x' :: xs =>
          simp only [List.nil_append, replay, false_iff, reduceCtorEq]
          rintro ⟨ys, y, roots₁, hx, hr, -⟩
          match ys, hx, hr with
          | [], hx, _ => simp at hx
          | _ :: _, _, hr => simp [replay] at hr
  | cons e ds ih =>
      match nodes with
      | [] => simp [replay]
      | x :: xs =>
          rw [List.cons_append, replay, ih]
          constructor
          · rintro ⟨ys, y, roots₁, rfl, hr, rfl⟩
            exact ⟨x :: ys, y, roots₁, rfl, by rw [replay, hr], rfl⟩
          · rintro ⟨ys, y, roots₁, hx, hr, rfl⟩
            match ys, hx, hr with
            | [], _, hr => simp [replay] at hr
            | z :: zs, hx, hr =>
                obtain ⟨rfl, rfl⟩ := List.cons.inj hx
                exact ⟨zs, y, roots₁, rfl, by rw [replay] at hr; exact hr, rfl⟩

theorem replayInputs_snoc {ds : List Bool} {d : Bool} {ys : List Octets} {y : Octets}
    {roots roots₁ : Octets × Octets} (h : replay H ds ys roots = some roots₁) :
    replayInputs H (ds ++ [d]) (ys ++ [y]) roots =
      replayInputs H ds ys roots ++ stepInputs d y roots₁ := by
  induction ds generalizing ys roots with
  | nil =>
      match ys, h with
      | [], h =>
          rw [replay, Option.some.injEq] at h
          simp [replayInputs, h]
  | cons e ds ih =>
      match ys, h with
      | x :: xs, h =>
          rw [replay] at h
          rw [List.cons_append, List.cons_append, replayInputs, replayInputs, ih h,
            List.append_assoc]

/-- After a step the second root is a hash. -/
theorem length_of_replay {ds : List Bool} {nodes : List Octets} {roots roots' : Octets × Octets}
    (hds : ds ≠ []) (h : replay H ds nodes roots = some roots') : roots'.2.length = 32 := by
  obtain ⟨ds, d, rfl⟩ : ∃ l d, ds = l ++ [d] := ⟨_, _, (List.dropLast_append_getLast hds).symm⟩
  obtain ⟨ys, y, roots₁, -, -, rfl⟩ := replay_snoc.mp h
  cases d <;> simp [hashStep]

end Replay

/-! ## The honest proof -/

section Honest

variable {H : Hash}

theorem subproofFuel_eq_subproof {fuel m : ℕ} {L : List Octets} {b : Bool} (hm : m ≤ L.length)
    (hm0 : 0 < m) (h : L.length ≤ fuel) : subproofFuel H fuel m L b = subproof H m L b := by
  rw [subproof]
  generalize hg : L.length = g at hm h ⊢
  induction g using Nat.strong_induction_on generalizing fuel L m b with
  | _ g ih =>
      subst hg
      obtain ⟨fuel, rfl⟩ : ∃ f, fuel = f + 1 := ⟨fuel - 1, by omega⟩
      obtain ⟨n, hn⟩ : ∃ n, L.length = n + 1 := ⟨L.length - 1, by omega⟩
      conv_rhs => rw [hn]
      rw [subproofFuel, subproofFuel]
      by_cases hself : m = L.length
      · rw [if_pos hself, if_pos hself]
      rw [if_neg hself, if_neg hself]
      have h2 : 2 ≤ L.length := by omega
      have hlt := largestPow2Below_lt h2
      have hpos := largestPow2Below_pos L.length
      have hl : (L.take (largestPow2Below L.length)).length = largestPow2Below L.length := by
        rw [List.length_take]; omega
      have hr : (L.drop (largestPow2Below L.length)).length =
          L.length - largestPow2Below L.length := List.length_drop
      dsimp only
      split_ifs with hk
      · rw [ih _ hlt hm0 hl hk (by omega), ← ih _ hlt hm0 hl hk (show _ ≤ n by omega)]
      · rw [ih _ (by omega) (by omega) hr (by omega) (by omega),
          ← ih _ (by omega) (by omega) hr (by omega) (show _ ≤ n by omega)]

theorem subproof_self {L : List Octets} {b : Bool} (h : 0 < L.length) :
    subproof H L.length L b = if b then [] else [mth H L] := by
  obtain ⟨n, hn⟩ : ∃ n, L.length = n + 1 := ⟨L.length - 1, by omega⟩
  conv_lhs => rw [subproof]
  rw [hn, subproofFuel, if_pos hn.symm]

theorem subproof_left {m : ℕ} {L : List Octets} {b : Bool} (hm0 : 0 < m) (hm : m < L.length)
    (hk : m ≤ largestPow2Below L.length) :
    subproof H m L b = subproof H m (L.take (largestPow2Below L.length)) b ++
      [mth H (L.drop (largestPow2Below L.length))] := by
  have hlt := largestPow2Below_lt (n := L.length) (by omega)
  obtain ⟨n, hn⟩ : ∃ n, L.length = n + 1 := ⟨L.length - 1, by omega⟩
  have hl : (L.take (largestPow2Below L.length)).length = largestPow2Below L.length := by
    rw [List.length_take]; omega
  conv_lhs => rw [subproof, hn, subproofFuel, if_neg (by omega)]
  dsimp only
  rw [if_pos hk, subproofFuel_eq_subproof (by omega) hm0 (by omega)]

theorem subproof_right {m : ℕ} {L : List Octets} {b : Bool} (hm : m < L.length)
    (hk : largestPow2Below L.length < m) :
    subproof H m L b = subproof H (m - largestPow2Below L.length)
        (L.drop (largestPow2Below L.length)) false ++
      [mth H (L.take (largestPow2Below L.length))] := by
  have hpos := largestPow2Below_pos L.length
  obtain ⟨n, hn⟩ : ∃ n, L.length = n + 1 := ⟨L.length - 1, by omega⟩
  have hr : (L.drop (largestPow2Below L.length)).length =
      L.length - largestPow2Below L.length := List.length_drop
  conv_lhs => rw [subproof, hn, subproofFuel, if_neg (by omega)]
  dsimp only
  rw [if_neg (by omega), subproofFuel_eq_subproof (by omega) (by omega) (by omega)]

variable (H) in
/-- The root over `L` when its last complete subtree is taken to hash to `seed`. -/
def rootWith (seed : Octets) (L : List Octets) : Octets :=
  if _h : 2 ≤ L.length ∧ L.length ≠ 2 * largestPow2Below L.length then
    nodeHash H (mth H (L.take (largestPow2Below L.length)))
      (rootWith seed (L.drop (largestPow2Below L.length)))
  else seed
termination_by L.length
decreasing_by
  have := largestPow2Below_pos L.length
  rw [List.length_drop]
  omega

theorem rootWith_of_pow {seed : Octets} {L : List Octets} {t : ℕ} (h : L.length = 2 ^ t) :
    rootWith H seed L = seed := by
  rw [rootWith, dif_neg]
  rintro ⟨h2, hne⟩
  cases t with
  | zero => omega
  | succ t =>
      have hpos : 0 < 2 ^ t := by positivity
      have hpow : 2 ^ (t + 1) = 2 ^ t * 2 := pow_succ 2 t
      have := largestPow2Below_eq (n := L.length) (t := t) (by omega) (by omega)
      omega

theorem rootWith_split {seed : Octets} {L : List Octets} {t : ℕ} (hlt : 2 ^ t < L.length)
    (hle : L.length < 2 ^ (t + 1)) :
    rootWith H seed L = nodeHash H (mth H (L.take (2 ^ t))) (rootWith H seed (L.drop (2 ^ t))) := by
  have hpos : 0 < 2 ^ t := by positivity
  have hpow : 2 ^ (t + 1) = 2 ^ t * 2 := pow_succ 2 t
  have hk := largestPow2Below_eq hlt hle.le
  rw [rootWith, dif_pos ⟨by omega, by omega⟩, hk]

/-- The first `m` leaves of a tree that splits at `2 ^ t` below `m`. -/
theorem take_split {X : List Octets} {m t : ℕ} (h : 2 ^ t ≤ m) :
    (X.take m).take (2 ^ t) = X.take (2 ^ t) ∧
      (X.take m).drop (2 ^ t) = (X.drop (2 ^ t)).take (m - 2 ^ t) := by
  rw [List.take_take, min_eq_left h, List.drop_take]
  exact ⟨rfl, rfl⟩

/-- The honest proof has the hash of the last complete subtree of the first `m` leaves first, and its
sibling second. -/
theorem exists_subproof {X : List Octets} {m : ℕ} (hm0 : 0 < m) (hm : m < X.length) :
    ∃ A B rest, subproof H m X false = A :: B :: rest ∧
      ((∀ x ∈ X, x.length = 32) → A.length = 32 ∧ B.length = 32) ∧
      rootWith H A (X.take m) = mth H (X.take m) := by
  generalize hg : X.length = g at hm
  induction g using Nat.strong_induction_on generalizing X m with
  | _ g ih =>
      subst hg
      obtain ⟨t, ht, htlt, htle⟩ := largestPow2Below_spec (n := X.length) (by omega)
      have hpos : 0 < 2 ^ t := by positivity
      have hpow : 2 ^ (t + 1) = 2 ^ t * 2 := pow_succ 2 t
      have hl : (X.take (2 ^ t)).length = 2 ^ t := by rw [List.length_take]; omega
      have hr : (X.drop (2 ^ t)).length = X.length - 2 ^ t := List.length_drop
      by_cases hk : m ≤ 2 ^ t
      · rw [subproof_left hm0 hm (by omega), ht]
        by_cases hmk : m = 2 ^ t
        · subst hmk
          have hself := subproof_self (H := H) (L := X.take (2 ^ t)) (b := false) (by omega)
          rw [hl] at hself
          rw [hself]
          refine ⟨_, _, [], rfl, fun hX => ⟨length_mth ?_, length_mth ?_⟩, rootWith_of_pow hl⟩
          · exact fun x hx => hX x (List.mem_of_mem_take hx)
          · exact fun x hx => hX x (List.mem_of_mem_drop hx)
        · obtain ⟨A, B, rest, heq, h32, hroot⟩ := ih _ htlt hm0 hl (by omega)
          rw [List.take_take, min_eq_left hk] at hroot
          exact ⟨A, B, rest ++ [mth H (X.drop (2 ^ t))], by rw [heq]; rfl,
            fun hX => h32 fun x hx => hX x (List.mem_of_mem_take hx), hroot⟩
      · rw [subproof_right hm (by omega), ht]
        obtain ⟨A, B, rest, heq, h32, hroot⟩ :=
          @ih _ (by omega) (X.drop (2 ^ t)) (m - 2 ^ t) (by omega) hr (by omega)
        refine ⟨A, B, rest ++ [mth H (X.take (2 ^ t))], by rw [heq]; rfl,
          fun hX => h32 fun x hx => hX x (List.mem_of_mem_drop hx), ?_⟩
        have hlen : (X.take m).length = m := by rw [List.length_take]; omega
        obtain ⟨htake, hdrop⟩ := take_split (X := X) (m := m) (t := t) (by omega)
        have hsplit : largestPow2Below m = 2 ^ t := largestPow2Below_eq (by omega) (by omega)
        rw [rootWith_split (t := t) (by omega) (by omega), mth_split (L := X.take m) (by omega), hlen,
          hsplit, htake, hdrop, hroot]

theorem eq_append_of_append_singleton {α : Type} {l rest : List α} {a b y : α}
    (h : l ++ [y] = a :: b :: rest) (hl : 2 ≤ l.length) :
    ∃ rest', rest = rest' ++ [y] ∧ l = a :: b :: rest' := by
  match l, hl, h with
  | c :: d :: l, _, h =>
      simp only [List.cons_append, List.cons.injEq] at h
      obtain ⟨rfl, rfl, rfl⟩ := h
      exact ⟨l, rfl, rfl⟩

/-- A proof whose first two nodes have the honest ones' octets, cut anywhere, is replayed to the
second root. -/
theorem replay_spine {X : List Octets} {m : ℕ} (hm0 : 0 < m) (hm : m < X.length)
    {s u A B : Octets} {rest : List Octets} (hproof : subproof H m X false = A :: B :: rest)
    (hcut : s ++ u = A ++ B) :
    replay H (spine m X.length) (u :: rest) (s, s) =
      some (rootWith H s (X.take m), mth H X) := by
  generalize hg : X.length = g at hm
  induction g using Nat.strong_induction_on generalizing X m rest with
  | _ g ih =>
      subst hg
      obtain ⟨t, ht, htlt, htle⟩ := largestPow2Below_spec (n := X.length) (by omega)
      have hpos : 0 < 2 ^ t := by positivity
      have hpow : 2 ^ (t + 1) = 2 ^ t * 2 := pow_succ 2 t
      have hl : (X.take (2 ^ t)).length = 2 ^ t := by rw [List.length_take]; omega
      have hr : (X.drop (2 ^ t)).length = X.length - 2 ^ t := List.length_drop
      have hroot : mth H X = nodeHash H (mth H (X.take (2 ^ t))) (mth H (X.drop (2 ^ t))) := by
        rw [mth_split (by omega), ht]
      by_cases hk : m ≤ 2 ^ t
      · rw [spine_left hm0 hm (by omega), replay_snoc, ht]
        rw [subproof_left hm0 hm (by omega), ht] at hproof
        by_cases hmk : m = 2 ^ t
        · -- the seed is the left part itself
          subst hmk
          have hself := subproof_self (H := H) (L := X.take (2 ^ t)) (b := false) (by omega)
          rw [hl] at hself
          rw [hself] at hproof
          obtain ⟨rfl, rfl, rfl⟩ : mth H (X.take (2 ^ t)) = A ∧ mth H (X.drop (2 ^ t)) = B ∧
              rest = [] := by simpa [eq_comm] using hproof
          rw [spine_self]
          refine ⟨[], u, (s, s), rfl, rfl, ?_⟩
          rw [rootWith_of_pow hl, hroot, nodeHash, nodeInput, ← hcut]
          rfl
        · obtain ⟨A', B', rest₁, hshape, -, -⟩ := exists_subproof (H := H) (X := X.take (2 ^ t)) hm0
            (by omega)
          obtain ⟨rest', rfl, hsub⟩ := eq_append_of_append_singleton hproof (by simp [hshape])
          have hrec := ih _ htlt hm0 hsub hl (by omega)
          refine ⟨u :: rest', _, _, rfl, hrec, ?_⟩
          rw [List.take_take, min_eq_left hk, hroot]
          rfl
      · rw [spine_right hm (by omega), replay_snoc, ht]
        rw [subproof_right hm (by omega), ht] at hproof
        obtain ⟨A', B', rest₁, hshape, -, -⟩ := exists_subproof (H := H) (X := X.drop (2 ^ t))
          (m := m - 2 ^ t) (by omega) (by omega)
        obtain ⟨rest', rfl, hsub⟩ := eq_append_of_append_singleton hproof (by simp [hshape])
        have hrec := @ih _ (by omega) (X.drop (2 ^ t)) (m - 2 ^ t) (by omega) rest' hsub hr
          (by omega)
        refine ⟨u :: rest', _, _, rfl, hrec, ?_⟩
        have hlen : (X.take m).length = m := by rw [List.length_take]; omega
        obtain ⟨htake, hdrop⟩ := take_split (X := X) (m := m) (t := t) (by omega)
        rw [rootWith_split (t := t) (by omega) (by omega), htake, hdrop, hroot]
        rfl

/-- Soundness up to the cut: a proof replayed to the root over `X` has the honest nodes, but for
where the first is cut from the second, unless the run exhibits a collision. -/
theorem eq_honest_of_replay {I : List Octets} (hI : ¬ H.Collision I) {X : List Octets}
    (hX : ∀ x ∈ X, x.length = 32) {m : ℕ} (hm0 : 0 < m) (hm : m < X.length)
    (hmth : mthInputs H X ⊆ I) {s fr : Octets} {nodes : List Octets}
    (hin : replayInputs H (spine m X.length) nodes (s, s) ⊆ I)
    (h : replay H (spine m X.length) nodes (s, s) = some (fr, mth H X)) :
    ∃ u A B rest, nodes = u :: rest ∧ subproof H m X false = A :: B :: rest ∧ s ++ u = A ++ B := by
  generalize hg : X.length = g at hm hin h
  induction g using Nat.strong_induction_on generalizing X m nodes fr with
  | _ g ih =>
      subst hg
      obtain ⟨t, ht, htlt, htle⟩ := largestPow2Below_spec (n := X.length) (by omega)
      have hpos : 0 < 2 ^ t := by positivity
      have hpow : 2 ^ (t + 1) = 2 ^ t * 2 := pow_succ 2 t
      have hl : (X.take (2 ^ t)).length = 2 ^ t := by rw [List.length_take]; omega
      have hr : (X.drop (2 ^ t)).length = X.length - 2 ^ t := List.length_drop
      have hXl : ∀ x ∈ X.take (2 ^ t), x.length = 32 := fun x hx => hX x (List.mem_of_mem_take hx)
      have hXr : ∀ x ∈ X.drop (2 ^ t), x.length = 32 := fun x hx => hX x (List.mem_of_mem_drop hx)
      have hroot : mth H X = nodeHash H (mth H (X.take (2 ^ t))) (mth H (X.drop (2 ^ t))) := by
        rw [mth_split (by omega), ht]
      rw [mthInputs_split (by omega), ht] at hmth
      have hmem : nodeInput (mth H (X.take (2 ^ t))) (mth H (X.drop (2 ^ t))) ∈ I :=
        hmth List.mem_cons_self
      have hmthl : mthInputs H (X.take (2 ^ t)) ⊆ I := fun x hx =>
        hmth (List.mem_cons_of_mem _ (List.mem_append_left _ hx))
      have hmthr : mthInputs H (X.drop (2 ^ t)) ⊆ I := fun x hx =>
        hmth (List.mem_cons_of_mem _ (List.mem_append_right _ hx))
      by_cases hk : m ≤ 2 ^ t
      · rw [spine_left hm0 hm (by omega), ht] at h hin
        obtain ⟨ys, y, ⟨fr₁, sr₁⟩, rfl, hrec, hlast⟩ := replay_snoc.mp h
        rw [replayInputs_snoc hrec] at hin
        have heq : nodeInput sr₁ y = nodeInput (mth H (X.take (2 ^ t))) (mth H (X.drop (2 ^ t))) := by
          refine Hash.eq_of_digest_eq hI (hin ?_) hmem ?_
          · exact List.mem_append_right _ List.mem_cons_self
          · exact (congrArg Prod.snd hlast).symm.trans hroot
        rw [subproof_left hm0 hm (by omega), ht]
        by_cases hmk : m = 2 ^ t
        · subst hmk
          rw [spine_self] at hrec
          obtain ⟨rfl, rfl, rfl⟩ : ys = [] ∧ s = fr₁ ∧ s = sr₁ := by
            match ys, hrec with
            | [], hrec => simpa [replay] using hrec
          have hself := subproof_self (H := H) (L := X.take (2 ^ t)) (b := false) (by omega)
          rw [hl] at hself
          rw [hself]
          exact ⟨y, _, _, [], rfl, rfl, (List.cons.inj heq).2⟩
        · have h32 : sr₁.length = 32 :=
            length_of_replay (spine_ne_nil hm0 (by omega)) hrec
          obtain ⟨rfl, rfl⟩ := nodeInput_inj heq (by rw [h32, length_mth hXl])
          obtain ⟨u, A, B, rest, rfl, hsub, hcut⟩ := @ih _ htlt (X.take (2 ^ t)) hXl m hm0 hmthl
            fr₁ ys hl (by omega) (fun x hx => hin (List.mem_append_left _ hx)) hrec
          exact ⟨u, A, B, rest ++ [mth H (X.drop (2 ^ t))], rfl, by rw [hsub]; rfl, hcut⟩
      · rw [spine_right hm (by omega), ht] at h hin
        obtain ⟨ys, y, ⟨fr₁, sr₁⟩, rfl, hrec, hlast⟩ := replay_snoc.mp h
        rw [replayInputs_snoc hrec] at hin
        have heq : nodeInput y sr₁ = nodeInput (mth H (X.take (2 ^ t))) (mth H (X.drop (2 ^ t))) := by
          refine Hash.eq_of_digest_eq hI (hin ?_) hmem ?_
          · exact List.mem_append_right _ (List.mem_cons_of_mem _ List.mem_cons_self)
          · exact (congrArg Prod.snd hlast).symm.trans hroot
        have h32 : sr₁.length = 32 :=
          length_of_replay (spine_ne_nil (by omega) (by omega)) hrec
        obtain ⟨rfl, rfl⟩ := List.append_inj' (List.cons.inj heq).2 (by rw [h32, length_mth hXr])
        rw [subproof_right hm (by omega), ht]
        obtain ⟨u, A, B, rest, rfl, hsub, hcut⟩ := @ih _ (by omega) (X.drop (2 ^ t)) hXr (m - 2 ^ t)
          (by omega) hmthr fr₁ ys hr (by omega) (fun x hx => hin (List.mem_append_left _ hx)) hrec
        exact ⟨u, A, B, rest ++ [mth H (X.take (2 ^ t))], rfl, by rw [hsub]; rfl, hcut⟩

/-- With the flag set the seed is left out exactly when `m` is a power of two. -/
theorem seed_append_subproof {X : List Octets} {m : ℕ} (hm0 : 0 < m)
    (hm : m < X.length ∨ m = X.length ∧ m.isPowerOfTwo) :
    (if m &&& (m - 1) = 0 then [mth H (X.take m)] else []) ++ subproof H m X true =
      subproof H m X false := by
  have hiff := Nat.and_sub_one_eq_zero_iff_isPowerOfTwo (n := m) (by omega)
  generalize hg : X.length = g at hm
  induction g using Nat.strong_induction_on generalizing X with
  | _ g ih =>
      subst hg
      obtain hm | ⟨hm, hpow⟩ := hm
      · obtain ⟨t, ht, htlt, htle⟩ := largestPow2Below_spec (n := X.length) (by omega)
        have hl : (X.take (2 ^ t)).length = 2 ^ t := by rw [List.length_take]; omega
        by_cases hk : m ≤ 2 ^ t
        · rw [subproof_left hm0 hm (by omega), subproof_left hm0 hm (by omega), ht,
            ← List.append_assoc]
          have hrec := ih _ htlt (X := X.take (2 ^ t)) hl (by
            by_cases hmk : m = 2 ^ t
            · exact .inr ⟨by omega, t, hmk⟩
            · exact .inl (by omega))
          rw [List.take_take, min_eq_left hk] at hrec
          rw [hrec]
        · have hnot : ¬ m &&& (m - 1) = 0 := by
            rw [hiff]
            rintro ⟨e, rfl⟩
            have h1 : t < e := (Nat.pow_lt_pow_iff_right (by norm_num)).mp (not_le.mp hk)
            have h2 : e < t + 1 :=
              (Nat.pow_lt_pow_iff_right (a := 2) (by norm_num)).mp (hm.trans_le htle)
            omega
          rw [if_neg hnot, subproof_right hm (by omega), subproof_right hm (by omega)]
          rfl
      · subst hm
        rw [if_pos (hiff.mpr hpow), subproof_self hm0, subproof_self hm0, List.take_length]
        rfl

/-- In a replay of the honest nodes with the first cut anywhere, the first root is the root of the
first leaves only for the honest cut, unless the run exhibits a collision. -/
theorem eq_seed_of_rootWith_eq {I : List Octets} (hI : ¬ H.Collision I) {X : List Octets} {m : ℕ}
    (hm0 : 0 < m) (hm : m < X.length) {s u A B : Octets} {rest : List Octets}
    (hproof : subproof H m X false = A :: B :: rest) (hcut : s ++ u = A ++ B)
    (hin : replayInputs H (spine m X.length) (u :: rest) (s, s) ⊆ I)
    (hmth : mthInputs H (X.take m) ⊆ I) (h : rootWith H s (X.take m) = mth H (X.take m)) :
    s = A := by
  generalize hg : X.length = g at hm hin
  induction g using Nat.strong_induction_on generalizing X m rest with
  | _ g ih =>
      subst hg
      obtain ⟨t, ht, htlt, htle⟩ := largestPow2Below_spec (n := X.length) (by omega)
      have hpos : 0 < 2 ^ t := by positivity
      have hpow : 2 ^ (t + 1) = 2 ^ t * 2 := pow_succ 2 t
      have hl : (X.take (2 ^ t)).length = 2 ^ t := by rw [List.length_take]; omega
      have hr : (X.drop (2 ^ t)).length = X.length - 2 ^ t := List.length_drop
      by_cases hk : m ≤ 2 ^ t
      · rw [subproof_left hm0 hm (by omega), ht] at hproof
        rw [spine_left hm0 hm (by omega), ht] at hin
        by_cases hmk : m = 2 ^ t
        · subst hmk
          have hself := subproof_self (H := H) (L := X.take (2 ^ t)) (b := false) (by omega)
          rw [hl] at hself
          rw [hself] at hproof
          rw [rootWith_of_pow hl] at h
          exact h.trans (List.cons.inj hproof).1
        · obtain ⟨A', B', rest₁, hshape, -, -⟩ := exists_subproof (H := H) (X := X.take (2 ^ t)) hm0
            (by omega)
          obtain ⟨rest', rfl, hsub⟩ := eq_append_of_append_singleton hproof (by simp [hshape])
          have hrec := replay_spine hm0 (X := X.take (2 ^ t)) (by omega) hsub hcut
          rw [hl] at hrec
          rw [← List.cons_append, replayInputs_snoc hrec] at hin
          have htake : (X.take (2 ^ t)).take m = X.take m := by rw [List.take_take, min_eq_left hk]
          exact ih _ htlt hm0 hsub (by rw [htake]; exact hmth) (by rw [htake]; exact h) hl
            (by omega) (fun x hx => hin (List.mem_append_left _ hx))
      · rw [subproof_right hm (by omega), ht] at hproof
        rw [spine_right hm (by omega), ht] at hin
        obtain ⟨A', B', rest₁, hshape, -, -⟩ := exists_subproof (H := H) (X := X.drop (2 ^ t))
          (m := m - 2 ^ t) (by omega) (by omega)
        obtain ⟨rest', rfl, hsub⟩ := eq_append_of_append_singleton hproof (by simp [hshape])
        have hrec := replay_spine (X := X.drop (2 ^ t)) (m := m - 2 ^ t) (by omega) (by omega) hsub
          hcut
        rw [hr] at hrec
        rw [← List.cons_append, replayInputs_snoc hrec] at hin
        have hlen : (X.take m).length = m := by rw [List.length_take]; omega
        obtain ⟨htake, hdrop⟩ := take_split (X := X) (m := m) (t := t) (by omega)
        have hsplit : largestPow2Below m = 2 ^ t := largestPow2Below_eq (by omega) (by omega)
        rw [rootWith_split (t := t) (by omega) (by omega), mth_split (L := X.take m) (by omega), hlen,
          hsplit, htake, hdrop] at h
        rw [mthInputs_split (by omega), hlen, hsplit, htake, hdrop] at hmth
        have heq := Hash.eq_of_digest_eq hI (hin (List.mem_append_right _ List.mem_cons_self))
          (hmth List.mem_cons_self) h
        have hroot := (nodeInput_inj heq rfl).2
        exact @ih _ (by omega) (X.drop (2 ^ t)) (m - 2 ^ t) (by omega) rest' hsub
          (fun x hx => hmth (List.mem_cons_of_mem _ (List.mem_append_right _ hx))) hroot hr
          (by omega) (fun x hx => hin (List.mem_append_left _ hx))

end Honest

/-! ## When the verifier is sound -/

section Verify

variable (H : Hash)

/-- The nodes `verify_consistency` works on for the honest proof of the first `m` entries. -/
def honestNodes (entries : List Octets) (m : ℕ) : List Octets :=
  (if m &&& (m - 1) = 0 then [rootOf H (entries.take m)] else []) ++
    subproof H m (entries.map (leafHashBytes H)) true

/-- The proof is the honest one, but the octets of its first two nodes are cut elsewhere than after
32, and the first root is the one its first node hashes up to. -/
def Resplit (entries : List Octets) (m : ℕ) (firstRootHex : String) (proofHex : List String) : Prop :=
  m < entries.length ∧ ∃ s u A B rest, seededProof firstRootHex m proofHex = some (s :: u :: rest) ∧
    honestNodes H entries m = A :: B :: rest ∧ s ++ u = A ++ B ∧ s.length ≠ 32 ∧
    firstRootHex = Octets.toHex (rootWith H s ((entries.take m).map (leafHashBytes H)))

/-- What a run hashes that computes both roots and checks the proof. -/
def consistencyRunInputs (entries : List Octets) (m : ℕ) (firstRootHex : String)
    (proofHex : List String) : List Octets :=
  consistencyInputs H firstRootHex m entries.length proofHex ++
    (merkleRootInputs H entries ++ merkleRootInputs H (entries.take m))

variable {H}

/-- For `0 < m < n` the verifier accepts when the way up replays to both roots. -/
theorem verifyConsistency_eq_ok_iff {firstRootHex secondRootHex : String} {m n : ℕ}
    {proofHex : List String} (hm0 : 0 < m) (hm : m < n) :
    verifyConsistency H firstRootHex secondRootHex m n proofHex = .ok true ↔
      ∃ s nodes fr sr, seededProof firstRootHex m proofHex = some (s :: nodes) ∧
        replay H (spine m n) nodes (s, s) = some (fr, sr) ∧ Octets.toHex fr = firstRootHex ∧
        Octets.toHex sr = secondRootHex := by
  rw [verifyConsistency, if_neg (by omega), if_neg (by omega), if_neg (by omega)]
  simp only [Int.toNat_natCast]
  have hle : (shiftOdd (m - 1) (m - 1) (n - 1)).1 ≤ (shiftOdd (m - 1) (m - 1) (n - 1)).2 :=
    shiftOdd_le (by omega)
  cases hseed : seededProof firstRootHex m proofHex with
  | none => simp
  | some nodes =>
      cases nodes with
      | nil => simp
      | cons s nodes =>
          dsimp only
          rw [← stepsFrom_eq_spine hm0 hm, stepsFrom_eq le_rfl]
          constructor
          · intro h
            cases hloop : consistencyLoop H nodes (shiftOdd (m - 1) (m - 1) (n - 1)).1
                (shiftOdd (m - 1) (m - 1) (n - 1)).2 s s with
            | none => rw [hloop] at h; simp at h
            | some r =>
                obtain ⟨sn, fr, sr⟩ := r
                rw [hloop] at h
                simp only [Except.ok.injEq, Bool.and_eq_true, beq_iff_eq] at h
                obtain ⟨⟨rfl, hfr⟩, hsr⟩ := h
                exact ⟨s, nodes, fr, sr, rfl, (consistencyLoop_eq_iff hle).mp hloop, hfr, hsr⟩
          · rintro ⟨s', nodes', fr, sr, hnodes, hreplay, rfl, rfl⟩
            obtain ⟨rfl, rfl⟩ := List.cons.inj (Option.some.inj hnodes)
            rw [(consistencyLoop_eq_iff hle).mpr hreplay]
            simp

theorem consistencyInputs_eq {firstRootHex : String} {m n : ℕ} {proofHex : List String} {s : Octets}
    {nodes : List Octets} (hm0 : 0 < m) (hm : m < n)
    (h : seededProof firstRootHex m proofHex = some (s :: nodes)) :
    consistencyInputs H firstRootHex m n proofHex = replayInputs H (spine m n) nodes (s, s) := by
  rw [consistencyInputs, h]
  dsimp only
  rw [consistencyLoopInputs_eq (shiftOdd_le (by omega)), ← stepsFrom_eq le_rfl,
    stepsFrom_eq_spine hm0 hm]

theorem honestNodes_eq {entries : List Octets} {m : ℕ} (hm0 : 0 < m) (hm : m < entries.length) :
    honestNodes H entries m = subproof H m (entries.map (leafHashBytes H)) false := by
  rw [honestNodes, rootOf, List.map_take]
  exact seed_append_subproof hm0 (.inl (by simpa using hm))

theorem merkleRoot_take {entriesHex : List String} {entries : List Octets} (m : ℕ)
    (hD : entriesHex.mapM Octets.fromHex = some entries) :
    merkleRoot H (entriesHex.take m) = some (Octets.toHex (rootOf H (entries.take m))) :=
  merkleRoot_eq_some_iff.mpr ⟨_, Octets.mapM_take m hD, rfl⟩

/-- Exactly when the verifier is sound against a log: a first root it accepts is the root of the first
`m` entries, unless the run exhibits a collision, if and only if the proof is not the honest one with
its first two nodes cut elsewhere. -/
theorem verifyConsistency_sound_iff {entriesHex : List String} {entries : List Octets}
    {secondRootHex : String} (hD : entriesHex.mapM Octets.fromHex = some entries)
    (hroot : merkleRoot H entriesHex = some secondRootHex) {m : ℕ} (hm0 : 0 < m)
    (hm : m ≤ entriesHex.length) (firstRootHex : String) (proofHex : List String) :
    (verifyConsistency H firstRootHex secondRootHex m entriesHex.length proofHex = .ok true →
        merkleRoot H (entriesHex.take m) = some firstRootHex ∨
          H.Collision (consistencyRunInputs H entries m firstRootHex proofHex)) ↔
      (¬ Resplit H entries m firstRootHex proofHex ∨
        H.Collision (consistencyRunInputs H entries m firstRootHex proofHex)) := by
  by_cases hI : H.Collision (consistencyRunInputs H entries m firstRootHex proofHex)
  · simp [hI]
  simp only [hI, or_false]
  have hlen := Octets.length_of_mapM hD
  obtain ⟨_, hD', rfl⟩ := merkleRoot_eq_some_iff.mp hroot
  obtain rfl := Option.some.inj (hD.symm.trans hD')
  rw [merkleRoot_take m hD, Option.some.injEq, ← hlen]
  have hX : ∀ x ∈ entries.map (leafHashBytes H), x.length = 32 := by simp
  have hXlen : (entries.map (leafHashBytes H)).length = entries.length := List.length_map _
  obtain rfl | hm := (hlen ▸ hm).eq_or_lt
  · -- equal sizes
    have hnot : ¬ Resplit H entries entries.length firstRootHex proofHex := fun h => h.1.ne rfl
    refine ⟨fun _ => hnot, fun _ h => ?_⟩
    rw [verifyConsistency, if_neg (by omega), if_neg (by omega), if_pos rfl] at h
    simp only [Except.ok.injEq, Bool.and_eq_true, beq_iff_eq] at h
    rw [List.take_length, h.2]
  have hinputs : ∀ {s nodes}, seededProof firstRootHex m proofHex = some (s :: nodes) →
      replayInputs H (spine m entries.length) nodes (s, s) ⊆
        consistencyRunInputs H entries m firstRootHex proofHex := by
    intro s nodes hseed x hx
    rw [consistencyRunInputs, consistencyInputs_eq hm0 hm hseed]
    exact List.mem_append_left _ hx
  have hmth : mthInputs H (entries.map (leafHashBytes H)) ⊆
      consistencyRunInputs H entries m firstRootHex proofHex := fun x hx =>
    List.mem_append_right _ (List.mem_append_left _ (List.mem_append_right _ hx))
  have hmthm : mthInputs H ((entries.take m).map (leafHashBytes H)) ⊆
      consistencyRunInputs H entries m firstRootHex proofHex := fun x hx =>
    List.mem_append_right _ (List.mem_append_right _ (List.mem_append_right _ hx))
  rw [verifyConsistency_eq_ok_iff hm0 hm]
  constructor
  · -- a proof cut elsewhere is accepted, and its first root is another
    rintro hsound ⟨-, s, u, A, B, rest, hseed, hhonest, hcut, hs, rfl⟩
    rw [honestNodes_eq hm0 hm] at hhonest
    have hreplay := replay_spine hm0 (by omega) hhonest hcut
    rw [hXlen] at hreplay
    have hfirst := hsound ⟨s, u :: rest, _, _, hseed, hreplay, by rw [List.map_take], rfl⟩
    rw [Octets.toHex_inj, List.map_take, rootOf, List.map_take] at hfirst
    have hsA := eq_seed_of_rootWith_eq hI hm0 (by omega) hhonest hcut
      (by rw [hXlen]; exact hinputs hseed) (by rw [← List.map_take]; exact hmthm) hfirst.symm
    obtain ⟨A', B', rest', heq, h32, -⟩ :=
      exists_subproof (H := H) (X := entries.map (leafHashBytes H)) hm0 (by omega)
    rw [hhonest] at heq
    obtain ⟨rfl, -⟩ := List.cons.inj heq
    exact hs (hsA ▸ (h32 hX).1)
  · -- an accepted proof is the honest one but for the cut
    rintro hnot ⟨s, nodes, fr, sr, hseed, hreplay, rfl, hsr⟩
    obtain rfl := Octets.toHex_inj.mp hsr
    have hin := hinputs hseed
    rw [← hXlen] at hreplay hin
    obtain ⟨u, A, B, rest, rfl, hproof, hcut⟩ :=
      eq_honest_of_replay hI hX hm0 (by omega) hmth hin hreplay
    have hfr := replay_spine hm0 (by omega) hproof hcut
    rw [hreplay, Option.some.injEq, Prod.mk.injEq] at hfr
    obtain ⟨rfl, -⟩ := hfr
    obtain ⟨A', B', rest', heq, h32, hrootA⟩ :=
      exists_subproof (H := H) (X := entries.map (leafHashBytes H)) hm0 (by omega)
    rw [hproof] at heq
    obtain ⟨rfl, heq⟩ := List.cons.inj heq
    by_cases hs : s.length = 32
    · obtain ⟨rfl, -⟩ := List.append_inj hcut (by rw [hs, (h32 hX).1])
      rw [hrootA, rootOf, List.map_take]
    · refine absurd ⟨hm, s, u, A, B, rest, hseed, ?_, hcut, hs, ?_⟩ hnot
      · rw [honestNodes_eq hm0 hm, hproof]
      · rw [List.map_take]

set_option maxRecDepth 100000 in
/-- The honest proof that one entry is a prefix of two. -/
theorem verifyConsistency_sound_iff_two_entries :
    (verifyConsistency Hash.sha256 "96a296d224f285c67bee93c30f8a309157f0daa35dc5b87e410b78630a09cfc7"
          "a20bf9a7cc2dc8a08f5f415a71b19f6ac427bab54d24eec868b5d3103449953a" 1 2
          ["b413f47d13ee2fe6c845b2ee141af81de858df4ec549a58b7970bb96645bc8d2"] = .ok true →
        merkleRoot Hash.sha256 ["00"] =
            some "96a296d224f285c67bee93c30f8a309157f0daa35dc5b87e410b78630a09cfc7" ∨
          Hash.sha256.Collision (consistencyRunInputs Hash.sha256 [[0], [1]] 1
            "96a296d224f285c67bee93c30f8a309157f0daa35dc5b87e410b78630a09cfc7"
            ["b413f47d13ee2fe6c845b2ee141af81de858df4ec549a58b7970bb96645bc8d2"])) ↔
      (¬ Resplit Hash.sha256 [[0], [1]] 1
          "96a296d224f285c67bee93c30f8a309157f0daa35dc5b87e410b78630a09cfc7"
          ["b413f47d13ee2fe6c845b2ee141af81de858df4ec549a58b7970bb96645bc8d2"] ∨
        Hash.sha256.Collision (consistencyRunInputs Hash.sha256 [[0], [1]] 1
          "96a296d224f285c67bee93c30f8a309157f0daa35dc5b87e410b78630a09cfc7"
          ["b413f47d13ee2fe6c845b2ee141af81de858df4ec549a58b7970bb96645bc8d2"])) :=
  @verifyConsistency_sound_iff _ ["00", "01"] [[0], [1]] _ (by decide) (by decide +kernel) 1
    (by norm_num) (by simp) _ _

set_option maxRecDepth 100000 in
/-- Four entries, `m = 3`: the hash of the third leaf is cut one octet short, and its last octet is
moved to the front of its sibling. The second root comes out right; the first root is the one the cut
node hashes up to. -/
theorem verifyConsistency_accepts_cut_nodes :
    let firstRoot := "940149578b0497602752d597aada4a6b675687202bb5b8c4ba5397c95013d5de"
    let proof := ["fcf0a6c700dd13e274b6fba8deea8dd9b26e4eedde3495717cac8408c9c517",
      "7f583c7dfb7b3055d99465544032a571e10a134b1b6f769422bbb71fd7fa167a5d",
      "a20bf9a7cc2dc8a08f5f415a71b19f6ac427bab54d24eec868b5d3103449953a"]
    merkleRoot Hash.sha256 ["00", "01", "02", "03"] =
        some "9bcd51240af4005168f033121ba85be5a6ed4f0e6a5fac262066729b8fbfdecb" ∧
      ¬ (verifyConsistency Hash.sha256 firstRoot
            "9bcd51240af4005168f033121ba85be5a6ed4f0e6a5fac262066729b8fbfdecb" 3 4 proof = .ok true →
          merkleRoot Hash.sha256 (["00", "01", "02", "03"].take 3) = some firstRoot ∨
            Hash.sha256.Collision
              (consistencyRunInputs Hash.sha256 [[0], [1], [2], [3]] 3 firstRoot proof)) := by
  intro firstRoot proof
  refine ⟨by decide +kernel, fun hsound => ?_⟩
  have haccept : verifyConsistency Hash.sha256 firstRoot
      "9bcd51240af4005168f033121ba85be5a6ed4f0e6a5fac262066729b8fbfdecb" 3 4 proof = .ok true := by
    decide +kernel
  obtain hroot | hcollision := hsound haccept
  · have hother : merkleRoot Hash.sha256 (["00", "01", "02", "03"].take 3) ≠ some firstRoot := by
      decide +kernel
    exact hother hroot
  · exact Hash.not_collision_of_nodup (by decide +kernel) hcollision

end Verify

end ScittCose.Merkle
