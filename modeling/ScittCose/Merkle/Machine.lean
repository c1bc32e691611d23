import ScittCose.Merkle.Inclusion
import ScittCose.Lib.Checked

/-!
# The inclusion fold over machine integers

The Rust fold (`rust/scitt-cose/src/merkle.rs`) counts in `u64` and the Go fold
(`scitt-cose-go-verify/main.go`) in `int64`. `rootFromInclusionProof_eq` of each says that nothing
wraps and that the result is the one of the Python fold.
-/

namespace ScittCose.Merkle

open Checked

variable {H : Hash}

/-- The root a leaf folds up a path to, when the path has the length the index asks for. -/
def rootOfProof (H : Hash) (leafEntry : Octets) (index treeSize : ℕ) (auditPath : List Octets) :
    Option Octets :=
  if index < treeSize ∧ treeSize ≤ 2 ^ 62 ∧
      auditPath.length = expectedInclusionPathLen treeSize index then
    match fold H (leafHashBytes H leafEntry) auditPath.reverse treeSize index with
    | some (computed, []) => some computed
    | _ => none
  else none

/-- The Python fold, from and to hexadecimal text. -/
theorem rootFromInclusionProof_eq_ok {leafEntryHex : String} {leafEntry : Octets}
    (hleaf : Octets.fromHex leafEntryHex = some leafEntry) {auditPathHex : List String}
    {auditPath : List Octets} (hpath : auditPathHex.mapM Octets.fromHex = some auditPath)
    (index treeSize : ℕ) :
    rootFromInclusionProof H leafEntryHex index treeSize auditPathHex =
      .ok ((rootOfProof H leafEntry index treeSize auditPath).map Octets.toHex) := by
  rw [rootFromInclusionProof, rootOfProof, ← Octets.length_of_mapM hpath, hleaf, hpath]
  simp only [Int.toNat_natCast, maxTreeSize]
  by_cases hrange : index < treeSize ∧ treeSize ≤ 2 ^ 62
  · rw [if_neg (by omega)]
    by_cases hlen : auditPath.length = expectedInclusionPathLen treeSize index
    · rw [if_neg (not_not.mpr hlen), if_pos ⟨hrange.1, hrange.2, hlen⟩]
      rcases fold H (leafHashBytes H leafEntry) auditPath.reverse treeSize index with
        _ | ⟨computed, _ | ⟨sibling, rest⟩⟩ <;> rfl
    · rw [if_pos hlen, if_neg fun h => hlen h.2.2]
      rfl
  · rw [if_pos (by omega), if_neg fun h => hrange ⟨h.1, h.2.1⟩]
    rfl

namespace Rust

/-- The loop of `largest_pow2_below`; from 1 a `u64` doubles at most 64 times. -/
def doubleBelow (n : ℕ) : ℕ → ℕ → Checked ℕ
  | 0, _ => .error .fault
  | fuel + 1, k => do
    let twice ← usizeMul k 2
    if twice < n then doubleBelow n fuel twice else .ok k

/-- `largest_pow2_below` -/
def largestPow2Below (n : ℕ) : Checked ℕ := doubleBelow n 64 1

/-- The loop of `expected_inclusion_path_len`; each round makes `size` smaller. -/
def pathLenFrom : ℕ → ℕ → ℕ → ℕ → Checked ℕ
  | 0, _, _, n => .ok n
  | fuel + 1, size, m, n =>
    if 1 < size then do
      let k ← largestPow2Below size
      let n ← usizeAdd n 1
      if m < k then pathLenFrom fuel k m n
      else do
        let size ← usizeSub size k
        let m ← usizeSub m k
        pathLenFrom fuel size m n
    else .ok n

/-- `expected_inclusion_path_len` -/
def expectedInclusionPathLen (treeSize index : ℕ) : Checked ℕ :=
  pathLenFrom treeSize treeSize index 0

/-- The inner `fold` of `root_from_inclusion_proof`, siblings outermost first. -/
def fold (H : Hash) (target : Octets) :
    List Octets → ℕ → ℕ → Checked (Option (Octets × List Octets))
  | [], size, _ => .ok (if size = 1 then some (target, []) else none)
  | sibling :: siblings, size, m =>
    if size = 1 then .ok (some (target, sibling :: siblings))
    else do
      let k ← largestPow2Below size
      if m < k then do
        let child ← fold H target siblings k m
        .ok (child.map fun (child, rest) => (nodeHash H child sibling, rest))
      else do
        let size ← usizeSub size k
        let m ← usizeSub m k
        let child ← fold H target siblings size m
        .ok (child.map fun (child, rest) => (nodeHash H sibling child, rest))

/-- `MAX_TREE_SIZE` -/
def maxTreeSize : ℕ := 2 ^ 62

/-- `root_from_inclusion_proof` -/
def rootFromInclusionProof (H : Hash) (leafEntry : Octets) (index treeSize : ℕ)
    (auditPath : List Octets) : Checked (Option Octets) :=
  if treeSize = 0 ∨ treeSize ≤ index ∨ maxTreeSize < treeSize then .ok none
  else do
    let expected ← expectedInclusionPathLen treeSize index
    if auditPath.length ≠ expected then .ok none
    else do
      let computed ← fold H (leafHashBytes H leafEntry) auditPath.reverse treeSize index
      match computed with
      | some (computed, []) => .ok (some computed)
      | _ => .ok none

theorem usizeSub_eq {a b : ℕ} (h : b ≤ a) : usizeSub a b = .ok (a - b) := if_pos h

theorem usizeAdd_eq {a b : ℕ} (h : a + b < 2 ^ 64) : usizeAdd a b = .ok (a + b) := if_pos h

theorem doubleBelow_eq {n e fuel : ℕ} (hlt : 2 ^ e < n) (hn : n ≤ 2 ^ 63)
    (hfuel : 64 ≤ e + fuel) : doubleBelow n fuel (2 ^ e) = .ok (Merkle.largestPow2Below n) := by
  induction fuel generalizing e with
  | zero =>
      have := (Nat.pow_lt_pow_iff_right (a := 2) (by norm_num)).mp (hlt.trans_le hn)
      omega
  | succ fuel ih =>
      have hmul : usizeMul (2 ^ e) 2 = .ok (2 ^ (e + 1)) := by
        rw [usizeMul, ← pow_succ, if_pos]
        rw [pow_succ]
        omega
      rw [doubleBelow, hmul, ok_bind]
      split_ifs with h
      · exact ih h (by omega)
      · rw [largestPow2Below_eq hlt (not_lt.mp h)]

theorem largestPow2Below_eq {n : ℕ} (h : 2 ≤ n) (hn : n ≤ 2 ^ 63) :
    largestPow2Below n = .ok (Merkle.largestPow2Below n) :=
  doubleBelow_eq (e := 0) (by omega) hn (by omega)

theorem pathLenFrom_eq {fuel size m n : ℕ} (hm : m < size) (hsize : size ≤ 2 ^ 62)
    (h : size ≤ fuel) (hn : n + size < 2 ^ 64) :
    pathLenFrom fuel size m n = .ok (n + (turns size m).length) := by
  induction fuel generalizing size m n with
  | zero => omega
  | succ fuel ih =>
      rw [pathLenFrom]
      split_ifs with h1
      · have hlt := largestPow2Below_lt h1
        have hpos := largestPow2Below_pos size
        rw [largestPow2Below_eq h1 (by omega), ok_bind, usizeAdd_eq (by omega), ok_bind]
        split_ifs with hk
        · rw [ih hk (by omega) (by omega) (by omega), turns_left h1 hk, List.length_cons,
            Nat.add_assoc, Nat.add_comm 1]
        · rw [usizeSub_eq hlt.le, ok_bind, usizeSub_eq (by omega), ok_bind,
            ih (by omega) (by omega) (by omega) (by omega), turns_right h1 hk, List.length_cons,
            Nat.add_assoc, Nat.add_comm 1]
      · rw [turns_of_lt_two (by omega)]
        rfl

theorem expectedInclusionPathLen_eq {treeSize index : ℕ} (hm : index < treeSize)
    (hsize : treeSize ≤ 2 ^ 62) :
    expectedInclusionPathLen treeSize index =
      .ok (Merkle.expectedInclusionPathLen treeSize index) := by
  rw [expectedInclusionPathLen, pathLenFrom_eq hm hsize le_rfl (by omega), Nat.zero_add,
    Merkle.expectedInclusionPathLen_eq]

theorem fold_eq {target : Octets} {siblings : List Octets} {size m : ℕ} (hm : m < size)
    (hsize : size ≤ 2 ^ 62) :
    fold H target siblings size m = .ok (Merkle.fold H target siblings size m) := by
  induction siblings generalizing size m with
  | nil => rfl
  | cons sibling siblings ih =>
      rw [fold, Merkle.fold]
      split_ifs with h1
      · rfl
      have h2 : 2 ≤ size := by omega
      have hlt := largestPow2Below_lt h2
      have hpos := largestPow2Below_pos size
      rw [largestPow2Below_eq h2 (by omega), ok_bind]
      dsimp only
      split_ifs with hk
      · rw [ih hk (by omega), ok_bind]
      · rw [usizeSub_eq hlt.le, ok_bind, usizeSub_eq (by omega), ok_bind,
          ih (by omega) (by omega), ok_bind]

/-- No `u64` wraps in the fold, whatever the index, the size and the path. -/
theorem rootFromInclusionProof_eq (leafEntry : Octets) (index treeSize : ℕ)
    (auditPath : List Octets) :
    rootFromInclusionProof H leafEntry index treeSize auditPath =
      .ok (rootOfProof H leafEntry index treeSize auditPath) := by
  rw [rootFromInclusionProof, rootOfProof, maxTreeSize]
  by_cases hrange : index < treeSize ∧ treeSize ≤ 2 ^ 62
  · rw [if_neg (by omega), expectedInclusionPathLen_eq hrange.1 hrange.2, ok_bind]
    by_cases hlen : auditPath.length = Merkle.expectedInclusionPathLen treeSize index
    · rw [if_neg (not_not.mpr hlen), if_pos ⟨hrange.1, hrange.2, hlen⟩, fold_eq hrange.1 hrange.2,
        ok_bind]
      split <;> rfl
    · rw [if_pos hlen, if_neg fun h => hlen h.2.2]
  · rw [if_pos (by omega), if_neg fun h => hrange ⟨h.1, h.2.1⟩]

end Rust

namespace Go

/-- The loop of `largestPow2Below`; from 1 an `int64` doubles at most 63 times. -/
def doubleBelow (n : ℤ) : ℕ → ℤ → Checked ℤ
  | 0, _ => .error .fault
  | fuel + 1, k => do
    let before ← intSub n 1
    if k ≤ before.tdiv 2 then do
      let twice ← intMul k 2
      doubleBelow n fuel twice
    else .ok k

/-- `largestPow2Below` -/
def largestPow2Below (n : ℤ) : Checked ℤ := if n ≤ 1 then .ok 1 else doubleBelow n 64 1

/-- The loop of `expectedInclusionPathLen`; each round makes `size` smaller. -/
def pathLenFrom : ℕ → ℤ → ℤ → ℤ → Checked ℤ
  | 0, _, _, n => .ok n
  | fuel + 1, size, m, n =>
    if 1 < size then do
      let k ← largestPow2Below size
      let n ← intAdd n 1
      if m < k then pathLenFrom fuel k m n
      else do
        let size ← intSub size k
        let m ← intSub m k
        pathLenFrom fuel size m n
    else .ok n

/-- `expectedInclusionPathLen` -/
def expectedInclusionPathLen (treeSize index : ℤ) : Checked ℤ :=
  pathLenFrom treeSize.toNat treeSize index 0

/-- The inner `fold` of `rootFromInclusionProof`, siblings outermost first. -/
def fold (H : Hash) (target : Octets) :
    List Octets → ℤ → ℤ → Checked (Option (Octets × List Octets))
  | [], size, _ => .ok (if size = 1 then some (target, []) else none)
  | sibling :: siblings, size, m =>
    if size = 1 then .ok (some (target, sibling :: siblings))
    else do
      let k ← largestPow2Below size
      if m < k then do
        let child ← fold H target siblings k m
        .ok (child.map fun (child, rest) => (nodeHash H child sibling, rest))
      else do
        let size ← intSub size k
        let m ← intSub m k
        let child ← fold H target siblings size m
        .ok (child.map fun (child, rest) => (nodeHash H sibling child, rest))

/-- `maxTreeSize` -/
def maxTreeSize : ℤ := 2 ^ 62

/-- `rootFromInclusionProof` -/
def rootFromInclusionProof (H : Hash) (leafEntry : Octets) (index treeSize : ℤ)
    (auditPath : List Octets) : Checked (Option Octets) :=
  if index < 0 ∨ treeSize ≤ index ∨ maxTreeSize < treeSize then .ok none
  else do
    let expected ← expectedInclusionPathLen treeSize index
    if (auditPath.length : ℤ) ≠ expected then .ok none
    else do
      let computed ← fold H (leafHashBytes H leafEntry) auditPath.reverse treeSize index
      match computed with
      | some (computed, []) => .ok (some computed)
      | _ => .ok none

theorem intAdd_eq {a b : ℤ} (h : IsInt (a + b)) : intAdd a b = .ok (a + b) := if_pos h

theorem intSub_eq {a b : ℕ} (hb : b ≤ a) (h : a < 2 ^ 63) : intSub a b = .ok ((a - b : ℕ) : ℤ) := by
  rw [intSub, if_pos (by unfold IsInt; omega), Nat.cast_sub hb]

theorem doubleBelow_eq {n e fuel : ℕ} (hlt : 2 ^ e < n) (hn : n < 2 ^ 63)
    (hfuel : 64 ≤ e + fuel) :
    doubleBelow n fuel ((2 ^ e : ℕ) : ℤ) = .ok (Merkle.largestPow2Below n : ℤ) := by
  induction fuel generalizing e with
  | zero =>
      have := (Nat.pow_lt_pow_iff_right (a := 2) (by norm_num)).mp (hlt.trans hn)
      omega
  | succ fuel ih =>
      have hpos : 0 < 2 ^ e := by positivity
      have hbefore : intSub n 1 = .ok ((n - 1 : ℕ) : ℤ) := intSub_eq (b := 1) (by omega) hn
      have hguard : ((2 ^ e : ℕ) : ℤ) ≤ ((n - 1 : ℕ) : ℤ).tdiv 2 ↔ 2 ^ (e + 1) < n := by
        rw [Int.tdiv_eq_ediv_of_nonneg (Int.natCast_nonneg _), pow_succ]
        omega
      rw [doubleBelow, hbefore, ok_bind]
      by_cases h : 2 ^ (e + 1) < n
      · have hmul : intMul ((2 ^ e : ℕ) : ℤ) 2 = .ok ((2 ^ (e + 1) : ℕ) : ℤ) := by
          rw [pow_succ] at h ⊢
          generalize 2 ^ e = k at h ⊢
          rw [intMul, if_pos (by unfold IsInt; omega), Nat.cast_mul]
          rfl
        rw [if_pos (hguard.mpr h), hmul, ok_bind]
        exact ih h (by omega)
      · rw [if_neg (mt hguard.mp h), Merkle.largestPow2Below_eq hlt (not_lt.mp h)]

theorem largestPow2Below_eq {n : ℕ} (h : 2 ≤ n) (hn : n < 2 ^ 63) :
    largestPow2Below n = .ok (Merkle.largestPow2Below n : ℤ) := by
  rw [largestPow2Below, if_neg (by omega)]
  exact doubleBelow_eq (e := 0) (by omega) hn (by omega)

theorem pathLenFrom_eq {fuel size m n : ℕ} (hm : m < size) (hsize : size ≤ 2 ^ 62)
    (h : size ≤ fuel) (hn : n + size < 2 ^ 63) :
    pathLenFrom fuel size m n = .ok ((n + (turns size m).length : ℕ) : ℤ) := by
  induction fuel generalizing size m n with
  | zero => omega
  | succ fuel ih =>
      rw [pathLenFrom]
      by_cases h1 : 2 ≤ size
      · have hlt := largestPow2Below_lt h1
        have hpos := largestPow2Below_pos size
        have hadd : intAdd n 1 = .ok ((n + 1 : ℕ) : ℤ) := intAdd_eq (by unfold IsInt; omega)
        rw [if_pos (by omega), largestPow2Below_eq h1 (by omega), ok_bind, hadd, ok_bind]
        by_cases hk : m < Merkle.largestPow2Below size
        · rw [if_pos (by omega), ih hk (by omega) (by omega) (by omega), turns_left h1 hk,
            List.length_cons, Nat.add_assoc, Nat.add_comm 1]
        · rw [if_neg (by omega), intSub_eq hlt.le (by omega), ok_bind,
            intSub_eq (by omega) (by omega), ok_bind, ih (by omega) (by omega) (by omega) (by omega),
            turns_right h1 hk, List.length_cons, Nat.add_assoc, Nat.add_comm 1]
      · rw [if_neg (by omega), turns_of_lt_two (by omega)]
        rfl

theorem expectedInclusionPathLen_eq {treeSize index : ℕ} (hm : index < treeSize)
    (hsize : treeSize ≤ 2 ^ 62) :
    expectedInclusionPathLen treeSize index =
      .ok (Merkle.expectedInclusionPathLen treeSize index : ℤ) := by
  have h := pathLenFrom_eq (n := 0) hm hsize le_rfl (by omega)
  rw [Nat.zero_add] at h
  rw [Merkle.expectedInclusionPathLen_eq]
  exact h

theorem fold_eq {target : Octets} {siblings : List Octets} {size m : ℕ} (hm : m < size)
    (hsize : size ≤ 2 ^ 62) :
    fold H target siblings size m = .ok (Merkle.fold H target siblings size m) := by
  induction siblings generalizing size m with
  | nil => simp [fold, Merkle.fold]
  | cons sibling siblings ih =>
      rw [fold, Merkle.fold]
      by_cases h1 : size = 1
      · rw [if_pos (by omega), if_pos h1]
      have h2 : 2 ≤ size := by omega
      have hlt := largestPow2Below_lt h2
      have hpos := largestPow2Below_pos size
      rw [if_neg (by omega), if_neg h1, largestPow2Below_eq h2 (by omega), ok_bind]
      dsimp only
      by_cases hk : m < Merkle.largestPow2Below size
      · rw [if_pos (by omega), if_pos hk, ih hk (by omega), ok_bind]
      · rw [if_neg (by omega), if_neg hk, intSub_eq hlt.le (by omega), ok_bind,
          intSub_eq (by omega) (by omega), ok_bind, ih (by omega) (by omega), ok_bind]

/-- No `int64` wraps in the fold, whatever the path, for an index and a size that are not
negative. -/
theorem rootFromInclusionProof_eq (leafEntry : Octets) (index treeSize : ℕ)
    (auditPath : List Octets) :
    rootFromInclusionProof H leafEntry index treeSize auditPath =
      .ok (rootOfProof H leafEntry index treeSize auditPath) := by
  rw [rootFromInclusionProof, rootOfProof, maxTreeSize]
  by_cases hrange : index < treeSize ∧ treeSize ≤ 2 ^ 62
  · rw [if_neg (by omega), expectedInclusionPathLen_eq hrange.1 hrange.2, ok_bind]
    by_cases hlen : auditPath.length = Merkle.expectedInclusionPathLen treeSize index
    · rw [if_neg (by omega), if_pos ⟨hrange.1, hrange.2, hlen⟩, fold_eq hrange.1 hrange.2, ok_bind]
      split <;> rfl
    · rw [if_pos (by omega), if_neg fun h => hlen h.2.2]
  · rw [if_pos (by omega), if_neg fun h => hrange ⟨h.1, h.2.1⟩]

end Go

end ScittCose.Merkle
