import ScittCose.Witness.Receipt

/-!
# One inclusion fold in four languages

`FoldsTo` is the recursion of RFC 6962 §2.1.1: a leaf, its index and its audit path against the size of
the tree, split at the largest power of two below that size. The folds of Python, Rust, Go and the
browser compute it over their own integers, and `inclusionFolds_agree` says so for all four at once:
below the ceiling on the size none of them wraps, rounds or runs on.
-/

namespace ScittCose.Merkle

open Checked

variable {H : Hash}

/-! ## The recursion of RFC 6962 -/

/-- `k` is the largest power of two below `n`. -/
def IsSplit (n k : ℕ) : Prop := IsGreatest {k | (∃ e, k = 2 ^ e) ∧ k < n} k

/-- A leaf hash at index `m` of a tree of `size` leaves folds up an audit path, written from the leaf
up, to a root. -/
inductive FoldsTo (H : Hash) (leaf : Octets) : ℕ → ℕ → List Octets → Octets → Prop
  | leaf : FoldsTo H leaf 1 0 [] leaf
  | left {size k m : ℕ} {path : List Octets} {child : Octets} (sibling : Octets)
      (hk : IsSplit size k) (h : FoldsTo H leaf k m path child) :
      FoldsTo H leaf size m (path ++ [sibling]) (nodeHash H child sibling)
  | right {size k m : ℕ} {path : List Octets} {child : Octets} (sibling : Octets)
      (hk : IsSplit size k) (h : FoldsTo H leaf (size - k) m path child) :
      FoldsTo H leaf size (k + m) (path ++ [sibling]) (nodeHash H sibling child)

theorem isSplit_iff {n k : ℕ} : IsSplit n k ↔ 2 ≤ n ∧ k = largestPow2Below n := by
  have hgreatest : 2 ≤ n → IsSplit n (largestPow2Below n) := by
    intro h2
    obtain ⟨t, ht, hlt, hle⟩ := largestPow2Below_spec h2
    refine ⟨⟨⟨t, ht⟩, ht ▸ hlt⟩, ?_⟩
    rintro _ ⟨⟨e, rfl⟩, he⟩
    have hexp : e < t + 1 := (Nat.pow_lt_pow_iff_right (by norm_num)).mp (he.trans_le hle)
    rw [ht]
    exact Nat.pow_le_pow_right (by norm_num) (by omega)
  constructor
  · intro h
    obtain ⟨⟨e, he⟩, hlt⟩ := h.1
    have hpos : 0 < 2 ^ e := by positivity
    have h2 : 2 ≤ n := by omega
    exact ⟨h2, h.unique (hgreatest h2)⟩
  · rintro ⟨h2, rfl⟩
    exact hgreatest h2

theorem FoldsTo.index_lt {leaf root : Octets} {size m : ℕ} {path : List Octets}
    (h : FoldsTo H leaf size m path root) : m < size := by
  induction h with
  | leaf => exact Nat.one_pos
  | left sibling hk _ ih => exact ih.trans hk.1.2
  | right sibling hk _ ih => omega

/-- A path is as long as its leaf is deep. -/
theorem FoldsTo.length_path {leaf root : Octets} {size m : ℕ} {path : List Octets}
    (h : FoldsTo H leaf size m path root) : path.length = (turns size m).length := by
  induction h with
  | leaf =>
      rw [turns_of_lt_two Nat.one_lt_two]
      rfl
  | left sibling hk hchild ih =>
      obtain ⟨h2, rfl⟩ := isSplit_iff.mp hk
      rw [turns_left h2 hchild.index_lt, List.length_append, ih, List.length_cons]
      rfl
  | right sibling hk _ ih =>
      obtain ⟨h2, rfl⟩ := isSplit_iff.mp hk
      rw [turns_right h2 (by omega), Nat.add_sub_cancel_left, List.length_append, ih,
        List.length_cons]
      rfl

theorem fold_of_foldsTo {leaf root : Octets} {size m : ℕ} {path : List Octets}
    (h : FoldsTo H leaf size m path root) : fold H leaf path.reverse size m = some (root, []) := by
  induction h with
  | leaf => rfl
  | left sibling hk hchild ih =>
      obtain ⟨h2, rfl⟩ := isSplit_iff.mp hk
      rw [List.reverse_append, List.reverse_singleton, List.singleton_append,
        fold_left h2 hchild.index_lt, ih]
      rfl
  | right sibling hk _ ih =>
      obtain ⟨h2, rfl⟩ := isSplit_iff.mp hk
      rw [List.reverse_append, List.reverse_singleton, List.singleton_append,
        fold_right h2 (by omega), Nat.add_sub_cancel_left, ih]
      rfl

theorem foldsTo_of_fold {leaf root : Octets} {siblings : List Octets} {size m : ℕ} (hm : m < size)
    (h : fold H leaf siblings size m = some (root, [])) :
    FoldsTo H leaf size m siblings.reverse root := by
  induction siblings generalizing size m root with
  | nil =>
      rw [fold] at h
      split_ifs at h with h1
      obtain rfl : leaf = root := by simpa using h
      obtain rfl : m = 0 := by omega
      rw [h1]
      exact .leaf
  | cons sibling siblings ih =>
      by_cases h1 : size = 1
      · rw [h1, fold_size_one] at h
        simp at h
      · have h2 : 2 ≤ size := by omega
        have hlt := largestPow2Below_lt h2
        have hk := isSplit_iff.mpr ⟨h2, rfl⟩
        rw [List.reverse_cons]
        by_cases hturn : m < largestPow2Below size
        · rw [fold_left h2 hturn, Option.map_eq_some_iff] at h
          obtain ⟨⟨child, rest⟩, hchild, h⟩ := h
          obtain ⟨rfl, rfl⟩ := Prod.mk.inj h
          exact .left sibling hk (ih hturn hchild)
        · rw [fold_right h2 hturn, Option.map_eq_some_iff] at h
          obtain ⟨⟨child, rest⟩, hchild, h⟩ := h
          obtain ⟨rfl, rfl⟩ := Prod.mk.inj h
          have hright := FoldsTo.right sibling hk (ih (by omega) hchild)
          rwa [Nat.add_sub_cancel' (not_lt.mp hturn)] at hright

theorem rootOfProof_eq_some_iff {leafEntry root : Octets} {index treeSize : ℕ}
    {auditPath : List Octets} :
    rootOfProof H leafEntry index treeSize auditPath = some root ↔
      treeSize ≤ 2 ^ 62 ∧ FoldsTo H (leafHashBytes H leafEntry) treeSize index auditPath root := by
  rw [rootOfProof]
  constructor
  · intro h
    split_ifs at h with hrange
    split at h
    · next computed hfold =>
        cases h
        have := foldsTo_of_fold hrange.1 hfold
        rw [List.reverse_reverse] at this
        exact ⟨hrange.2.1, this⟩
    · cases h
  · rintro ⟨hsize, h⟩
    have hlen : auditPath.length = expectedInclusionPathLen treeSize index := by
      rw [expectedInclusionPathLen_eq, h.length_path]
    rw [if_pos ⟨h.index_lt, hsize, hlen⟩, fold_of_foldsTo h]

/-! ## The integers of each language -/

/-- The root for an index and a size that are integers of any sign. -/
def rootOver (H : Hash) (leafEntry : Octets) (index treeSize : ℤ) (auditPath : List Octets) :
    Option Octets :=
  if 0 ≤ index then rootOfProof H leafEntry index.toNat treeSize.toNat auditPath else none

theorem rootOver_natCast (leafEntry : Octets) (index treeSize : ℕ) (auditPath : List Octets) :
    rootOver H leafEntry index treeSize auditPath =
      rootOfProof H leafEntry index treeSize auditPath := by
  rw [rootOver, if_pos (Int.natCast_nonneg _), Int.toNat_natCast, Int.toNat_natCast]

/-- No tree has a leaf at a negative index, or is of a negative size. -/
theorem rootOver_of_neg {leafEntry : Octets} {index treeSize : ℤ} {auditPath : List Octets}
    (h : index < 0 ∨ treeSize < 0) : rootOver H leafEntry index treeSize auditPath = none := by
  rw [rootOver]
  split_ifs with h0
  · rw [rootOfProof, if_neg]
    omega
  · rfl

theorem rootOver_eq_some_iff {leafEntry root : Octets} {index treeSize : ℤ}
    {auditPath : List Octets} :
    rootOver H leafEntry index treeSize auditPath = some root ↔
      0 ≤ index ∧ treeSize ≤ maxTreeSize ∧
        FoldsTo H (leafHashBytes H leafEntry) treeSize.toNat index.toNat auditPath root := by
  rw [rootOver, maxTreeSize]
  split_ifs with h0
  · rw [rootOfProof_eq_some_iff]
    constructor
    · rintro ⟨hsize, h⟩
      exact ⟨h0, by omega, h⟩
    · rintro ⟨-, hsize, h⟩
      exact ⟨by omega, h⟩
  · simp [h0]

/-- Two integers are both natural numbers, or one of them is negative. -/
theorem natCast_or_neg (index treeSize : ℤ) :
    (∃ i n : ℕ, index = i ∧ treeSize = n) ∨ index < 0 ∨ treeSize < 0 := by
  by_cases h : 0 ≤ index ∧ 0 ≤ treeSize
  · exact .inl ⟨index.toNat, treeSize.toNat, by omega, by omega⟩
  · exact .inr (by omega)

theorem rootFromInclusionProof_eq {leafEntryHex : String} {leafEntry : Octets}
    (hleaf : Octets.fromHex leafEntryHex = some leafEntry) {auditPathHex : List String}
    {auditPath : List Octets} (hpath : auditPathHex.mapM Octets.fromHex = some auditPath)
    (index treeSize : ℤ) :
    rootFromInclusionProof H leafEntryHex index treeSize auditPathHex =
      .ok ((rootOver H leafEntry index treeSize auditPath).map Octets.toHex) := by
  obtain ⟨i, n, rfl, rfl⟩ | hneg := natCast_or_neg index treeSize
  · rw [rootFromInclusionProof_eq_ok hleaf hpath, rootOver_natCast]
  · rw [rootOver_of_neg hneg, rootFromInclusionProof, if_pos (by omega)]
    rfl

theorem Go.rootFromInclusionProof_eq_rootOver (leafEntry : Octets) (index treeSize : ℤ)
    (auditPath : List Octets) :
    Go.rootFromInclusionProof H leafEntry index treeSize auditPath =
      .ok (rootOver H leafEntry index treeSize auditPath) := by
  obtain ⟨i, n, rfl, rfl⟩ | hneg := natCast_or_neg index treeSize
  · rw [Go.rootFromInclusionProof_eq, rootOver_natCast]
  · rw [rootOver_of_neg hneg, Go.rootFromInclusionProof, if_pos (by omega)]

theorem Browser.receiptRoot_eq_rootOver {P : Witness.Platform} (entry : Octets) {index size : ℤ}
    (hi : -2 ^ 53 < index ∧ index < 2 ^ 53) (hs : -2 ^ 53 < size ∧ size < 2 ^ 53)
    (path : List Octets) :
    Witness.receiptRoot P entry (.int index) (.int size) path =
      rootOver P.hash entry index size path := by
  obtain ⟨i, n, rfl, rfl⟩ | hneg := natCast_or_neg index size
  · rw [Witness.receiptRoot_eq entry (by omega) (by omega), rootOver_natCast]
  · rw [rootOver_of_neg hneg, Witness.receiptRoot, Witness.safeInteger, Witness.safeInteger,
      if_pos hi, if_pos hs]
    dsimp only
    rw [if_pos (by omega)]

/-! ## The loops -/

/-- The loop that finds the split point, in each language, with so many rounds. -/
structure SplitLoops (n k rounds : ℕ) : Prop where
  python : doubleBelow n rounds 1 = k
  rust : Rust.doubleBelow n rounds 1 = .ok k
  go : Go.doubleBelow n rounds 1 = .ok (k : ℤ)
  browser : n < 2 ^ 53 → Witness.doubleBelow n rounds 1 = k

/-- The loop that counts the siblings of a leaf, in each language, with so many rounds. -/
structure PathLoops (size index depth rounds : ℕ) : Prop where
  python : pathLenFrom rounds size index 0 = depth
  rust : Rust.pathLenFrom rounds size index 0 = .ok depth
  go : Go.pathLenFrom rounds size index 0 = .ok (depth : ℤ)
  browser : size < 2 ^ 53 → Witness.pathLoop rounds size index 0 = depth

theorem splitLoops_of_le {n rounds : ℕ} (h2 : 2 ≤ n) (hn : n ≤ 2 ^ 62) (hr : n + 64 ≤ rounds) :
    SplitLoops n (largestPow2Below n) rounds := by
  have hpython : doubleBelow n rounds 1 = largestPow2Below n := by
    obtain ⟨t, ht, hlt, hle⟩ : ∃ t, doubleBelow n rounds (2 ^ 0) = 2 ^ t ∧ 2 ^ t < n ∧
      n ≤ 2 ^ (t + 1) := doubleBelow_spec (by omega) (by omega)
    rw [largestPow2Below_eq hlt hle]
    exact ht
  constructor
  · exact hpython
  · exact Rust.doubleBelow_eq (e := 0) (by omega) (by omega) (by omega)
  · exact Go.doubleBelow_eq (e := 0) (by omega) (by omega) (by omega)
  · intro hsafe
    have h := Witness.doubleBelow_eq hsafe rounds 0 (by omega)
    rw [pow_zero, Nat.cast_one, hpython] at h
    exact h

theorem pathLoops_of_le {size index rounds : ℕ} (hi : index < size) (hs : size ≤ 2 ^ 62)
    (hr : size ≤ rounds) : PathLoops size index (turns size index).length rounds := by
  have hpython : pathLenFrom rounds size index 0 = (turns size index).length := by
    rw [pathLenFrom_eq hr, Nat.zero_add]
  constructor
  · exact hpython
  · rw [Rust.pathLenFrom_eq hi hs hr (by omega), Nat.zero_add]
  · have h := Go.pathLenFrom_eq (n := 0) hi hs hr (by omega)
    rw [Nat.zero_add] at h
    exact h
  · intro hsafe
    rw [Witness.pathLoop_eq hsafe hi, hpython]

/-! ## The four folds -/

/-- One fold in four languages. Over all integers, `u64`, `int64` and safe integers the result is
`rootOver`, which is the recursion of RFC 6962; nothing faults, and every loop ends. -/
theorem inclusionFolds_agree (P : Witness.Platform) {leafEntryHex : String} {leafEntry : Octets}
    (hleaf : Octets.fromHex leafEntryHex = some leafEntry) {auditPathHex : List String}
    {auditPath : List Octets} (hpath : auditPathHex.mapM Octets.fromHex = some auditPath) :
    (∀ index treeSize : ℤ, rootFromInclusionProof P.hash leafEntryHex index treeSize auditPathHex =
      .ok ((rootOver P.hash leafEntry index treeSize auditPath).map Octets.toHex)) ∧
    (∀ index treeSize : UInt64,
      Rust.rootFromInclusionProof P.hash leafEntry index.toNat treeSize.toNat auditPath =
        .ok (rootOver P.hash leafEntry index.toNat treeSize.toNat auditPath)) ∧
    (∀ index treeSize : Int64,
      Go.rootFromInclusionProof P.hash leafEntry index.toInt treeSize.toInt auditPath =
        .ok (rootOver P.hash leafEntry index.toInt treeSize.toInt auditPath)) ∧
    (∀ index treeSize : ℤ, -2 ^ 53 < index ∧ index < 2 ^ 53 → -2 ^ 53 < treeSize ∧ treeSize < 2 ^ 53 →
      Witness.receiptRoot P leafEntry (.int index) (.int treeSize) auditPath =
        rootOver P.hash leafEntry index treeSize auditPath) ∧
    (∀ (index treeSize : ℤ) (root : Octets),
      rootOver P.hash leafEntry index treeSize auditPath = some root ↔
        0 ≤ index ∧ treeSize ≤ maxTreeSize ∧
          FoldsTo P.hash (leafHashBytes P.hash leafEntry) treeSize.toNat index.toNat auditPath
            root) ∧
    (∀ n, 2 ≤ n → n ≤ 2 ^ 62 →
      ∃ k, IsSplit n k ∧ ∃ enough, ∀ rounds, enough ≤ rounds → SplitLoops n k rounds) ∧
    (∀ size index, index < size → size ≤ 2 ^ 62 →
      ∃ depth enough, ∀ rounds, enough ≤ rounds → PathLoops size index depth rounds) := by
  refine ⟨?python, ?rust, ?go, ?browser, ?rfc, ?split, ?path⟩
  case python => exact rootFromInclusionProof_eq hleaf hpath
  case rust =>
    intro index treeSize
    rw [Rust.rootFromInclusionProof_eq, rootOver_natCast]
  case go =>
    intro index treeSize
    exact Go.rootFromInclusionProof_eq_rootOver leafEntry _ _ auditPath
  case browser =>
    intro index treeSize hi hs
    exact Browser.receiptRoot_eq_rootOver leafEntry hi hs auditPath
  case rfc =>
    intro index treeSize root
    exact rootOver_eq_some_iff
  case split =>
    intro n h2 hn
    exact ⟨_, isSplit_iff.mpr ⟨h2, rfl⟩, n + 64, fun _ hr => splitLoops_of_le h2 hn hr⟩
  case path =>
    intro size index hi hs
    exact ⟨_, size, fun _ hr => pathLoops_of_le hi hs hr⟩

/-- The root over the entries `00` and `01`, from the second. -/
theorem inclusionFolds_agree_two_entries :
    ∃ root,
      rootFromInclusionProof Hash.sha256 "01" 1 2
        ["96a296d224f285c67bee93c30f8a309157f0daa35dc5b87e410b78630a09cfc7"] =
          .ok (some (Octets.toHex root)) ∧
      Rust.rootFromInclusionProof Hash.sha256 [1] 1 2 [leafHashBytes Hash.sha256 [0]] =
        .ok (some root) ∧
      Go.rootFromInclusionProof Hash.sha256 [1] 1 2 [leafHashBytes Hash.sha256 [0]] =
        .ok (some root) ∧
      Witness.receiptRoot Witness.vectorPlatform [1] (.int 1) (.int 2)
        [leafHashBytes Hash.sha256 [0]] = some root ∧
      (∃ enough, ∀ rounds, enough ≤ rounds → SplitLoops 2 1 rounds) ∧
      ∃ depth enough, ∀ rounds, enough ≤ rounds → PathLoops 2 1 depth rounds := by
  obtain ⟨hpython, hrust, hgo, hbrowser, hrfc, hsplit, hpath⟩ :=
    @inclusionFolds_agree Witness.vectorPlatform "01" [1] (by decide)
      ["96a296d224f285c67bee93c30f8a309157f0daa35dc5b87e410b78630a09cfc7"]
      [leafHashBytes Hash.sha256 [0]] (by decide +kernel)
  have hsplit2 : IsSplit 2 1 := isSplit_iff.mpr ⟨le_rfl, rfl⟩
  have hfold := @FoldsTo.right Hash.sha256 _ 2 1 0 [] _ (leafHashBytes Hash.sha256 [0]) hsplit2
    (@FoldsTo.leaf Hash.sha256 (leafHashBytes Hash.sha256 [1]))
  have hroot := (hrfc 1 2 _).mpr ⟨by decide, by decide, hfold⟩
  refine ⟨_, (hpython 1 2).trans ?_, (hrust 1 2).trans ?_, (hgo 1 2).trans ?_,
    (hbrowser 1 2 (by decide) (by decide)).trans hroot, ?_, hpath 2 1 (by decide) (by decide)⟩
  · rw [hroot]
    rfl
  · exact congrArg _ hroot
  · exact congrArg _ hroot
  · obtain ⟨k, hk, h⟩ := hsplit 2 le_rfl (by decide)
    obtain rfl := hk.unique hsplit2
    exact h

end ScittCose.Merkle
