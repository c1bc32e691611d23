import ScittCose.Lib.Hash

/-!
# The RFC 6962 Merkle tree (`scitt_cose/merkle.py`)

Leaf and interior hashes, the split of a list of leaves at the largest power of two below its length
and the Merkle tree hash. Beside each function that hashes stands the list of the octet strings it
hashes (`mthInputs`), so that a statement can speak of the collisions a run exhibits.
-/

namespace ScittCose.Merkle

/-! ## The split -/

/-- The loop of `_largest_pow2_below`; `fuel` bounds its rounds. -/
def doubleBelow (n : ℕ) : ℕ → ℕ → ℕ
  | 0, k => k
  | fuel + 1, k => if k * 2 < n then doubleBelow n fuel (k * 2) else k

/-- `_largest_pow2_below`: the largest power of two strictly less than `n`, for `1 < n`. Each round
doubles `k`, so `n` rounds are enough. -/
def largestPow2Below (n : ℕ) : ℕ := doubleBelow n n 1

theorem doubleBelow_spec {n fuel e : ℕ} (hlt : 2 ^ e < n) (hfuel : n ≤ fuel + e) :
    ∃ t, doubleBelow n fuel (2 ^ e) = 2 ^ t ∧ 2 ^ t < n ∧ n ≤ 2 ^ (t + 1) := by
  induction fuel generalizing e with
  | zero =>
      have := e.lt_two_pow_self
      omega
  | succ fuel ih =>
      rw [doubleBelow, ← pow_succ]
      split_ifs with h
      · exact ih h (by omega)
      · exact ⟨e, rfl, hlt, not_lt.mp h⟩

/-- What the split point is: a power of two below `n` whose double is not. -/
theorem largestPow2Below_spec {n : ℕ} (h : 2 ≤ n) :
    ∃ t, largestPow2Below n = 2 ^ t ∧ 2 ^ t < n ∧ n ≤ 2 ^ (t + 1) :=
  doubleBelow_spec (e := 0) (by omega) (by omega)

theorem largestPow2Below_pos (n : ℕ) : 0 < largestPow2Below n := by
  by_cases h : 2 ≤ n
  · obtain ⟨t, ht, -, -⟩ := largestPow2Below_spec h
    rw [ht]
    positivity
  · obtain rfl | rfl : n = 0 ∨ n = 1 := by omega
    · decide
    · decide

theorem largestPow2Below_lt {n : ℕ} (h : 2 ≤ n) : largestPow2Below n < n := by
  obtain ⟨t, ht, hlt, -⟩ := largestPow2Below_spec h
  omega

theorem le_two_mul_largestPow2Below {n : ℕ} (h : 2 ≤ n) : n ≤ 2 * largestPow2Below n := by
  obtain ⟨t, ht, -, hle⟩ := largestPow2Below_spec h
  rw [ht]
  rw [pow_succ] at hle
  omega

/-- The split point is the only power of two below `n` whose double is not. -/
theorem largestPow2Below_eq {n t : ℕ} (hlt : 2 ^ t < n) (hle : n ≤ 2 ^ (t + 1)) :
    largestPow2Below n = 2 ^ t := by
  have hpos : 0 < 2 ^ t := by positivity
  obtain ⟨s, hs, hslt, hsle⟩ := largestPow2Below_spec (n := n) (by omega)
  have h1 : s < t + 1 := (Nat.pow_lt_pow_iff_right (by norm_num)).mp (hslt.trans_le hle)
  have h2 : t < s + 1 := (Nat.pow_lt_pow_iff_right (by norm_num)).mp (hlt.trans_le hsle)
  rw [hs, show s = t by omega]

/-- Induction over the split: a list of two or more members from its two parts. -/
@[elab_as_elim]
theorem splitInduction {α : Type} {motive : List α → Prop} (nil : motive [])
    (single : ∀ x, motive [x])
    (split : ∀ L : List α, 2 ≤ L.length → motive (L.take (largestPow2Below L.length)) →
      motive (L.drop (largestPow2Below L.length)) → motive L)
    (L : List α) : motive L := by
  induction hn : L.length using Nat.strong_induction_on generalizing L with
  | _ n ih =>
      match L, hn with
      | [], _ => exact nil
      | [x], _ => exact single x
      | x :: y :: L, hn =>
          subst hn
          have h2 : 2 ≤ (x :: y :: L).length := by simp
          have hlt := largestPow2Below_lt h2
          have hpos := largestPow2Below_pos (x :: y :: L).length
          refine split _ h2 (ih _ ?_ _ rfl) (ih _ ?_ _ rfl)
          · rw [List.length_take]
            omega
          · rw [List.length_drop]
            omega

/-! ## The tree hash -/

section Hash

variable (H : Hash)

/-- What a leaf hash hashes: the leaf prefix and the entry. -/
def leafInput (entry : Octets) : Octets := 0x00 :: entry

/-- What an interior hash hashes: the node prefix and both children. -/
def nodeInput (left right : Octets) : Octets := 0x01 :: (left ++ right)

/-- `_leaf_hash_bytes`. -/
def leafHashBytes (entry : Octets) : Octets := H.digest (leafInput entry)

/-- `_node_hash`. -/
def nodeHash (left right : Octets) : Octets := H.digest (nodeInput left right)

/-- `_mth`, with the number of leaves as fuel. -/
def mthFuel : ℕ → List Octets → Octets
  | _, [] => H.digest []
  | _, [leaf] => leaf
  | 0, _ => H.digest []
  | fuel + 1, leaves =>
    let k := largestPow2Below leaves.length
    nodeHash H (mthFuel fuel (leaves.take k)) (mthFuel fuel (leaves.drop k))

/-- `_mth`: the Merkle tree hash over leaf hashes. -/
def mth (leaves : List Octets) : Octets := mthFuel H leaves.length leaves

/-- `mthInputs`, with the number of leaves as fuel. -/
def mthInputsFuel : ℕ → List Octets → List Octets
  | _, [] => [[]]
  | _, [_] => []
  | 0, _ => []
  | fuel + 1, leaves =>
    let k := largestPow2Below leaves.length
    nodeInput (mth H (leaves.take k)) (mth H (leaves.drop k)) ::
      (mthInputsFuel fuel (leaves.take k) ++ mthInputsFuel fuel (leaves.drop k))

/-- What `_mth` hashes. -/
def mthInputs (leaves : List Octets) : List Octets := mthInputsFuel H leaves.length leaves

/-- `merkle_root`; `none` is the `ValueError` of an entry that is not hexadecimal text. -/
def merkleRoot (entriesHex : List String) : Option String := do
  let entries ← entriesHex.mapM Octets.fromHex
  return Octets.toHex (mth H (entries.map (leafHashBytes H)))

/-- What `merkle_root` hashes. -/
def merkleRootInputs (entries : List Octets) : List Octets :=
  entries.map leafInput ++ mthInputs H (entries.map (leafHashBytes H))

variable {H}

@[simp] theorem length_leafHashBytes (entry : Octets) : (leafHashBytes H entry).length = 32 :=
  H.length_digest _

@[simp] theorem length_nodeHash (left right : Octets) : (nodeHash H left right).length = 32 :=
  H.length_digest _

theorem leafInput_inj {a b : Octets} (h : leafInput a = leafInput b) : a = b :=
  (List.cons.inj h).2

theorem leafInput_ne_nodeInput (entry left right : Octets) :
    leafInput entry ≠ nodeInput left right := by
  simp [leafInput, nodeInput]

theorem nodeInput_inj {a b c d : Octets} (h : nodeInput a b = nodeInput c d)
    (hl : a.length = c.length) : a = c ∧ b = d :=
  List.append_inj (List.cons.inj h).2 hl

@[simp] theorem mth_nil : mth H [] = H.digest [] := rfl

@[simp] theorem mth_singleton (leaf : Octets) : mth H [leaf] = leaf := rfl

theorem mthFuel_split {fuel : ℕ} {L : List Octets} (h : 2 ≤ L.length) :
    mthFuel H (fuel + 1) L = nodeHash H (mthFuel H fuel (L.take (largestPow2Below L.length)))
      (mthFuel H fuel (L.drop (largestPow2Below L.length))) := by
  match L, h with
  | _ :: _ :: _, _ => rfl

/-- More fuel than leaves changes nothing. -/
theorem mthFuel_eq_mth {fuel : ℕ} {L : List Octets} (h : L.length ≤ fuel) :
    mthFuel H fuel L = mth H L := by
  rw [mth]
  induction L using splitInduction generalizing fuel with
  | nil => cases fuel <;> rfl
  | single x => cases fuel <;> rfl
  | split L h2 ihl ihr =>
      have hlt := largestPow2Below_lt h2
      have hpos := largestPow2Below_pos L.length
      obtain ⟨fuel, rfl⟩ : ∃ f, fuel = f + 1 := ⟨fuel - 1, by omega⟩
      obtain ⟨n, hn⟩ : ∃ n, L.length = n + 1 := ⟨L.length - 1, by omega⟩
      rw [mthFuel_split h2]
      conv_rhs => rw [hn, mthFuel_split h2]
      have hl : (L.take (largestPow2Below L.length)).length ≤ n := by
        rw [List.length_take]; omega
      have hr : (L.drop (largestPow2Below L.length)).length ≤ n := by
        rw [List.length_drop]; omega
      rw [ihl hl, ihr hr, ihl (by omega), ihr (by omega)]

/-- The recursion of `_mth`. -/
theorem mth_split {L : List Octets} (h : 2 ≤ L.length) :
    mth H L = nodeHash H (mth H (L.take (largestPow2Below L.length)))
      (mth H (L.drop (largestPow2Below L.length))) := by
  have hlt := largestPow2Below_lt h
  have hpos := largestPow2Below_pos L.length
  obtain ⟨n, hn⟩ : ∃ n, L.length = n + 1 := ⟨L.length - 1, by omega⟩
  conv_lhs => rw [mth, hn, mthFuel_split h]
  rw [mthFuel_eq_mth (by rw [List.length_take]; omega),
    mthFuel_eq_mth (by rw [List.length_drop]; omega)]

theorem mthInputsFuel_split {fuel : ℕ} {L : List Octets} (h : 2 ≤ L.length) :
    mthInputsFuel H (fuel + 1) L =
      nodeInput (mth H (L.take (largestPow2Below L.length)))
          (mth H (L.drop (largestPow2Below L.length))) ::
        (mthInputsFuel H fuel (L.take (largestPow2Below L.length)) ++
          mthInputsFuel H fuel (L.drop (largestPow2Below L.length))) := by
  match L, h with
  | _ :: _ :: _, _ => rfl

theorem mthInputsFuel_eq_mthInputs {fuel : ℕ} {L : List Octets} (h : L.length ≤ fuel) :
    mthInputsFuel H fuel L = mthInputs H L := by
  rw [mthInputs]
  induction L using splitInduction generalizing fuel with
  | nil => cases fuel <;> rfl
  | single x => cases fuel <;> rfl
  | split L h2 ihl ihr =>
      have hlt := largestPow2Below_lt h2
      have hpos := largestPow2Below_pos L.length
      obtain ⟨fuel, rfl⟩ : ∃ f, fuel = f + 1 := ⟨fuel - 1, by omega⟩
      obtain ⟨n, hn⟩ : ∃ n, L.length = n + 1 := ⟨L.length - 1, by omega⟩
      rw [mthInputsFuel_split h2]
      conv_rhs => rw [hn, mthInputsFuel_split h2]
      have hl : (L.take (largestPow2Below L.length)).length ≤ n := by
        rw [List.length_take]; omega
      have hr : (L.drop (largestPow2Below L.length)).length ≤ n := by
        rw [List.length_drop]; omega
      rw [ihl hl, ihr hr, ihl (by omega), ihr (by omega)]

theorem mthInputs_split {L : List Octets} (h : 2 ≤ L.length) :
    mthInputs H L =
      nodeInput (mth H (L.take (largestPow2Below L.length)))
          (mth H (L.drop (largestPow2Below L.length))) ::
        (mthInputs H (L.take (largestPow2Below L.length)) ++
          mthInputs H (L.drop (largestPow2Below L.length))) := by
  have hlt := largestPow2Below_lt h
  have hpos := largestPow2Below_pos L.length
  obtain ⟨n, hn⟩ : ∃ n, L.length = n + 1 := ⟨L.length - 1, by omega⟩
  conv_lhs => rw [mthInputs, hn, mthInputsFuel_split h]
  rw [mthInputsFuel_eq_mthInputs (by rw [List.length_take]; omega),
    mthInputsFuel_eq_mthInputs (by rw [List.length_drop]; omega)]

/-- A tree over hashes of 32 octets has a root of 32 octets. -/
theorem length_mth {L : List Octets} (h : ∀ x ∈ L, x.length = 32) : (mth H L).length = 32 := by
  induction L using splitInduction with
  | nil => exact H.length_digest _
  | single x => exact h x (by simp)
  | split L h2 _ _ => rw [mth_split h2, length_nodeHash]

theorem length_mth_map (D : List Octets) : (mth H (D.map (leafHashBytes H))).length = 32 :=
  length_mth fun x hx => by
    obtain ⟨d, -, rfl⟩ := List.mem_map.mp hx
    exact length_leafHashBytes d

/-- The root over entries, as `merkle_root` writes it. -/
theorem merkleRoot_eq_some_iff {entriesHex : List String} {root : String} :
    merkleRoot H entriesHex = some root ↔
      ∃ entries, entriesHex.mapM Octets.fromHex = some entries ∧
        root = Octets.toHex (mth H (entries.map (leafHashBytes H))) := by
  simp only [merkleRoot, bind, pure, Option.bind_eq_some_iff, Option.some.injEq]
  exact exists_congr fun entries => and_congr_right fun _ => eq_comm

end Hash

end ScittCose.Merkle
