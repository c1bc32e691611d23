import ScittCose.Lib.Hash
import ScittCose.Cll.Position

/-!
# Hashing of the checkpointed log (`scitt_cose/cll.py`)

`leaf_hash`, `interior_hash`, `root_from_peaks` and `_parse_digest_hex`; `none` is an exception. Then
the root of a log of digests (`mmrRoot`): the nodes of the Merkle mountain range by the code's own
functions, over the positions of `Mmr`. `bagged`, `mmrNode` and `baggedRoot` say what these compute
where no exception is raised.

An interior hash commits to the position and both children (`interiorInput_inj`), a bagging to the
bagged rest and the peak before it (`bagged_inj`).
-/

namespace ScittCose.Cll

open Mmr

section Source

variable (H : Hash)

/-- `DIGEST_LEN` -/
def digestLen : ℕ := 32

/-- `_assert_digest` -/
def assertDigest (d : Octets) : Option Unit := if d.length ≠ digestLen then none else some ()

/-- What `leaf_hash` hashes. -/
def leafInput (bodyDigest : Octets) : Octets := 0x00 :: bodyDigest

/-- What `interior_hash` hashes. -/
def interiorInput (left right : Octets) (position : ℕ) : Octets :=
  Octets.ofNat 8 (position + 1) ++ left ++ right

/-- `leaf_hash` -/
def leafHash (bodyDigest : Octets) : Option Octets := do
  assertDigest bodyDigest
  return H.digest (leafInput bodyDigest)

/-- `interior_hash` -/
def interiorHash (left right : Octets) (position : ℕ) : Option Octets := do
  assertDigest left
  assertDigest right
  if position + 1 < 2 ^ 64 then some (H.digest (interiorInput left right position)) else none

/-- The loop of `root_from_peaks`: `right` is the last of the hashes, the others stand last first. -/
def bagLoop (right : Octets) : List Octets → Octets
  | [] => right
  | left :: hashes => bagLoop (H.digest (right ++ left)) hashes

/-- `root_from_peaks` -/
def rootFromPeaks (peakHashes : List Octets) : Option Octets :=
  match peakHashes.reverse with
  | [] => some (List.replicate digestLen 0)
  | right :: hashes =>
    if ∀ p ∈ peakHashes, p.length = digestLen then some (bagLoop H right hashes) else none

/-- `_parse_digest_hex` -/
def parseDigestHex (h : String) : Option Octets := do
  let b ← Octets.fromHex h
  if b.length ≠ digestLen then none else some b

/-- A body digest. -/
abbrev Digest := { d : Octets // d.length = 32 }

/-- The entry of a log at an index. -/
def logEntry (L : List Digest) (i : ℕ) : Octets := (L.map Subtype.val).getD i []

/-- The node of height `h` over the entries from `s` on. -/
def nodeHash (L : List Digest) : ℕ → ℕ → Option Octets
  | 0, s => leafHash H (logEntry L s)
  | h + 1, s => do
    let left ← nodeHash L h s
    let right ← nodeHash L h (s + 2 ^ h)
    interiorHash H left right (pos (h + 1) s)

/-- The root of a log. -/
def mmrRoot (L : List Digest) : Option Octets := do
  let peakHashes ← (mountains L.length).mapM fun p => nodeHash H L p.1 p.2
  rootFromPeaks H peakHashes

end Source

section Values

variable (H : Hash)

/-- The value of a leaf. -/
def leafNode (d : Octets) : Octets := H.digest (leafInput d)

/-- The value of an inner node. -/
def innerNode (position : ℕ) (left right : Octets) : Octets :=
  H.digest (interiorInput left right position)

/-- The value of a node of a log. -/
def mmrNode (L : List Digest) (h s : ℕ) : Octets :=
  node (leafNode H) (innerNode H) (logEntry L) h s

/-- The values of the peaks of a log. -/
def peakHashes (L : List Digest) : List Octets :=
  (mountains L.length).map fun p => mmrNode H L p.1 p.2

/-- The bagging of peaks, from the right. -/
def bagged : List Octets → Octets
  | [] => List.replicate 32 0
  | [p] => p
  | p :: q :: ps => H.digest (bagged (q :: ps) ++ p)

/-- What the bagging hashes. -/
def baggedInputs : List Octets → List Octets
  | [] => []
  | [_] => []
  | p :: q :: ps => (bagged H (q :: ps) ++ p) :: baggedInputs (q :: ps)

/-- What the value of a node hashes. -/
def nodeInputs (L : List Digest) : ℕ → ℕ → List Octets
  | 0, s => [leafInput (logEntry L s)]
  | h + 1, s =>
    interiorInput (mmrNode H L h s) (mmrNode H L h (s + 2 ^ h)) (pos (h + 1) s) ::
      (nodeInputs L h s ++ nodeInputs L h (s + 2 ^ h))

/-- What the root of a log hashes. -/
def mmrInputs (L : List Digest) : List Octets :=
  (mountains L.length).flatMap (fun p => nodeInputs H L p.1 p.2) ++ baggedInputs H (peakHashes H L)

end Values

variable {H : Hash}

/-! ## Inputs -/

theorem assertDigest_eq_some_iff {d : Octets} {u : Unit} :
    assertDigest d = some u ↔ d.length = 32 := by
  unfold assertDigest digestLen
  split_ifs with h
  · simp [h]
  · simp [not_not.mp h]

theorem assertDigest_eq {d : Octets} (h : d.length = 32) : assertDigest d = some () :=
  assertDigest_eq_some_iff.mpr h

theorem leafHash_eq_some_iff {d x : Octets} :
    leafHash H d = some x ↔ d.length = 32 ∧ x = H.digest (leafInput d) := by
  unfold leafHash
  constructor
  · intro h
    obtain ⟨u, hu, hx⟩ := Option.bind_eq_some_iff.mp h
    exact ⟨assertDigest_eq_some_iff.mp hu, (Option.some.inj hx).symm⟩
  · rintro ⟨hd, rfl⟩
    rw [assertDigest_eq hd]
    rfl

theorem interiorHash_eq_some_iff {l r x : Octets} {p : ℕ} :
    interiorHash H l r p = some x ↔
      l.length = 32 ∧ r.length = 32 ∧ p + 1 < 2 ^ 64 ∧ x = H.digest (interiorInput l r p) := by
  unfold interiorHash
  constructor
  · intro h
    obtain ⟨u, hl, h⟩ := Option.bind_eq_some_iff.mp h
    obtain ⟨u', hr, h⟩ := Option.bind_eq_some_iff.mp h
    split_ifs at h with hp
    exact ⟨assertDigest_eq_some_iff.mp hl, assertDigest_eq_some_iff.mp hr, hp,
      (Option.some.inj h).symm⟩
  · rintro ⟨hl, hr, hp, rfl⟩
    rw [assertDigest_eq hl, assertDigest_eq hr, if_pos hp]
    rfl

theorem parseDigestHex_eq_some_iff {h : String} {b : Octets} :
    parseDigestHex h = some b ↔ Octets.fromHex h = some b ∧ b.length = 32 := by
  unfold parseDigestHex digestLen
  rcases Octets.fromHex h with _ | b'
  · simp
  · rcases eq_or_ne b'.length 32 with hb | hb
    · simp only [Option.bind_eq_bind, Option.bind_some, hb, ne_eq, not_true, if_false,
        Option.some.injEq]
      exact ⟨fun h => ⟨h, h ▸ hb⟩, fun h => h.1⟩
    · simp only [Option.bind_eq_bind, Option.bind_some, hb, ne_eq, not_false_iff, if_true,
        reduceCtorEq, Option.some.injEq, false_iff, not_and]
      exact fun h => h ▸ hb

@[simp] theorem length_leafInput (d : Octets) : (leafInput d).length = d.length + 1 := rfl

@[simp] theorem length_interiorInput (left right : Octets) (position : ℕ) :
    (interiorInput left right position).length = 8 + left.length + right.length := by
  unfold interiorInput
  rw [List.length_append, List.length_append]
  rfl

/-- An interior input shows its position and both children. -/
theorem interiorInput_inj {l r l' r' : Octets} {p p' : ℕ} (hl : l.length = 32) (hl' : l'.length = 32)
    (hp : p + 1 < 2 ^ 64) (hp' : p' + 1 < 2 ^ 64)
    (h : interiorInput l r p = interiorInput l' r' p') : p = p' ∧ l = l' ∧ r = r' := by
  unfold interiorInput at h
  rw [List.append_assoc, List.append_assoc] at h
  obtain ⟨hpos, hrest⟩ := List.append_inj h rfl
  obtain ⟨hleft, hright⟩ := List.append_inj hrest (hl.trans hl'.symm)
  have hsucc : p + 1 = p' + 1 := Octets.ofNat_inj hp hp' hpos
  exact ⟨by omega, hleft, hright⟩

/-- At one position, whatever the position is. -/
theorem interiorInput_inj_of_pos {l r l' r' : Octets} {p : ℕ} (hl : l.length = l'.length)
    (h : interiorInput l r p = interiorInput l' r' p) : l = l' ∧ r = r' := by
  unfold interiorInput at h
  rw [List.append_assoc, List.append_assoc] at h
  exact List.append_inj (List.append_cancel_left h) hl

/-! ## Bagging -/

theorem bagLoop_append (x p : Octets) (l : List Octets) :
    bagLoop H x (l ++ [p]) = H.digest (bagLoop H x l ++ p) := by
  induction l generalizing x with
  | nil => rfl
  | cons y l ih => exact ih _

/-- The loop bags from the right. -/
theorem bagLoop_reverse {ps : List Octets} {right : Octets} {hashes : List Octets}
    (h : ps.reverse = right :: hashes) : bagLoop H right hashes = bagged H ps := by
  induction ps generalizing right hashes with
  | nil => cases h
  | cons p ps ih =>
      rw [List.reverse_cons] at h
      rcases hps : ps.reverse with _ | ⟨right', hashes'⟩
      · rw [hps] at h
        obtain ⟨rfl, rfl⟩ := List.cons.inj h
        obtain rfl : ps = [] := List.reverse_eq_nil_iff.mp hps
        rfl
      · rw [hps, List.cons_append] at h
        obtain ⟨rfl, rfl⟩ := List.cons.inj h
        obtain ⟨q, qs, rfl⟩ : ∃ q qs, ps = q :: qs := by
          apply List.exists_cons_of_ne_nil
          rintro rfl
          cases hps
        rw [bagLoop_append, ih hps]
        rfl

theorem rootFromPeaks_eq_some_iff {ps : List Octets} {root : Octets} :
    rootFromPeaks H ps = some root ↔ (∀ p ∈ ps, p.length = 32) ∧ root = bagged H ps := by
  unfold rootFromPeaks
  rcases h : ps.reverse with _ | ⟨right, hashes⟩
  · obtain rfl : ps = [] := List.reverse_eq_nil_iff.mp h
    simp only [List.not_mem_nil, false_implies, implies_true, true_and, Option.some.injEq, bagged,
      digestLen]
    exact eq_comm
  · dsimp only
    rw [bagLoop_reverse h]
    split_ifs with hall
    · rw [Option.some.injEq]
      exact ⟨fun h => ⟨hall, h.symm⟩, fun h => h.2.symm⟩
    · exact ⟨fun h => (nomatch h), fun h => absurd h.1 hall⟩

theorem rootFromPeaks_eq {ps : List Octets} (h : ∀ p ∈ ps, p.length = 32) :
    rootFromPeaks H ps = some (bagged H ps) :=
  rootFromPeaks_eq_some_iff.mpr ⟨h, rfl⟩

theorem length_bagged {ps : List Octets} (h : ∀ p ∈ ps, p.length = 32) : (bagged H ps).length = 32 := by
  rcases ps with _ | ⟨p, _ | ⟨q, ps⟩⟩
  · rfl
  · exact h p List.mem_cons_self
  · exact H.length_digest _

/-- Rows of as many peaks with one bagging are one row, or two inputs collide. -/
theorem bagged_inj {inputs ps qs : List Octets} (hno : ¬ H.Collision inputs)
    (hps : ∀ p ∈ ps, p.length = 32) (hqs : ∀ q ∈ qs, q.length = 32) (hlen : ps.length = qs.length)
    (hpin : baggedInputs H ps ⊆ inputs) (hqin : baggedInputs H qs ⊆ inputs)
    (h : bagged H ps = bagged H qs) : ps = qs := by
  induction ps generalizing qs with
  | nil => exact (List.length_eq_zero_iff.mp hlen.symm).symm
  | cons p ps ih =>
      obtain ⟨q, qs, rfl⟩ := List.exists_cons_of_length_eq_add_one hlen.symm
      rcases ps with _ | ⟨p', ps⟩
      · obtain rfl : qs = [] := List.length_eq_zero_iff.mp (by simpa using hlen.symm)
        exact congrArg (fun x => [x]) h
      · obtain ⟨q', qs, rfl⟩ := List.exists_cons_of_length_eq_add_one
          (show qs.length = ps.length + 1 by simpa using hlen.symm)
        have hinput := Hash.eq_of_digest_eq hno (hpin List.mem_cons_self) (hqin List.mem_cons_self) h
        have hps' : ∀ x ∈ p' :: ps, x.length = 32 := fun x hx => hps x (List.mem_cons_of_mem _ hx)
        have hqs' : ∀ x ∈ q' :: qs, x.length = 32 := fun x hx => hqs x (List.mem_cons_of_mem _ hx)
        obtain ⟨hrest, rfl⟩ := List.append_inj hinput
          ((length_bagged hps').trans (length_bagged hqs').symm)
        rw [ih hps' hqs' (by simpa using hlen) (fun x hx => hpin (List.mem_cons_of_mem _ hx))
          (fun x hx => hqin (List.mem_cons_of_mem _ hx)) hrest]

/-! ## Nodes of a log -/

theorem length_logEntry {L : List Digest} {i : ℕ} (hi : i < L.length) : (logEntry L i).length = 32 := by
  unfold logEntry
  rw [List.getD_eq_getElem _ _ (by rwa [List.length_map]), List.getElem_map]
  exact (L[i]).2

theorem logEntry_take {L : List Digest} {f i : ℕ} (hi : i < f) :
    logEntry (L.take f) i = logEntry L i := by
  unfold logEntry
  rw [List.getD_eq_getElem?_getD, List.getD_eq_getElem?_getD, List.map_take,
    List.getElem?_take_of_lt hi]

@[simp] theorem length_mmrNode (L : List Digest) (h s : ℕ) : (mmrNode H L h s).length = 32 := by
  cases h with
  | zero => exact H.length_digest _
  | succ h => exact H.length_digest _

theorem mmrNode_succ (L : List Digest) (h s : ℕ) :
    mmrNode H L (h + 1) s = H.digest
      (interiorInput (mmrNode H L h s) (mmrNode H L h (s + 2 ^ h)) (pos (h + 1) s)) := rfl

/-- A node of a shorter log is one of the log. -/
theorem mmrNode_take {L : List Digest} {f h s : ℕ} (hle : s + 2 ^ h ≤ f) :
    mmrNode H (L.take f) h s = mmrNode H L h s :=
  node_congr _ _ _ fun _ _ hi => logEntry_take (by omega)

/-- The code computes the node, wherever its position can be written. -/
theorem nodeHash_eq {L : List Digest} {h s : ℕ} (hs : 2 ^ h ∣ s) (hle : s + 2 ^ h ≤ L.length)
    (hpos : pos h s + 1 < 2 ^ 64) : nodeHash H L h s = some (mmrNode H L h s) := by
  induction h generalizing s with
  | zero =>
      exact leafHash_eq_some_iff.mpr ⟨length_logEntry (by simpa using hle), rfl⟩
  | succ h ih =>
      have hpow : 2 ^ (h + 1) = 2 * 2 ^ h := pow_succ' 2 h
      have hleft := pos_left h s
      have hright := pos_right hs
      unfold nodeHash
      rw [ih (dvd_left hs) (by omega) (by omega), ih (dvd_right hs) (by omega) (by omega)]
      exact interiorHash_eq_some_iff.mpr ⟨length_mmrNode L h s, length_mmrNode L h _, hpos, rfl⟩

/-- What the code computes for a node is its value, and an inner node's position can be written. -/
theorem eq_mmrNode_of_nodeHash {L : List Digest} {h s : ℕ} {x : Octets}
    (hx : nodeHash H L h s = some x) : x = mmrNode H L h s ∧ (h ≠ 0 → pos h s + 1 < 2 ^ 64) := by
  induction h generalizing s x with
  | zero =>
      exact ⟨(leafHash_eq_some_iff.mp hx).2, fun h => absurd rfl h⟩
  | succ h ih =>
      unfold nodeHash at hx
      obtain ⟨l, hl, hx⟩ := Option.bind_eq_some_iff.mp hx
      obtain ⟨r, hr, hx⟩ := Option.bind_eq_some_iff.mp hx
      obtain ⟨-, -, hpos, rfl⟩ := interiorHash_eq_some_iff.mp hx
      rw [(ih hl).1, (ih hr).1]
      exact ⟨rfl, fun _ => hpos⟩

/-! ## The root of a log -/

theorem length_of_mem_peakHashes {L : List Digest} {p : Octets} (hp : p ∈ peakHashes H L) :
    p.length = 32 := by
  obtain ⟨q, -, rfl⟩ := List.mem_map.mp hp
  exact length_mmrNode L q.1 q.2

/-- The root of a log the code can compute. -/
theorem mmrRoot_eq {L : List Digest} (h : nodeCount L.length < 2 ^ 64) :
    mmrRoot H L = some (bagged H (peakHashes H L)) := by
  have hnodes : (mountains L.length).mapM (fun p => nodeHash H L p.1 p.2) = some (peakHashes H L) := by
    unfold peakHashes
    rw [Octets.mapM_eq_some_iff, List.map_map]
    apply List.map_congr_left
    intro p hp
    obtain ⟨hdvd, hle, -⟩ := mem_mountains hp
    have hpos := pos_lt_nodeCount hp
    exact nodeHash_eq (dvd_left hdvd) hle (by omega)
  unfold mmrRoot
  rw [hnodes]
  exact rootFromPeaks_eq fun p hp => length_of_mem_peakHashes hp

theorem bagged_of_mmrRoot {L : List Digest} {root : Octets} (h : mmrRoot H L = some root) :
    root = bagged H (peakHashes H L) := by
  obtain ⟨ps, hps, hroot⟩ := Option.bind_eq_some_iff.mp h
  have hps' : ps = peakHashes H L :=
    Octets.eq_map_of_mapM (fun p _ x hx => (eq_mmrNode_of_nodeHash hx).1) hps
  rw [← hps']
  exact (rootFromPeaks_eq_some_iff.mp hroot).2

end ScittCose.Cll
