import ScittCose.Cll.Verify

/-!
# Checkpoints (`scitt_cose/cll.py`)

A checkpoint commits to the root of a log at a size. `verify_checkpoint_chain` checks that a newer one
extends an older one, `verify_range_against_checkpoint` that records are under one. Both always return a
result; an error keeps the values its text is made of.
-/

namespace ScittCose.Cll

/-- `Checkpoint` -/
structure Checkpoint where
  v : ℤ
  kind : String
  logId : String
  mmrSize : ℤ
  root : String
  prevSize : ℤ
  prevRoot : String
  keyId : String
  timestamp : String
  signature : String

/-- `root_bytes` -/
def Checkpoint.rootBytes (checkpoint : Checkpoint) : Option Octets := Octets.fromHex checkpoint.root

/-- `witness_status_line` -/
def witnessStatusLine (mmrSize : ℤ) (timestamp : String) (currentSize : Option ℤ) : String :=
  let line := s!"witnessed up to size {mmrSize} at time {timestamp}"
  match currentSize with
  | none => line
  | some current =>
    if mmrSize < current then
      let lag := current - mmrSize
      let ending := if lag = 1 then "y" else "ies"
      line ++ s!" -- {lag} more entr{ending} appended since, not yet witnessed"
    else line

/-- The errors of the two functions. -/
inductive CheckpointError where
  | logIdMismatch (older newer : String)
  | rollback (newer older : ℤ)
  | rootNotHex
  | notLinked (older newer : ℤ)
  | rangeNotVerified (fromSeq toSeq size : ℤ)
deriving DecidableEq

/-- `ConsistencyVerification` -/
structure ConsistencyVerification where
  ok : Bool
  status : String
  errors : List CheckpointError

/-- `RangeVerification` -/
structure RangeVerification where
  ok : Bool
  status : String
  scopeNote : String
  errors : List CheckpointError

section Source

variable (H : Hash)

/-- `verify_checkpoint_chain` -/
def verifyCheckpointChain (older newer : Checkpoint) (proof : ConsistencyProof)
    (currentSize : Option ℤ) : ConsistencyVerification :=
  if older.logId ≠ newer.logId then ⟨false, "", [.logIdMismatch older.logId newer.logId]⟩
  else if newer.mmrSize < older.mmrSize then ⟨false, "", [.rollback newer.mmrSize older.mmrSize]⟩
  else match older.rootBytes, newer.rootBytes with
    | some rootA, some rootB =>
      let ok := verifyConsistency H rootA older.mmrSize rootB newer.mmrSize proof
      ⟨ok, witnessStatusLine newer.mmrSize newer.timestamp currentSize,
        if ok then [] else [.notLinked older.mmrSize newer.mmrSize]⟩
    | _, _ => ⟨false, "", [.rootNotHex]⟩

/-- `verify_range_against_checkpoint` -/
def verifyRangeAgainstCheckpoint (fromSeq toSeq : ℤ) (bodyDigests : List Octets)
    (checkpoint : Checkpoint) (proof : RangeProof) (currentSize : Option ℤ) : RangeVerification :=
  match checkpoint.rootBytes with
  | none => ⟨false, "", "", [.rootNotHex]⟩
  | some root =>
    let ok := verifyRange H root fromSeq toSeq bodyDigests proof
    ⟨ok, witnessStatusLine checkpoint.mmrSize checkpoint.timestamp currentSize,
      s!"records {fromSeq}–{toSeq} are present, unaltered, and bound to this checkpoint -- this does not show that no other records exist (range-intact != all-traffic)",
      if ok then [] else [.rangeNotVerified fromSeq toSeq checkpoint.mmrSize]⟩

end Source

variable {H : Hash}

/-- An accepted pair: one log, sizes in order, and a consistency proof between the roots. -/
theorem verifyCheckpointChain_ok_iff {older newer : Checkpoint} {proof : ConsistencyProof}
    {currentSize : Option ℤ} :
    (verifyCheckpointChain H older newer proof currentSize).ok = true ↔
      older.logId = newer.logId ∧ older.mmrSize ≤ newer.mmrSize ∧
      ∃ rootA rootB, older.rootBytes = some rootA ∧ newer.rootBytes = some rootB ∧
        verifyConsistency H rootA older.mmrSize rootB newer.mmrSize proof = true := by
  unfold verifyCheckpointChain
  split_ifs with hlog hsize
  · simp [hlog]
  · simp [hsize]
  · rcases hA : older.rootBytes with _ | rootA
    · simp
    · rcases hB : newer.rootBytes with _ | rootB
      · simp
      · simp [not_not.mp hlog, not_lt.mp hsize]

theorem verifyRangeAgainstCheckpoint_ok_iff {fromSeq toSeq : ℤ} {bodyDigests : List Octets}
    {checkpoint : Checkpoint} {proof : RangeProof} {currentSize : Option ℤ} :
    (verifyRangeAgainstCheckpoint H fromSeq toSeq bodyDigests checkpoint proof currentSize).ok = true ↔
      ∃ root, checkpoint.rootBytes = some root ∧
        verifyRange H root fromSeq toSeq bodyDigests proof = true := by
  unfold verifyRangeAgainstCheckpoint
  rcases checkpoint.rootBytes with _ | root
  · simp
  · simp

end ScittCose.Cll
