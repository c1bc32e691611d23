import ScittCose.Cll.Rollback
import ScittCose.Lib.Json
import ScittCose.Lib.Utf8

/-!
# What a checkpoint's entry hash commits to (`scitt_cose/cll.py`)

`signing_body` is the JSON of every field but the signature, sorted by key; `digest` hashes it and
`ts_entry_hash` hashes the digest. Texts and integers are unbounded, and the rendering determines them
(`sameSigned_of_signingBody_eq`).
-/

namespace ScittCose.Cll

/-- The dictionary of `signing_body`. -/
def Checkpoint.body (checkpoint : Checkpoint) : List (String × Json.Value) :=
  [("v", .int checkpoint.v), ("kind", .str checkpoint.kind), ("log_id", .str checkpoint.logId),
    ("mmr_size", .int checkpoint.mmrSize), ("root", .str checkpoint.root),
    ("prev_size", .int checkpoint.prevSize), ("prev_root", .str checkpoint.prevRoot),
    ("key_id", .str checkpoint.keyId), ("timestamp", .str checkpoint.timestamp)]

/-- `signing_body` -/
def Checkpoint.signingBody (checkpoint : Checkpoint) : String :=
  String.ofList (Json.object (Json.sortKeys checkpoint.body))

section Source

variable (H : Hash)

/-- `digest` -/
def Checkpoint.digest (checkpoint : Checkpoint) : String :=
  Octets.toHex (H.digest (Utf8.encode checkpoint.signingBody))

/-- `ts_entry_hash`; `none` is an exception. -/
def Checkpoint.tsEntryHash (checkpoint : Checkpoint) : Option String := do
  let digest ← Octets.fromHex (checkpoint.digest H)
  return Octets.toHex (H.digest digest)

/-- What `ts_entry_hash` hashes. -/
def Checkpoint.tsEntryHashInputs (checkpoint : Checkpoint) : List Octets :=
  [Utf8.encode checkpoint.signingBody, H.digest (Utf8.encode checkpoint.signingBody)]

end Source

/-- Two checkpoints agree on every field but the signature. -/
def Checkpoint.SameSigned (a b : Checkpoint) : Prop :=
  a.v = b.v ∧ a.kind = b.kind ∧ a.logId = b.logId ∧ a.mmrSize = b.mmrSize ∧ a.root = b.root ∧
    a.prevSize = b.prevSize ∧ a.prevRoot = b.prevRoot ∧ a.keyId = b.keyId ∧ a.timestamp = b.timestamp

theorem sortKeys_body (checkpoint : Checkpoint) :
    Json.sortKeys checkpoint.body =
      [("key_id", .str checkpoint.keyId), ("kind", .str checkpoint.kind),
        ("log_id", .str checkpoint.logId), ("mmr_size", .int checkpoint.mmrSize),
        ("prev_root", .str checkpoint.prevRoot), ("prev_size", .int checkpoint.prevSize),
        ("root", .str checkpoint.root), ("timestamp", .str checkpoint.timestamp),
        ("v", .int checkpoint.v)] := by
  simp [Json.sortKeys, Checkpoint.body]

/-- A signing body determines the fields it signs. -/
theorem sameSigned_of_signingBody_eq {a b : Checkpoint} (h : a.signingBody = b.signingBody) :
    a.SameSigned b := by
  have hfields := Json.object_injective (String.ofList_injective h)
  rw [sortKeys_body, sortKeys_body] at hfields
  simp only [List.cons.injEq, Prod.mk.injEq, Json.Value.str.injEq, Json.Value.int.injEq, true_and,
    and_true] at hfields
  obtain ⟨hkey, hkind, hlog, hsize, hprevRoot, hprevSize, hroot, htime, hv⟩ := hfields
  exact ⟨hv, hkind, hlog, hsize, hroot, hprevSize, hprevRoot, hkey, htime⟩

theorem tsEntryHash_eq (H : Hash) (checkpoint : Checkpoint) :
    checkpoint.tsEntryHash H =
      some (Octets.toHex (H.digest (H.digest (Utf8.encode checkpoint.signingBody)))) := by
  unfold Checkpoint.tsEntryHash Checkpoint.digest
  rw [Octets.fromHex_toHex]
  rfl

/-- An entry hash commits to every signed field: equal signing bodies, and equal entry hashes but for a
collision, are of checkpoints that agree on them. -/
theorem tsEntryHash_commits (H : Hash) (a b : Checkpoint) :
    (a.signingBody = b.signingBody → a.SameSigned b) ∧
      (a.tsEntryHash H = b.tsEntryHash H →
        a.SameSigned b ∨ H.Collision (a.tsEntryHashInputs H ++ b.tsEntryHashInputs H)) := by
  refine ⟨sameSigned_of_signingBody_eq, fun h => or_iff_not_imp_right.mpr fun hno => ?_⟩
  rw [tsEntryHash_eq, tsEntryHash_eq, Option.some.injEq, Octets.toHex_inj] at h
  have hdigest := Hash.eq_of_digest_eq hno (by simp [Checkpoint.tsEntryHashInputs])
    (by simp [Checkpoint.tsEntryHashInputs]) h
  have hbody := Hash.eq_of_digest_eq hno (by simp [Checkpoint.tsEntryHashInputs])
    (by simp [Checkpoint.tsEntryHashInputs]) hdigest
  exact sameSigned_of_signingBody_eq (Utf8.encode_injective hbody)

/-- A checkpoint and its copy under another signature. -/
theorem tsEntryHash_commits_resigned :
    (checkpointAt Hash.sha256 sampleLog 2).SameSigned
      { checkpointAt Hash.sha256 sampleLog 2 with signature := "resigned" } :=
  (tsEntryHash_commits Hash.sha256 _ _).1 rfl

end ScittCose.Cll
