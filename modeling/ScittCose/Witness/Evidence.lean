import ScittCose.Lib.Attempt
import ScittCose.Witness.Directory

/-!
# Witness evidence in a bundle (`checkWitnessEvidence` in `viewer/src/witness.js`)

A bundle carries receipts for its own checkpoint, or a chain: its checkpoint, or an earlier one of the same log,
is a leaf of a tree whose root is an entry of a cadence log, and the receipts are for the checkpoint of that log.
An `Attempt` that is refused is a chain that fails, for a reason; an exception leaves the function.

A rung is claimed only for receipts verified under the reader's list, over a checkpoint that is bound to that of
the bundle (`witnessed_of_rung`).
-/

namespace ScittCose.Witness

open Cbor Json
open Pages (truthy orElse strOf intOf itemsOf)

/-- `rung` -/
inductive Rung where
  | witnessed
  | witnessedInPart
deriving DecidableEq

/-- What is shown of the checkpoint; of one that verifies its log, size and key too. -/
structure CheckpointCheck where
  status : EvidenceStatus
  reason : String
  shown : Option (String × ℤ × String) := none

/-- What `checkWitnessEvidence` returns; `steps` are those witnessed, and all. -/
structure Evidence where
  checkpoint : CheckpointCheck
  rung : Option Rung := none
  chain : Option (EvidenceStatus × String) := none
  receipts : List ReceiptCheck := []
  status : EvidenceStatus
  steps : Option (ℤ × ℤ) := none

section Source

variable (P : Page)

/-- `CADENCE_EXTENSIONS` -/
def cadenceExtensions : List String := ["x-cadence-witness/v0", "cadence-witness/v0", "x-deal-cadence-v0"]

/-- `CADENCE_DEPTH` -/
def cadenceDepth : ℕ := 16

/-- A member that is an object, or an empty one where it is not true in a condition. -/
def memberOrEmpty (t : Tree) (key : String) : Tree := orElse (t.member? key) (.obj [])

/-- The octets of a signed checkpoint, from a value that carries them. -/
def coseOf (t : Tree) : Option Octets :=
  (strOf ((memberOrEmpty t "checkpoint").member? "cose")).bind fun s => b64Decode s true

/-- The consistency proof of a chain, as the verifier of the log takes it. -/
def chainConsistency (p : Tree) : Option Cll.ConsistencyProof := do
  let v ← intOf (p.member? "v")
  let kind ← strOf (p.member? "kind")
  let sizeA ← intOf (asInt (p.member? "old_size"))
  let sizeB ← intOf (asInt (p.member? "new_size"))
  let oldPeaks ← itemsOf strOf (p.member? "old_peaks")
  let witness ← itemsOf (itemsOf strOf) (p.member? "witness")
  let newPeaks ← itemsOf strOf (p.member? "new_peaks")
  return ⟨v, kind, sizeA, sizeB, oldPeaks, witness, newPeaks⟩

/-- The inclusion proof of a chain, as the verifier of the log takes it. -/
def chainInclusion (p : Tree) : Option Cll.InclusionProof := do
  let v ← intOf (p.member? "v")
  let kind ← strOf (p.member? "kind")
  let size ← intOf (asInt (p.member? "size"))
  let leafIndex ← intOf (asInt (p.member? "leaf_index"))
  let witness ← itemsOf strOf (p.member? "witness")
  let peaksLeft ← itemsOf strOf (p.member? "peaks_left")
  let peaksRight ← itemsOf strOf (p.member? "peaks_right")
  return ⟨v, kind, size, leafIndex, witness, peaksLeft, peaksRight⟩

/-- `verifyCheckpoint` within a chain. -/
def verifyWithin (what : String) (cose : Octets) : Attempt VerifiedCheckpoint :=
  match verifyCheckpoint P cose with
  | .ok cp => pure cp
  | .error reason => throw (what ++ " does not verify: " ++ reason)

/-- The checkpoint a chain is about, with its octets: that of the bundle, or an earlier one of its log. -/
def leafCheckpoint (chain : Tree) (cp : VerifiedCheckpoint) (cose : Octets) :
    Attempt (VerifiedCheckpoint × Octets) :=
  if strOf (chain.member? "extent") = some "part" then do
    let earlier := memberOrEmpty chain "earlier"
    let leafCose ← Attempt.orRefuse (coseOf earlier) "the earlier checkpoint is malformed"
    let prior ← verifyWithin P "the earlier checkpoint" leafCose
    Attempt.ensure (prior.kid = cp.kid ∧ prior.logId = cp.logId ∧ prior.size < cp.size)
      "the earlier checkpoint is not an earlier checkpoint of this log, signed by the same key"
    Attempt.ensure ((chainConsistency (memberOrEmpty earlier "consistency_proof")).any
        (MmrJs.verifyConsistency P.hash prior.root prior.size cp.root cp.size))
      "the bundle's checkpoint does not extend the earlier one"
    return (prior, leafCose)
  else return (cp, cose)

/-- `cadenceLeaf`; the keys are in order. -/
def cadenceLeaf (logId : String) (size : ℤ) (checkpointSha256 salt : String) : Option Octets := do
  let body ← canonicalJson (.obj [("checkpoint_sha256", .str checkpointSha256), ("log_id", .str logId),
    ("salt", .str salt), ("size", .int size)])
  return P.hash.digest (0 :: Utf8.encode body)

/-- One level of the path of a chain, from the leaf up. -/
def cadenceLevel (index : ℕ) (node : Octets) (level : Tree × ℕ) : Attempt Octets := do
  let sib ← Attempt.orRaise ((strOf (some level.1)).bind MmrJs.hexToBytes)
  Attempt.ensure (sib.length = 32) "the chain is malformed"
  return P.hash.digest (1 :: if index.testBit level.2 then sib ++ node else node ++ sib)

/-- The root of the tree a chain puts a checkpoint in. -/
def cadenceRoot (chain : Tree) (leafCp : VerifiedCheckpoint) (leafCose : Octets) : Attempt Octets := do
  let size := asInt (chain.member? "size")
  let index := intOf (asInt (chain.member? "index"))
  let logId := strOf ((chain.member? "log_id").or (chain.member? "deal_log_id"))
  Attempt.ensure (logId = some leafCp.logId ∧ intOf size = some leafCp.size)
    "the chain does not name this checkpoint"
  let index ← Attempt.orRefuse (index.filter fun n => decide (0 ≤ n ∧ n < 2 ^ cadenceDepth)) "the chain is malformed"
  let salt ← Attempt.orRefuse ((strOf (chain.member? "salt")).filter fun s => s != "") "the chain is malformed"
  let path := itemsAt chain "path"
  Attempt.ensure (path.length = cadenceDepth) "the chain is malformed"
  let leaf ← Attempt.orRaise
    (cadenceLeaf P leafCp.logId leafCp.size (Octets.toHex (P.hash.digest leafCose)) salt)
  path.zipIdx.foldlM (cadenceLevel P index.toNat) leaf

/-- The checkpoint of the cadence log, which has the root as an entry. -/
def cadenceCheckpoint (chain : Tree) (cp : VerifiedCheckpoint) (node : Octets) : Attempt VerifiedCheckpoint := do
  let inner := memberOrEmpty chain "cadence"
  let cadenceCose ← Attempt.orRefuse (coseOf inner) "the cadence checkpoint is malformed"
  let cadence ← verifyWithin P "the cadence checkpoint" cadenceCose
  Attempt.ensure (cadence.kid = cp.kid) "the cadence checkpoint is signed by a different key"
  Attempt.ensure (strOf (inner.member? "log_id") = some cadence.logId)
    "the cadence log id does not match its checkpoint"
  let leafIndex := intOf (asInt (inner.member? "entry_index"))
  let proof := chainInclusion (memberOrEmpty inner "inclusion_proof")
  Attempt.ensure (leafIndex.any fun leafIndex => proof.any
      (MmrJs.verifyInclusion P.hash cadence.root cadence.size leafIndex (Octets.toHex node)))
    "the cadence entry is not included in the cadence checkpoint"
  return cadence

/-- The checkpoint a chain is about, and that of the cadence log it is an entry of. -/
def readChain (chain : Tree) (cp : VerifiedCheckpoint) (cose : Octets) :
    Attempt (VerifiedCheckpoint × VerifiedCheckpoint) := do
  let leaf ← leafCheckpoint P chain cp cose
  let node ← cadenceRoot P chain leaf.1 leaf.2
  let cadence ← cadenceCheckpoint P chain cp node
  return (leaf.1, cadence)

/-- The rung of a chain whose receipts pass, with the steps witnessed when it is for a part. -/
def chainRung (chain : Tree) (leafCp cp : VerifiedCheckpoint) : Option (Rung × Option (ℤ × ℤ)) :=
  if strOf (chain.member? "extent") = some "part" then do
    let stepsWitnessed ← MmrJs.leafCountFromSize leafCp.size
    let steps ← MmrJs.leafCountFromSize cp.size
    return (.witnessedInPart, some (stepsWitnessed, steps))
  else return (.witnessed, none)

/-- `checkCadence` -/
def checkCadence (out : Evidence) (chain : Tree) (cp : VerifiedCheckpoint) (cose : Octets)
    (list : Option (List Tree)) : Option Evidence := do
  match ← (readChain P chain cp cose).run with
  | .error reason => return { out with chain := some (.fail, reason), status := .fail }
  | .ok (leafCp, cadence) =>
    let receipts ← checkReceipts P cadence ((memberOrEmpty chain "cadence").member? "witnesses") list
    let out := { out with
      chain := some (.pass, "the checkpoint is a leaf of a cadence entry included in the cadence checkpoint")
      receipts
      status := if receipts = [] then .withheld else overall receipts }
    if out.status = .pass then do
      let rung ← chainRung chain leafCp cp
      return { out with rung := some rung.1, steps := rung.2 }
    else return out

/-- A member of the bundle's copy of its checkpoint, when it differs from what is signed. -/
def differs (stated : Tree) (key signed : String) : Option Bool :=
  match stated.member? key with
  | none => some false
  | some value => (P.js.text value).map fun text => text ≠ signed

/-- `mismatch` -/
def mismatch (stated : Tree) (cp : VerifiedCheckpoint) : Option (Option String) := do
  if ← differs P stated "log_id" cp.logId then return some "log_id"
  if ← differs P stated "mmr_size" (P.js.intText cp.size) then return some "mmr_size"
  if ← differs P stated "root" cp.root then return some "root"
  return none

/-- The chain of a bundle: the first of the extensions it carries. -/
def chainOf (bundle : Tree) : Option Tree :=
  let exts := memberOrEmpty bundle "extensions"
  cadenceExtensions.findSome? fun name =>
    match exts.member? name with
    | some (.obj fields) => some (.obj fields)
    | some (.arr items) => some (.arr items)
    | _ => none

/-- The text of the bundle's signed checkpoint. -/
def statedCose (bundle : Tree) : Option String :=
  strOf ((bundle.member? "checkpoint").bind fun stated => stated.member? "cose")

/-- The evidence of a checkpoint that fails. -/
def failed (reason : String) : Evidence := { checkpoint := ⟨.fail, reason, none⟩, status := .fail }

/-- The evidence a bundle carries for its verified checkpoint. -/
def checkCarried (bundle stated : Tree) (cp : VerifiedCheckpoint) (cose : Octets) (list : Option (List Tree)) :
    Option Evidence :=
  let out : Evidence :=
    { checkpoint := ⟨.pass, "signature verifies under the key the checkpoint names",
        some (cp.logId, cp.size, cp.kid)⟩
      status := .absent }
  match (chainOf bundle).filter fun chain => strOf (chain.member? "state") = some "witnessed" with
  | some chain => checkCadence P out chain cp cose list
  | none =>
    let direct := itemsAt stated "witnesses"
    if direct = [] then some out
    else do
      let receipts ← checkReceipts P cp (some (.arr direct)) list
      let status := overall receipts
      return { out with receipts, status, rung := if status = .pass then some .witnessed else none }

/-- `checkWitnessEvidence`; `none` is an exception. -/
def checkWitnessEvidence (bundle : Tree) (list : Option (List Tree)) : Option Evidence :=
  match statedCose bundle with
  | none =>
    some { checkpoint := ⟨.withheld, "the bundle carries no signed checkpoint", none⟩, status := .absent }
  | some text =>
    match b64Decode text true with
    | none => some (failed "the signed checkpoint is not base64url")
    | some cose =>
      match verifyCheckpoint P cose with
      | .error reason => some (failed reason)
      | .ok cp => do
        let stated := (bundle.member? "checkpoint").getD .null
        match ← mismatch P stated cp with
        | some key => return failed ("the bundle's copy of " ++ key ++ " differs from the signed checkpoint")
        | none => checkCarried P bundle stated cp cose list

end Source

/-! ## What a rung shows -/

/-- A checkpoint is a leaf of a tree of sixteen levels whose root is an entry of a cadence log. -/
def InCadence (P : Page) (leafCp : VerifiedCheckpoint) (leafCose : Octets) (cadence : VerifiedCheckpoint) : Prop :=
  ∃ (salt : String) (index : ℕ) (path : List Tree) (leaf node : Octets) (leafIndex : ℤ)
    (proof : Cll.InclusionProof),
    cadenceLeaf P leafCp.logId leafCp.size (Octets.toHex (P.hash.digest leafCose)) salt = some leaf ∧
    path.length = cadenceDepth ∧ index < 2 ^ cadenceDepth ∧
    (path.zipIdx.foldlM (cadenceLevel P index) leaf).Gives node ∧
    MmrJs.verifyInclusion P.hash cadence.root cadence.size leafIndex (Octets.toHex node) proof = true

/-- A checkpoint is shown to extend a smaller one of its log, signed by the same key. -/
structure ExtendsEarlier (P : Page) (cp leafCp : VerifiedCheckpoint) : Prop where
  kid_eq : leafCp.kid = cp.kid
  logId_eq : leafCp.logId = cp.logId
  size_lt : leafCp.size < cp.size
  consistent : ∃ proof, MmrJs.verifyConsistency P.hash leafCp.root leafCp.size cp.root cp.size proof = true

/-- The checkpoint a chain is about: that of the bundle, or for a part an earlier one that it extends. -/
structure LeafOf (P : Page) (chain : Tree) (cp : VerifiedCheckpoint) (cose : Octets) (leafCp : VerifiedCheckpoint)
    (leafCose : Octets) : Prop where
  verified : verifyCheckpoint P leafCose = .ok leafCp
  whole : ¬ strOf (chain.member? "extent") = some "part" → leafCp = cp ∧ leafCose = cose
  part : strOf (chain.member? "extent") = some "part" → ExtendsEarlier P cp leafCp

/-- What a chain shows: its checkpoint is in the tree of a cadence log that is signed by the same key. -/
structure Chained (P : Page) (chain : Tree) (cp : VerifiedCheckpoint) (cose : Octets)
    (leafCp cadence : VerifiedCheckpoint) : Prop where
  leaf : ∃ leafCose, LeafOf P chain cp cose leafCp leafCose ∧ InCadence P leafCp leafCose cadence
  cadence_verified : ∃ cadenceCose, verifyCheckpoint P cadenceCose = .ok cadence
  kid_eq : cadence.kid = cp.kid

/-- What stands behind a rung: receipts for the bundle's checkpoint, or for a cadence checkpoint that has it, or an
earlier one of its log, as a leaf. -/
inductive Witnessed (P : Page) (cp : VerifiedCheckpoint) (cose : Octets) (rows : List Tree) (out : Evidence) :
    Rung → Prop where
  | direct {entries : Option Tree} (hreceipts : Registered P cp entries rows out.receipts) :
      Witnessed P cp cose rows out .witnessed
  | whole {chain : Tree} {cadence : VerifiedCheckpoint} {entries : Option Tree}
      (hchain : Chained P chain cp cose cp cadence)
      (hreceipts : Registered P cadence entries rows out.receipts) :
      Witnessed P cp cose rows out .witnessed
  | part {chain : Tree} {leafCp cadence : VerifiedCheckpoint} {entries : Option Tree} {stepsWitnessed steps : ℤ}
      (hchain : Chained P chain cp cose leafCp cadence) (hearlier : ExtendsEarlier P cp leafCp)
      (hreceipts : Registered P cadence entries rows out.receipts)
      (hwitnessed : MmrJs.leafCountFromSize leafCp.size = some stepsWitnessed)
      (hall : MmrJs.leafCountFromSize cp.size = some steps) (hsteps : out.steps = some (stepsWitnessed, steps)) :
      Witnessed P cp cose rows out .witnessedInPart

variable {P : Page}

theorem coseOf_eq {t : Tree} {text : String}
    (h : strOf ((memberOrEmpty t "checkpoint").member? "cose") = some text) : coseOf t = b64Decode text true := by
  rw [coseOf, h, Option.bind_some]

theorem verifyWithin_gives {what : String} {cose : Octets} {cp : VerifiedCheckpoint}
    (h : (verifyWithin P what cose).Gives cp) : verifyCheckpoint P cose = .ok cp := by
  unfold verifyWithin at h
  cases hcheck : verifyCheckpoint P cose with
  | error reason => rw [hcheck] at h; cases h
  | ok found =>
      rw [hcheck] at h
      rw [Attempt.pure_gives_iff.mp h]

theorem leafCheckpoint_gives {chain : Tree} {cp : VerifiedCheckpoint} {cose : Octets}
    {leaf : VerifiedCheckpoint × Octets} (hcp : verifyCheckpoint P cose = .ok cp)
    (h : (leafCheckpoint P chain cp cose).Gives leaf) : LeafOf P chain cp cose leaf.1 leaf.2 := by
  unfold leafCheckpoint at h
  split_ifs at h with hpart
  · rw [Attempt.orRefuse_bind_gives_iff] at h
    obtain ⟨leafCose, -, h⟩ := h
    obtain ⟨prior, hprior, h⟩ := Attempt.bind_gives_iff.mp h
    rw [Attempt.ensure_bind_gives_iff, Attempt.ensure_bind_gives_iff, Attempt.pure_gives_iff] at h
    obtain ⟨⟨hkid, hlog, hsize⟩, hconsistent, rfl⟩ := h
    obtain ⟨proof, -, hproof⟩ := (Option.any_eq_true _ _).mp hconsistent
    exact ⟨verifyWithin_gives hprior, fun hnot => absurd hpart hnot, fun _ => ⟨hkid, hlog, hsize, proof, hproof⟩⟩
  · obtain rfl := Attempt.pure_gives_iff.mp h
    exact ⟨hcp, fun _ => ⟨rfl, rfl⟩, fun hnot => absurd hnot hpart⟩

/-- The root is that of a tree of sixteen levels over the leaf of the checkpoint, which the chain names. -/
theorem cadenceRoot_gives {chain : Tree} {leafCp : VerifiedCheckpoint} {leafCose node : Octets}
    (h : (cadenceRoot P chain leafCp leafCose).Gives node) :
    ∃ (salt : String) (index : ℕ) (path : List Tree) (leaf : Octets),
      cadenceLeaf P leafCp.logId leafCp.size (Octets.toHex (P.hash.digest leafCose)) salt = some leaf ∧
      path.length = cadenceDepth ∧ index < 2 ^ cadenceDepth ∧
      (path.zipIdx.foldlM (cadenceLevel P index) leaf).Gives node := by
  unfold cadenceRoot at h
  rw [Attempt.ensure_bind_gives_iff, Attempt.orRefuse_bind_gives_iff] at h
  obtain ⟨-, index, hindex, h⟩ := h
  rw [Attempt.orRefuse_bind_gives_iff] at h
  obtain ⟨salt, -, h⟩ := h
  rw [Attempt.ensure_bind_gives_iff, Attempt.orRaise_bind_gives_iff] at h
  obtain ⟨hlength, leaf, hleaf, h⟩ := h
  obtain ⟨-, hrange⟩ := Option.filter_eq_some_iff.mp hindex
  have hbound : 0 ≤ index ∧ index < 2 ^ cadenceDepth := of_decide_eq_true hrange
  exact ⟨salt, index.toNat, itemsAt chain "path", leaf, hleaf, hlength, by zify; omega, h⟩

theorem cadenceCheckpoint_gives {chain : Tree} {cp cadence : VerifiedCheckpoint} {node : Octets}
    (h : (cadenceCheckpoint P chain cp node).Gives cadence) :
    (∃ cadenceCose, verifyCheckpoint P cadenceCose = .ok cadence) ∧ cadence.kid = cp.kid ∧
      ∃ leafIndex proof,
        MmrJs.verifyInclusion P.hash cadence.root cadence.size leafIndex (Octets.toHex node) proof = true := by
  unfold cadenceCheckpoint at h
  rw [Attempt.orRefuse_bind_gives_iff] at h
  obtain ⟨cadenceCose, -, h⟩ := h
  obtain ⟨found, hfound, h⟩ := Attempt.bind_gives_iff.mp h
  rw [Attempt.ensure_bind_gives_iff, Attempt.ensure_bind_gives_iff, Attempt.ensure_bind_gives_iff,
    Attempt.pure_gives_iff] at h
  obtain ⟨hkid, -, hincluded, rfl⟩ := h
  obtain ⟨leafIndex, -, hincluded⟩ := (Option.any_eq_true _ _).mp hincluded
  obtain ⟨proof, -, hproof⟩ := (Option.any_eq_true _ _).mp hincluded
  exact ⟨⟨cadenceCose, verifyWithin_gives hfound⟩, hkid, leafIndex, proof, hproof⟩

theorem readChain_gives {chain : Tree} {cp : VerifiedCheckpoint} {cose : Octets}
    {found : VerifiedCheckpoint × VerifiedCheckpoint} (hcp : verifyCheckpoint P cose = .ok cp)
    (h : (readChain P chain cp cose).Gives found) : Chained P chain cp cose found.1 found.2 := by
  unfold readChain at h
  obtain ⟨leaf, hleaf, h⟩ := Attempt.bind_gives_iff.mp h
  obtain ⟨node, hnode, h⟩ := Attempt.bind_gives_iff.mp h
  obtain ⟨cadence, hcadence, h⟩ := Attempt.bind_gives_iff.mp h
  obtain rfl := Attempt.pure_gives_iff.mp h
  obtain ⟨salt, index, path, tip, htip, hlength, hindex, hfold⟩ := cadenceRoot_gives hnode
  obtain ⟨hverified, hkid, leafIndex, proof, hincluded⟩ := cadenceCheckpoint_gives hcadence
  exact ⟨⟨leaf.2, leafCheckpoint_gives hcp hleaf, salt, index, path, tip, node, leafIndex, proof, htip, hlength,
    hindex, hfold, hincluded⟩, hverified, hkid⟩

theorem gives_verifyWithin {what : String} {cose : Octets} {cp : VerifiedCheckpoint}
    (h : verifyCheckpoint P cose = .ok cp) : (verifyWithin P what cose).Gives cp := by
  rw [verifyWithin, h]
  exact Attempt.pure_gives_iff.mpr rfl

/-- A chain for a part whose earlier checkpoint is one of the log. -/
theorem gives_leafCheckpoint {chain : Tree} {cp prior : VerifiedCheckpoint} {cose leafCose : Octets}
    (hpart : strOf (chain.member? "extent") = some "part")
    (hcose : coseOf (memberOrEmpty chain "earlier") = some leafCose) (hprior : verifyCheckpoint P leafCose = .ok prior)
    (hlog : prior.kid = cp.kid ∧ prior.logId = cp.logId ∧ prior.size < cp.size)
    (hproof : (chainConsistency (memberOrEmpty (memberOrEmpty chain "earlier") "consistency_proof")).any
      (MmrJs.verifyConsistency P.hash prior.root prior.size cp.root cp.size) = true) :
    (leafCheckpoint P chain cp cose).Gives (prior, leafCose) := by
  rw [leafCheckpoint, if_pos hpart, Attempt.orRefuse_bind_gives_iff]
  refine ⟨leafCose, hcose, Attempt.bind_gives_iff.mpr ⟨prior, gives_verifyWithin hprior, ?_⟩⟩
  rw [Attempt.ensure_bind_gives_iff, Attempt.ensure_bind_gives_iff, Attempt.pure_gives_iff]
  exact ⟨hlog, hproof, rfl⟩

/-- A chain whose cadence checkpoint has the root as its entry. -/
theorem gives_cadenceCheckpoint {chain : Tree} {cp cadence : VerifiedCheckpoint}
    {node cadenceCose : Octets} (hcose : coseOf (memberOrEmpty chain "cadence") = some cadenceCose)
    (hcadence : verifyCheckpoint P cadenceCose = .ok cadence) (hkid : cadence.kid = cp.kid)
    (hlog : strOf ((memberOrEmpty chain "cadence").member? "log_id") = some cadence.logId)
    (hproof : (intOf (asInt ((memberOrEmpty chain "cadence").member? "entry_index"))).any (fun leafIndex =>
      (chainInclusion (memberOrEmpty (memberOrEmpty chain "cadence") "inclusion_proof")).any
        (MmrJs.verifyInclusion P.hash cadence.root cadence.size leafIndex (Octets.toHex node))) = true) :
    (cadenceCheckpoint P chain cp node).Gives cadence := by
  rw [cadenceCheckpoint, Attempt.orRefuse_bind_gives_iff]
  refine ⟨cadenceCose, hcose, Attempt.bind_gives_iff.mpr ⟨cadence, gives_verifyWithin hcadence, ?_⟩⟩
  rw [Attempt.ensure_bind_gives_iff, Attempt.ensure_bind_gives_iff, Attempt.ensure_bind_gives_iff,
    Attempt.pure_gives_iff]
  exact ⟨hkid, hlog, hproof, rfl⟩

theorem gives_readChain {chain : Tree} {cp cadence : VerifiedCheckpoint} {cose node : Octets}
    {leaf : VerifiedCheckpoint × Octets} (hleaf : (leafCheckpoint P chain cp cose).Gives leaf)
    (hnode : (cadenceRoot P chain leaf.1 leaf.2).Gives node)
    (hcadence : (cadenceCheckpoint P chain cp node).Gives cadence) :
    (readChain P chain cp cose).Gives (leaf.1, cadence) := by
  unfold readChain
  refine Attempt.bind_gives_iff.mpr ⟨leaf, hleaf, Attempt.bind_gives_iff.mpr ⟨node, hnode, ?_⟩⟩
  exact Attempt.bind_gives_iff.mpr ⟨cadence, hcadence, Attempt.pure_gives_iff.mpr rfl⟩

/-- The rung of a chain whose receipts pass, by whether it is for a part. -/
theorem witnessed_of_chainRung {chain : Tree} {leafCp cp cadence : VerifiedCheckpoint} {cose : Octets}
    {rows : List Tree} {entries : Option Tree} {out : Evidence} {rung : Rung} {steps : Option (ℤ × ℤ)}
    (hchain : Chained P chain cp cose leafCp cadence) (hreceipts : Registered P cadence entries rows out.receipts)
    (h : chainRung chain leafCp cp = some (rung, steps)) (hsteps : out.steps = steps) :
    Witnessed P cp cose rows out rung := by
  obtain ⟨leafCose, hleaf, -⟩ := hchain.leaf
  unfold chainRung at h
  split_ifs at h with hpart
  · obtain ⟨stepsWitnessed, hwitnessed, h⟩ := Option.bind_eq_some_iff.mp h
    obtain ⟨all, hall, h⟩ := Option.bind_eq_some_iff.mp h
    obtain ⟨rfl, rfl⟩ := Prod.mk.inj (Option.some.inj h)
    exact .part hchain (hleaf.part hpart) hreceipts hwitnessed hall hsteps
  · obtain ⟨rfl, -⟩ := Prod.mk.inj (Option.some.inj h)
    rw [(hleaf.whole hpart).1] at hchain
    exact .whole hchain hreceipts

/-- Evidence without a rung claims none. -/
theorem rung_ne_some {out out' : Evidence} {rung : Rung} (h : some out' = some out) (hnone : out'.rung = none)
    (hrung : out.rung = some rung) : False := by
  rw [← Option.some.inj h, hnone] at hrung
  cases hrung

theorem witnessed_of_checkCadence {before out : Evidence} {chain : Tree} {cp : VerifiedCheckpoint} {cose : Octets}
    {list : Option (List Tree)} {rung : Rung} (hcp : verifyCheckpoint P cose = .ok cp) (hbefore : before.rung = none)
    (h : checkCadence P before chain cp cose list = some out) (hrung : out.rung = some rung) :
    ∃ rows, list = some rows ∧ Witnessed P cp cose rows out rung := by
  unfold checkCadence at h
  obtain ⟨found, hfound, h⟩ := Option.bind_eq_some_iff.mp h
  cases found with
  | error reason => exact (rung_ne_some h hbefore hrung).elim
  | ok found =>
      obtain ⟨receipts, hreceipts, h⟩ := Option.bind_eq_some_iff.mp h
      dsimp only at h
      split_ifs at h with hempty hpass hpass
      · cases hpass
      · exact (rung_ne_some h hbefore hrung).elim
      · obtain ⟨rungs, hrungs, h⟩ := Option.bind_eq_some_iff.mp h
        obtain rfl := Option.some.inj h
        obtain rfl := Option.some.inj hrung
        obtain ⟨rows, rfl, hregistered⟩ := registered_of_overall hreceipts hpass
        exact ⟨rows, rfl, witnessed_of_chainRung (readChain_gives hcp hfound) hregistered hrungs rfl⟩
      · exact (rung_ne_some h hbefore hrung).elim

/-- A chain that is read and whose receipts pass has a rung. -/
theorem rung_checkCadence {before : Evidence} {chain : Tree} {cp leafCp cadence : VerifiedCheckpoint} {cose : Octets}
    {list : Option (List Tree)} {receipts : List ReceiptCheck} {rung : Rung × Option (ℤ × ℤ)}
    (hchain : (readChain P chain cp cose).Gives (leafCp, cadence))
    (hreceipts : checkReceipts P cadence ((memberOrEmpty chain "cadence").member? "witnesses") list = some receipts)
    (hpass : overall receipts = .pass) (hrung : chainRung chain leafCp cp = some rung) :
    (checkCadence P before chain cp cose list).bind (fun out => out.rung) = some rung.1 := by
  have hne : receipts ≠ [] := by
    rintro rfl
    cases hpass
  unfold Attempt.Gives at hchain
  rw [checkCadence, hchain, Option.bind_eq_bind, Option.bind_some]
  dsimp only
  rw [hreceipts, Option.bind_eq_bind, Option.bind_some, if_neg hne, if_pos hpass, hrung]
  rfl

theorem witnessed_of_checkCarried {bundle stated : Tree} {cp : VerifiedCheckpoint} {cose : Octets}
    {list : Option (List Tree)} {out : Evidence} {rung : Rung} (hcp : verifyCheckpoint P cose = .ok cp)
    (h : checkCarried P bundle stated cp cose list = some out) (hrung : out.rung = some rung) :
    ∃ rows, list = some rows ∧ Witnessed P cp cose rows out rung := by
  unfold checkCarried at h
  dsimp only at h
  split at h
  · exact witnessed_of_checkCadence hcp rfl h hrung
  · split_ifs at h with hdirect
    · exact (rung_ne_some h rfl hrung).elim
    · obtain ⟨receipts, hreceipts, h⟩ := Option.bind_eq_some_iff.mp h
      obtain rfl := Option.some.inj h
      dsimp only at hrung
      split_ifs at hrung with hpass
      obtain rfl := Option.some.inj hrung
      obtain ⟨rows, rfl, hregistered⟩ := registered_of_overall hreceipts hpass
      exact ⟨rows, rfl, .direct hregistered⟩

/-- The evidence of a bundle whose checkpoint verifies, and is stated as it is signed. -/
theorem checkWitnessEvidence_eq {bundle : Tree} {text : String} {cose : Octets} {cp : VerifiedCheckpoint}
    {list : Option (List Tree)} (htext : statedCose bundle = some text) (hcose : b64Decode text true = some cose)
    (hcp : verifyCheckpoint P cose = .ok cp)
    (hstated : mismatch P ((bundle.member? "checkpoint").getD .null) cp = some none) :
    checkWitnessEvidence P bundle list =
      checkCarried P bundle ((bundle.member? "checkpoint").getD .null) cp cose list := by
  rw [checkWitnessEvidence, htext]
  dsimp only
  rw [hcose]
  dsimp only
  rw [hcp]
  dsimp only
  rw [hstated]
  rfl

theorem witnessed_of_checkWitnessEvidence {bundle : Tree} {list : Option (List Tree)} {out : Evidence} {rung : Rung}
    (h : checkWitnessEvidence P bundle list = some out) (hrung : out.rung = some rung) :
    ∃ text cose cp rows, statedCose bundle = some text ∧ b64Decode text true = some cose ∧
      verifyCheckpoint P cose = .ok cp ∧ list = some rows ∧ Witnessed P cp cose rows out rung := by
  unfold checkWitnessEvidence at h
  cases htext : statedCose bundle with
  | none => rw [htext] at h; exact (rung_ne_some h rfl hrung).elim
  | some text =>
      rw [htext] at h
      dsimp only at h
      cases hcose : b64Decode text true with
      | none => rw [hcose] at h; exact (rung_ne_some h rfl hrung).elim
      | some cose =>
          rw [hcose] at h
          dsimp only at h
          cases hcp : verifyCheckpoint P cose with
          | error reason => rw [hcp] at h; exact (rung_ne_some h rfl hrung).elim
          | ok cp =>
              rw [hcp] at h
              obtain ⟨differing, -, h⟩ := Option.bind_eq_some_iff.mp h
              cases differing with
              | some key => exact (rung_ne_some h rfl hrung).elim
              | none =>
                  obtain ⟨rows, hrows, hbehind⟩ := witnessed_of_checkCarried hcp h hrung
                  exact ⟨text, cose, cp, rows, rfl, hcose, hcp, hrows, hbehind⟩

/-- A rung is claimed only over receipts that the page verified: the checkpoint of the bundle is signed, no receipt
fails, and what stands behind the rung is `Witnessed`. Without a list there is no rung. -/
theorem witnessed_of_rung {bundle : Tree} {list : Option (List Tree)} {out : Evidence}
    (h : checkWitnessEvidence P bundle list = some out) :
    (list = none → out.rung = none) ∧
      ∀ rung, out.rung = some rung → ∃ text cose cp rows, statedCose bundle = some text ∧
        b64Decode text true = some cose ∧ verifyCheckpoint P cose = .ok cp ∧ Signed P cose cp ∧
        list = some rows ∧ (∀ r ∈ out.receipts, r.status ≠ .fail) ∧ Witnessed P cp cose rows out rung := by
  refine ⟨fun hlist => ?_, fun rung hrung => ?_⟩
  · by_contra hsome
    obtain ⟨rung, hrung⟩ := Option.ne_none_iff_exists'.mp hsome
    obtain ⟨-, -, -, rows, -, -, -, hrows, -⟩ := witnessed_of_checkWitnessEvidence h hrung
    rw [hlist] at hrows
    cases hrows
  · obtain ⟨text, cose, cp, rows, htext, hcose, hcp, hrows, hbehind⟩ := witnessed_of_checkWitnessEvidence h hrung
    have hnone : ∀ r ∈ out.receipts, r.status ≠ .fail := by
      cases hbehind with
      | direct hreceipts => exact hreceipts.none_fails
      | whole _ hreceipts => exact hreceipts.none_fails
      | part _ _ hreceipts => exact hreceipts.none_fails
    exact ⟨text, cose, cp, rows, htext, hcose, hcp, signed_of_verifyCheckpoint hcp, hrows, hnone, hbehind⟩

/-! ### A bundle with a receipt -/

/-- The key of the sample's checkpoint. -/
def sampleKey : Octets := Octets.ofNat 32 0xab8ab7a193086949438f42f9d3d26f6baa68c5575992e7fd2d4590bc8bfcb18c

/-- The key of the sample's witness. -/
def sampleWitnessKey : Octets :=
  Octets.ofNat 32 0xd83ea50be900420696ed725768b0ed5cec150e11eeacebd61a1811e65e292f2a

/-- The two signatures of the sample, by their keys and the hashes of what they sign. -/
def sampleSignatures : List (Octets × Octets × Octets) :=
  [(sampleKey, Octets.ofNat 32 0x762af16cde16c954538ca6a7de4d0fd40ea232eef91ee7504d4bace7d4dd4b1a,
    Octets.ofNat 64
      0xe79c0c9d3312ba51cb9181591a8d58fb092bb6139cf58c4f8d0fd7531ba17845235671913596d0a18f58b1bfd7460d8a0ecd2a4570eacc1eb3d3dedb4da36003),
   (sampleWitnessKey, Octets.ofNat 32 0xa905563058a5cd8bc89ab479f1d5168cbe3ff6399c7dde7648d9b0f0e95ab514,
    Octets.ofNat 64
      0x357a6101a19638d3d46b3ab124b3e65d864f0cbd0aff99d74a9536e9e2aaa682403b172d50631a092a6a76196209b4a6d9a90a0f1f14b7814e5c5e42fc148406)]

/-- SHA-256, reference CBOR, and the keys and signatures of the sample. -/
def samplePage : Page where
  hash := Hash.sha256
  cborg := .reference
  ed25519Verify key32 m signature := sampleSignatures.contains (key32, Hash.sha256.digest m, signature)
  js := { intText := toString, floatText := fun _ => "", objectText := fun _ => none, head8 := id }
  hexOfValue _ := none
  doubleOf n := n

/-- The signed checkpoint of the sample. -/
def sampleCose : Octets := [
  0xd2, 0x84, 0x58, 0x60, 0xa4, 0x01, 0x27, 0x03, 0x78, 0x1f, 0x61, 0x70, 0x70, 0x6c, 0x69, 0x63, 0x61,
  0x74, 0x69, 0x6f, 0x6e, 0x2f, 0x63, 0x6c, 0x6c, 0x2d, 0x63, 0x68, 0x65, 0x63, 0x6b, 0x70, 0x6f, 0x69,
  0x6e, 0x74, 0x2b, 0x63, 0x62, 0x6f, 0x72, 0x04, 0x58, 0x20, 0xab, 0x8a, 0xb7, 0xa1, 0x93, 0x08, 0x69,
  0x49, 0x43, 0x8f, 0x42, 0xf9, 0xd3, 0xd2, 0x6f, 0x6b, 0xaa, 0x68, 0xc5, 0x57, 0x59, 0x92, 0xe7, 0xfd,
  0x2d, 0x45, 0x90, 0xbc, 0x8b, 0xfc, 0xb1, 0x8c, 0x0f, 0xa2, 0x01, 0x68, 0x74, 0x65, 0x73, 0x74, 0x2d,
  0x6c, 0x6f, 0x67, 0x02, 0x6a, 0x74, 0x65, 0x73, 0x74, 0x2d, 0x6c, 0x6f, 0x67, 0x23, 0x31, 0xa0, 0x58,
  0x8d, 0xa6, 0x64, 0x6b, 0x69, 0x6e, 0x64, 0x6e, 0x63, 0x6c, 0x6c, 0x2d, 0x63, 0x68, 0x65, 0x63, 0x6b,
  0x70, 0x6f, 0x69, 0x6e, 0x74, 0x68, 0x6c, 0x6f, 0x67, 0x5f, 0x73, 0x69, 0x7a, 0x65, 0x01, 0x69, 0x69,
  0x73, 0x73, 0x75, 0x65, 0x64, 0x5f, 0x61, 0x74, 0x77, 0x32, 0x30, 0x32, 0x36, 0x2d, 0x31, 0x30, 0x2d,
  0x30, 0x34, 0x54, 0x30, 0x39, 0x3a, 0x32, 0x37, 0x3a, 0x31, 0x31, 0x2e, 0x30, 0x33, 0x5a, 0x69, 0x70,
  0x72, 0x65, 0x76, 0x5f, 0x73, 0x69, 0x7a, 0x65, 0x00, 0x6a, 0x63, 0x6f, 0x6d, 0x6d, 0x69, 0x74, 0x6d,
  0x65, 0x6e, 0x74, 0x58, 0x23, 0x81, 0x58, 0x20, 0x26, 0x74, 0x00, 0x3d, 0xda, 0xf8, 0x29, 0x36, 0x57,
  0x7e, 0x0a, 0xea, 0x07, 0xd0, 0x6e, 0x9c, 0x8e, 0x97, 0xcd, 0xe7, 0x6c, 0x7f, 0x91, 0x4f, 0xb5, 0xe4,
  0xc2, 0xe0, 0x90, 0x3f, 0xec, 0x64, 0x6f, 0x70, 0x72, 0x65, 0x76, 0x5f, 0x63, 0x6f, 0x6d, 0x6d, 0x69,
  0x74, 0x6d, 0x65, 0x6e, 0x74, 0x40, 0x58, 0x40, 0xe7, 0x9c, 0x0c, 0x9d, 0x33, 0x12, 0xba, 0x51, 0xcb,
  0x91, 0x81, 0x59, 0x1a, 0x8d, 0x58, 0xfb, 0x09, 0x2b, 0xb6, 0x13, 0x9c, 0xf5, 0x8c, 0x4f, 0x8d, 0x0f,
  0xd7, 0x53, 0x1b, 0xa1, 0x78, 0x45, 0x23, 0x56, 0x71, 0x91, 0x35, 0x96, 0xd0, 0xa1, 0x8f, 0x58, 0xb1,
  0xbf, 0xd7, 0x46, 0x0d, 0x8a, 0x0e, 0xcd, 0x2a, 0x45, 0x70, 0xea, 0xcc, 0x1e, 0xb3, 0xd3, 0xde, 0xdb,
  0x4d, 0xa3, 0x60, 0x03]

/-- The entry of the sample's checkpoint. -/
def sampleEntry : Octets := Octets.ofNat 32 0x5668deb6ef44bc5051252211e5f85d9a04a707d7f5824510e9436e04ba02a69f

/-- The receipt of the sample. -/
def sampleReceipt : Tree := .obj [
  ("entry_hash", .str "5668deb6ef44bc5051252211e5f85d9a04a707d7f5824510e9436e04ba02a69f"),
  ("leaf_index", .str "0"),
  ("receipt_b64", .str "0oRHogEnGQGLAaEZAYyhIIFEgwEAgPZYQDV6YQGhljjT1Gs6sSSz5l2GTwy9Cv+Z10qVNuniqqaCQDsXLVBjGgkqanYZYgm0ptmpCg8fFLeBTlxeQvwUhAY="),
  ("tree_size", .int 1), ("ts_url", .str "https://witness.example")]

/-- The checkpoint of the sample, as its bundle states it, with its octets as a text. -/
def sampleStated (cose : String) : Tree := .obj [("cose", .str cose),
  ("log_id", .str "test-log"), ("mmr_size", .int 1),
  ("root", .str "2674003ddaf82936577e0aea07d06e9c8e97cde76c7f914fb5e4c2e0903fec64"),
  ("witnesses", .arr [sampleReceipt])]

/-- A bundle with its signed checkpoint and a receipt for it (`direct.json` of the tests). -/
def sampleBundle (cose : String) : Tree := .obj [("checkpoint", sampleStated cose)]

/-- The text of the signed checkpoint. -/
def sampleText : String := String.ofList (Base64.encodeUrl sampleCose)

/-- A list with the sample's witness. -/
def sampleList : List Tree := [.obj [("endpoint", .str "https://witness.example"),
  ("key_ids", .arr [.str "d83ea50be900420696ed725768b0ed5cec150e11eeacebd61a1811e65e292f2a"]),
  ("name", .str "test witness")]]

/-- What the sample's checkpoint says. -/
def sampleVerified : VerifiedCheckpoint where
  logId := "test-log"
  size := 1
  root := "2674003ddaf82936577e0aea07d06e9c8e97cde76c7f914fb5e4c2e0903fec64"
  prevSize := 0
  prevRoot := ""
  kid := "ab8ab7a193086949438f42f9d3d26f6baa68c5575992e7fd2d4590bc8bfcb18c"
  issuedAt := "2026-10-04T09:27:11.03Z"

deriving instance DecidableEq for VerifiedCheckpoint

set_option maxRecDepth 100000 in
/-- The runs over the checkpoint and over the receipt. -/
theorem runs_sample :
    checkpointBody samplePage sampleCose = some (.ok sampleVerified) ∧
      (checkReceipt samplePage sampleEntry (some sampleList) sampleReceipt).status = .pass := by
  decide +kernel

theorem checkpointBody_sample : checkpointBody samplePage sampleCose = some (.ok sampleVerified) :=
  runs_sample.1

set_option maxRecDepth 100000 in
theorem checkpointEntryHash_sample : checkpointEntryHash samplePage.hash sampleVerified = some sampleEntry := by
  rw [checkpointEntryHash_eq (by decide) (by decide) (by decide +kernel), entryText, Utf8.encode,
    String.toList_ofList]
  decide +kernel

theorem checkReceipt_sample :
    (checkReceipt samplePage sampleEntry (some sampleList) sampleReceipt).status = .pass :=
  runs_sample.2

theorem checkReceipts_sample : checkReceipts samplePage sampleVerified (some (.arr [sampleReceipt])) (some sampleList) =
    some [checkReceipt samplePage sampleEntry (some sampleList) sampleReceipt] := by
  rw [checkReceipts, checkpointEntryHash_sample]
  rfl

theorem statedCose_sample (cose : String) : statedCose (sampleBundle cose) = some cose := rfl

theorem mismatch_sample (cose : String) : mismatch samplePage (sampleStated cose) sampleVerified = some none := rfl

/-- The bundle has no chain, and its receipt passes. -/
theorem checkCarried_sample (cose : String) : ((checkCarried samplePage (sampleBundle cose) (sampleStated cose)
    sampleVerified sampleCose (some sampleList)).bind fun out => out.rung) = some .witnessed := by
  have hchain : (chainOf (sampleBundle cose)).filter
      (fun chain => strOf (chain.member? "state") = some "witnessed") = none := rfl
  have hdirect : itemsAt (sampleStated cose) "witnesses" = [sampleReceipt] := rfl
  have hpass : overall [checkReceipt samplePage sampleEntry (some sampleList) sampleReceipt] = .pass := by
    rw [overall_eq_pass_iff, List.forall_mem_singleton, checkReceipt_sample]
    exact ⟨nofun, _, List.mem_singleton_self _, checkReceipt_sample⟩
  unfold checkCarried
  rw [hchain, hdirect]
  dsimp only
  rw [checkReceipts_sample, if_neg (List.cons_ne_nil _ _), Option.bind_eq_bind, Option.bind_some, hpass]
  rfl

theorem verifyCheckpoint_sample : verifyCheckpoint samplePage sampleCose = .ok sampleVerified :=
  verifyCheckpoint_of_body checkpointBody_sample

/-- The sample's receipt is verified, so a rung is claimed. -/
theorem rung_sample :
    ((checkWitnessEvidence samplePage (sampleBundle sampleText) (some sampleList)).bind fun out => out.rung) =
      some .witnessed := by
  have hcose : b64Decode sampleText true = some sampleCose := b64Decode_encodeUrl sampleCose
  rw [checkWitnessEvidence_eq (statedCose_sample sampleText) hcose verifyCheckpoint_sample
    (mismatch_sample sampleText)]
  exact checkCarried_sample sampleText

/-- Behind the rung of the sample stands a verified checkpoint. -/
theorem witnessed_of_rung_sample : ∃ out cose cp,
    checkWitnessEvidence samplePage (sampleBundle sampleText) (some sampleList) = some out ∧
      out.rung = some .witnessed ∧ Signed samplePage cose cp ∧ Witnessed samplePage cp cose sampleList out .witnessed := by
  obtain ⟨out, hout, hrung⟩ := Option.bind_eq_some_iff.mp rung_sample
  obtain ⟨-, cose, cp, rows, -, -, -, hsigned, hrows, -, hwitnessed⟩ := (witnessed_of_rung hout).2 _ hrung
  obtain rfl := Option.some.inj hrows
  exact ⟨out, cose, cp, hout, hrung, hsigned, hwitnessed⟩

end ScittCose.Witness
