import ScittCose.Aac.Citations
import ScittCose.Pages.Parse

/-!
# The rituals of the pages (`hosted_profiles/hosted.py`, `CAPSULE_JS` and `BUNDLE_JS`)

The capsule page evaluates a bundle much as the server does; the bundle page adds its own stages. Both take the
list of `verifyCapsuleId` results, which is empty without WebCrypto. The stages for signed statements, the
witness, the range and the self-report are arguments, and the summary in words is left out.

What the two Integrity stages share is one loop over the records (`tallyRound`). They differ in where they look for
the id of a record: the capsule page unwraps envelopes, the bundle page does not.
-/

namespace ScittCose.Pages

open Json (Tree)
open Aac (hex64 short RitualStage Status ChainGap Row)

/-- The parts of `AacCrypto` the pages call; `none` is an exception. -/
structure AacCrypto where
  verifyClass1 : Tree → Option Bool
  computeCapsuleId : Tree → Option String
  verifyDisclosureEnvelope : Tree → Tree → Option (List (String × String))
  jsonDigest : Tree → Option String

/-- What the scripts run on; `subtle` is whether there is WebCrypto. -/
structure Env where
  js : Js
  subtle : Bool
  crypto : AacCrypto

/-! ## Ids -/

/-- A result of `verifyCapsuleId`; `stated` is empty when the id is not well-formed. -/
structure IdCheck where
  ok : Option Bool
  stated : String
  recomputed : Option String

/-- `verifyCapsuleId` -/
def verifyCapsuleId (env : Env) (cap : Tree) : IdCheck :=
  let c := unwrapEnvelope cap
  match (c.member? "capsule_id").bind hex64 with
  | none => ⟨none, "", none⟩
  | some stated =>
    if !env.subtle then ⟨none, stated, none⟩
    else
      match env.crypto.verifyClass1 c, env.crypto.computeCapsuleId c with
      | some ok, some recomputed => ⟨some (ok && recomputed == stated), stated, some recomputed⟩
      | _, _ => ⟨some false, stated, none⟩

/-- Whether the id of the record at a place was recomputed and found wrong. -/
def isRefuted (integrity : Option (List IdCheck)) (i : ℕ) : Bool :=
  (integrity.bind fun checks => checks[i]?).any fun check => check.ok = some false

/-! ## The chain -/

/-- The parent a capsule names. -/
def parentCapsuleId (cap : Tree) : Option Tree := do
  let chain ← member cap "chain" (.obj [])
  member chain "parent_capsule_id" (.str "")

/-- The well-formed id of a capsule. -/
def idOf (cap : Tree) : Option (Option String) :=
  (prop (some cap) "capsule_id").map fun id => id.bind hex64

/-- The well-formed id of the parent of a capsule. -/
def parentOf (cap : Tree) : Option (Option String) := (parentCapsuleId cap).map hex64

theorem member_eq_some {value found default : Tree} {key : String} (h : member value key default = some found) :
    found = orElse (value.member? key) default := by
  obtain ⟨t, ht, h⟩ := Option.bind_eq_some_iff.mp h
  have hfound : t = value.member? key := by
    cases value with
    | null => cases ht
    | _ => exact (Option.some.inj ht).symm
  rw [← Option.some.inj h, hfound]

/-- A well-formed digest is true in a condition. -/
theorem hex64_orElse (value : Option Tree) : hex64 (orElse value (.str "")) = value.bind hex64 := by
  unfold orElse
  split_ifs with htruthy
  · cases value with
    | none => rfl
    | some t => rfl
  · cases value with
    | none => rfl
    | some t =>
        cases t with
        | str s =>
            have hs : s = "" := by simpa [truthy] using htruthy
            rw [hs]
            rfl
        | _ => rfl

/-- A value that is not true has no members. -/
theorem member?_orElse (value : Option Tree) (key : String) :
    (orElse value (.obj [])).member? key = value.bind fun t => t.member? key := by
  unfold orElse
  split_ifs with htruthy
  · cases value <;> rfl
  · cases value with
    | none => rfl
    | some t =>
        cases t with
        | obj fields => exact absurd rfl htruthy
        | _ => rfl

theorem idOf_eq (cap : Tree) (id : Option String) (h : idOf cap = some id) : id = Aac.capsuleId cap := by
  obtain ⟨value, hvalue, rfl⟩ := Option.map_eq_some_iff.mp h
  cases cap with
  | null => cases hvalue
  | obj fields =>
      rw [← Option.some.inj hvalue, Aac.capsuleId, Aac.digestAt, Json.Tree.at?]
      cases (Tree.obj fields).member? "capsule_id" <;> rfl
  | _ => rw [← Option.some.inj hvalue]; rfl

theorem parentOf_eq (cap : Tree) (parent : Option String) (h : parentOf cap = some parent) :
    parent = Aac.digestAt Aac.parentPath cap := by
  obtain ⟨value, hvalue, rfl⟩ := Option.map_eq_some_iff.mp h
  obtain ⟨chain, hchain, hvalue⟩ := Option.bind_eq_some_iff.mp hvalue
  rw [member_eq_some hvalue, hex64_orElse, member_eq_some hchain, member?_orElse, Aac.digestAt,
    Aac.parentPath, Json.Tree.at?]
  cases cap.member? "chain" with
  | none => rfl
  | some t =>
      rw [Option.bind_some, Option.bind_some, Json.Tree.at?]
      cases t.member? "parent_capsule_id" <;> rfl

/-- The reader of the pages. -/
def reader : Aac.Reader := ⟨idOf, parentOf, idOf_eq, parentOf_eq⟩

/-- `findChainGaps` -/
def findChainGaps (capsules : List Tree) : Option (List ChainGap) :=
  reader.chainGaps (capsules.map unwrapEnvelope)

/-- `_declared` -/
def declaredCount (caps : List Tree) : Option ℕ := do
  let parents ← caps.mapM parentOf
  return parents.countP Option.isSome

/-! ## The rows of the table -/

/-- `_capMismatched` -/
def capMismatched (js : Js) (cap : Tree) : Option Bool := do
  let g ← parseAac js cap
  return g.privlog.any fun e => e.matchOk = some false

/-- One round of the loop that fills `alteredIds`. -/
def alteredRound (js : Js) (integrity : Option (List IdCheck)) (entry : Tree × ℕ) :
    Option (Option String) := do
  let cid ← member (unwrapEnvelope entry.1) "capsule_id" (.str "")
  match hex64 cid with
  | none => return none
  | some id =>
    if isRefuted integrity entry.2 then return some id
    let mismatched ← capMismatched js entry.1
    return if mismatched then some id else none

/-- `alteredIds` -/
def alteredIds (js : Js) (capsules : List Tree) (integrity : Option (List IdCheck)) :
    Option (List String) := do
  let found ← capsules.zipIdx.mapM (alteredRound js integrity)
  return found.reduceOption

/-- The members every object has. -/
def prototypeKeys : List String :=
  ["constructor", "__defineGetter__", "__defineSetter__", "hasOwnProperty", "__lookupGetter__",
    "__lookupSetter__", "isPrototypeOf", "propertyIsEnumerable", "toString", "valueOf", "__proto__",
    "toLocaleString"]

/-- `alteredIds[value]` as a condition. -/
def isIn (js : Js) (ids : List String) (value : Tree) : Option Bool := do
  let key ← js.text value
  return key ∈ ids || key ∈ prototypeKeys

/-- The row of one capsule. -/
def annotateRecord (js : Js) (fuel : ℕ) (byId : String → Option Tree) (altered : List String) (cap : Tree) :
    Option Row := do
  let cid ← member cap "capsule_id" (.str "")
  if ← isIn js altered cid then return .altered
  let cites ← reader.followParents byId altered fuel [] cap
  return .ofCites cites

/-- `annotateRecords`; `fuel` bounds the steps of a walk. -/
def annotateRecords (js : Js) (fuel : ℕ) (capsules : List Tree) (integrity : Option (List IdCheck)) :
    Option (List Row) := do
  let caps := capsules.map unwrapEnvelope
  let altered ← alteredIds js capsules integrity
  let byId ← reader.capsulesById caps
  caps.mapM (annotateRecord js fuel (fun id => byId.lookup id) altered)

/-! ## Disclosed payloads -/

/-- What `verifyCapsuleDigests` makes of an entry; of the findings of one member the last counts. -/
def resolveEntry (crypto : AacCrypto) (findings : List (String × String)) (e : Entry) : Option Entry :=
  match e.withheld, e.revPayload with
  | false, some payload =>
    let found (key : String) : Option Entry :=
      let ok := findings.reverse.lookup key == some "disclosure_match"
      some { e with matchOk := some ok, recomputedDigest := if ok then some e.digest else none }
    if e.id = "agent input" then found "agent_input"
    else if e.id = "agent output" then found "agent_output"
    else do
      let hex ← crypto.jsonDigest payload
      return { e with matchOk := some (hex == e.digest), recomputedDigest := some hex }
  | _, _ => some e

/-- `verifyCapsuleDigests` -/
def verifyCapsuleDigests (env : Env) (cap : Tree) (disclosures : Option Tree) : Option Graph := do
  let given := orElse disclosures (.obj [])
  let g ← parseAac env.js
    (if truthy disclosures then .obj [("capsule", cap), ("disclosures", given)] else cap)
  if !env.subtle then return g
  let findings ← env.crypto.verifyDisclosureEnvelope cap given
  let privlog ← g.privlog.mapM (resolveEntry env.crypto findings)
  return { g with privlog := privlog }

/-! ## The stages -/

inductive Code where
  | capsuleIdMismatch
  | digestMismatch
  | noChainDeclared
  | chainGap
deriving DecidableEq

/-- A finding; those of the bundle page have no code. -/
structure Finding where
  code : Option Code
  label : String
  text : String
  metaText : String

structure RitualSummary where
  stages : List RitualStage
  finding : Option Finding

/-- The status of a stage. -/
def RitualSummary.status (summary : RitualSummary) (name : Aac.StageName) : Option Status :=
  Aac.statusOf summary.stages name

/-- `firstMismatch`: the result of an id, or an entry of a privilege log. -/
inductive FirstMismatch where
  | body (check : IdCheck)
  | entry (e : Entry)

/-- The altered ids and the first mismatch. -/
structure Tally where
  altered : List String := []
  first : Option FirstMismatch := none

/-- Count an id as altered. -/
def Tally.add (s : Tally) (id : String) (m : FirstMismatch) : Tally :=
  ⟨s.altered ++ [id], s.first <|> some m⟩

/-- Count an id as altered when it was recomputed and found wrong. -/
def Tally.refute (s : Tally) (integrity : Option (List IdCheck)) (i : ℕ) (id : String) : Tally :=
  match integrity.bind fun checks => checks[i]? with
  | some check => if check.ok = some false then s.add id (.body check) else s
  | none => s

/-- One round of the loop of an Integrity stage: `idOf` is the id it sees, `graphOf` the graph it goes by. -/
def tallyRound (idOf : Tree → Option (Option Tree)) (graphOf : Tree → String → Option Graph)
    (integrity : Option (List IdCheck)) (s : Tally) (entry : Tree × ℕ) : Option Tally := do
  let value ← idOf entry.1
  match value.bind hex64 with
  | none => return s
  | some id =>
    let s := s.refute integrity entry.2 id
    let g ← graphOf entry.1 id
    match g.privlog.filter fun e => e.matchOk = some false with
    | bad :: _ => return s.add id (.entry bad)
    | [] => return s

/-- The Integrity stage a tally gives, and its finding. -/
def integrityStage (code : Code → Option Code) (s : Tally) : Option (RitualStage × Option Finding) :=
  match s.altered, s.first with
  | [], _ => some (⟨.integrity, .pass, "every record matches its fingerprint"⟩, none)
  | _ :: _, some (.body check) =>
    some (⟨.integrity, .fail,
      s!"capsule_id does not match the recomputed digest of its own body — stated {short check.stated}, " ++
        "recomputed " ++ (check.recomputed.map short).getD "(could not be computed)"⟩,
      some ⟨code .capsuleIdMismatch, "The finding",
        "This capsule's content does not hash to its stated capsule_id. The body has been altered after the " ++
          "id was assigned — they no longer content-address to each other.",
        s!"failed stage: capsule_id_mismatch · stated capsule_id {check.stated} · recomputed " ++
          check.recomputed.getD "(error)"⟩)
  | _ :: _, some (.entry e) =>
    some (⟨.integrity, .fail,
      s!"record fails at stage digest_mismatch — {e.ctx} no longer matches its fingerprint"⟩,
      some ⟨code .digestMismatch, "The finding", s!"{e.id} ({e.ctx}) is not the value that was sealed.",
        s!"failed stage: digest_mismatch · field group: {e.ctx} · digest {Aac.head8 e.digest}…"⟩)
  | _ :: _, none => none

/-- The Sequence stage: `undeclared` is the finding when no record declares a parent, `ofGap` that of a gap. -/
def sequenceStage (capsules : List Tree) (undeclared : Option Finding) (ofGap : ChainGap → Option Finding)
    (finding : Option Finding) : Option (RitualStage × Option Finding) := do
  let caps := capsules.map unwrapEnvelope
  let declared ← declaredCount caps
  let expected := caps.length - 1
  let gaps ← findChainGaps capsules
  if caps.length < 2 then return (⟨.sequence, .skip, "single record — nothing to sequence"⟩, finding)
  if declared = 0 then
    return (⟨.sequence, .skip, "not checked — no record here declares a parent, so the order shown is " ++
      "presentation order, not an attested sequence"⟩, finding <|> undeclared)
  match gaps with
  | g :: _ =>
    let stage : RitualStage := ⟨.sequence, .fail,
      s!"gap between record {g.beforeIndex + 1} and record {g.afterIndex + 1} " ++
        s!"— record {g.afterIndex + 1} names a parent that is not here"⟩
    match finding with
    | some finding => return (stage, some finding)
    | none => return (stage, some (← ofGap g))
  | [] =>
    if declared < expected then
      return (⟨.sequence, .skip, s!"partial — {declared} of {expected} expected links declared; " ++
        "the undeclared positions are not attested as adjacent"⟩, finding)
    return (⟨.sequence, .pass, "unbroken — every record names the one before it"⟩, finding)

/-! ## The capsule page -/

/-- `value.slice(0, 8)` in a text. -/
def Js.slice8 (js : Js) : Tree → Option String
  | .str s => some (js.head8 s)
  | .arr items => js.text (.arr (items.take 8))
  | _ => none

/-- The id of an item as the finding shows it; envelopes are not unwrapped here. -/
def shownId (js : Js) (capsules : List Tree) (i : ℕ) : Option String := do
  let id ← member (orElse capsules[i]? (.obj [])) "capsule_id" (.str "")
  js.slice8 id

/-- The finding of a gap on the capsule page. -/
def gapFinding (js : Js) (capsules : List Tree) (g : ChainGap) : Option Finding := do
  let beforeId ← shownId js capsules g.beforeIndex
  let afterId ← shownId js capsules g.afterIndex
  return ⟨some .chainGap, "The finding",
    s!"Whatever sits between record {g.beforeIndex + 1} and record {g.afterIndex + 1} is not in this bundle. " ++
      "That is information, not just an error: the gap has a location and two edges you can browse from.",
    s!"failed stage: chain_gap · window: {beforeId}…→{afterId}… · missing parent {Aac.head8 g.missingParent}…"⟩

/-- The finding on the capsule page when no record declares a parent. -/
def undeclaredFinding (n : ℕ) : Finding :=
  ⟨some .noChainDeclared, "What this does not show",
    s!"These {n} records carry no chain links. Nothing here attests that they happened in this order, or " ++
      "that none is missing between them — they are individually verifiable records displayed in the order " ++
      "the bundle listed them.",
    s!"skipped stage: no_chain_declared · 0 of {n - 1} expected links declared"⟩

/-- The id the capsule page sees. -/
def unwrappedId (item : Tree) : Option (Option Tree) := prop (some (unwrapEnvelope item)) "capsule_id"

/-- `evaluateRitual` -/
def evaluateRitual (js : Js) (capsules : List Tree) (integrity : Option (List IdCheck))
    (authenticity witness : Status × String) : Option RitualSummary := do
  let tally ← capsules.zipIdx.foldlM (tallyRound unwrappedId (fun c _ => parseAac js c) integrity) {}
  let (integrity, finding) ← integrityStage some tally
  let (sequence, finding) ← sequenceStage capsules (some (undeclaredFinding capsules.length))
    (gapFinding js capsules) finding
  return ⟨[integrity, sequence, ⟨.authenticity, authenticity.1, authenticity.2⟩,
    ⟨.witness, witness.1, witness.2⟩], finding⟩

/-! ## The bundle page -/

/-- The finding of a gap on the bundle page. -/
def bundleGapFinding (g : ChainGap) : Option Finding :=
  some ⟨none, "The finding",
    s!"Whatever sits between record {g.beforeIndex + 1} and record {g.afterIndex + 1} is not in this bundle.",
    s!"failed stage: chain_gap · missing parent {Aac.head8 g.missingParent}…"⟩

/-- The id the bundle page sees. -/
def topLevelId (item : Tree) : Option (Option Tree) := prop (some item) "capsule_id"

/-- The graph of a record with what the bundle discloses for it. -/
def disclosedGraph (env : Env) (disclosures : Option Tree) (record : Tree) (id : String) : Option Graph := do
  let disclosed ← prop (some (orElse disclosures (.obj []))) id
  verifyCapsuleDigests env record disclosed

/-- `evaluateBundleRitual` -/
def evaluateBundleRitual (env : Env) (records : List Tree) (completeness crossCheck : Status × String)
    (integrity : Option (List IdCheck)) (disclosures : Option Tree) : Option RitualSummary := do
  let tally ← records.zipIdx.foldlM (tallyRound topLevelId (disclosedGraph env disclosures) integrity) {}
  let (integrity, finding) ← integrityStage (fun _ => none) tally
  let (sequence, finding) ← sequenceStage records none bundleGapFinding finding
  return ⟨[integrity, sequence, ⟨.rangeMembership, completeness.1, completeness.2⟩,
    ⟨.crossCheck, crossCheck.1, crossCheck.2⟩], finding⟩

end ScittCose.Pages
