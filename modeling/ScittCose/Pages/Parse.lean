import ScittCose.Aac.Ritual

/-!
# Capsules as the pages read them (`hosted_profiles/hosted.py`, `CAPSULE_JS` and `BUNDLE_JS`)

Both scripts carry the same parser. A JSON value is a `Tree` and `undefined` is `none`; `none` as the result of
a function is an exception. Members are looked up on any value but `null` and `undefined`.

`parseAac` lists the digests of an item with what is disclosed for them. It compares nothing: `matchOk` is empty
in every entry (`matchOk_of_parseAac`), and only the bundle page fills it in.
-/

namespace ScittCose.Pages

open Json (Tree)
open Aac (hex64 short given)

/-- What the scripts take from the interpreter: the texts of numbers, arrays and objects, and the first eight
units of a text. Objects need not have a text. -/
structure Js where
  intText : ℤ → String
  floatText : UInt64 → String
  objectText : Tree → Option String
  head8 : String → String

/-- `String(value)` -/
def Js.text (js : Js) : Tree → Option String
  | .null => some "null"
  | .bool b => some (if b then "true" else "false")
  | .int n => some (js.intText n)
  | .float bits => some (js.floatText bits)
  | .str s => some s
  | t => js.objectText t

/-! ## Values -/

/-- Whether a value is true in a condition. -/
def truthy : Option Tree → Bool
  | none => false
  | some .null => false
  | some (.bool b) => b
  | some (.int n) => n != 0
  | some (.float bits) => !Json.isZero bits
  | some (.str s) => s != ""
  | some (.arr _) => true
  | some (.obj _) => true

/-- `value.key` -/
def prop (value : Option Tree) (key : String) : Option (Option Tree) :=
  match value with
  | none => none
  | some .null => none
  | some t => some (t.member? key)

/-- `value || default` -/
def orElse (value : Option Tree) (default : Tree) : Tree :=
  if truthy value then value.getD default else default

/-- Whether an item is an envelope: its member `capsule` is an object or an array. -/
def isEnvelope (item : Tree) : Bool :=
  match item.member? "capsule" with
  | some (.obj _) => true
  | some (.arr _) => true
  | _ => false

/-- `unwrapEnvelope` -/
def unwrapEnvelope (item : Tree) : Tree :=
  if isEnvelope item then (item.member? "capsule").getD item else item

/-! ## The graph -/

structure Edge where
  fromId : String
  toId : String
  label : String
deriving DecidableEq

/-- An entry of the privilege log; the parser recomputes nothing. -/
structure Entry where
  id : String
  entryType : String
  digest : String
  withheld : Bool
  isKnown : Bool
  matchOk : Option Bool
  ctx : String
  revPayload : Option Tree
  recomputedDigest : Option String := none

structure Graph where
  nodes : List Aac.GraphNode := []
  edges : List Edge := []
  privlog : List Entry := []
  unk : List String := []
  isB : Bool

/-- `addN`, and whether there was no such node. -/
def addN (g : Graph) (id nodeType label : String) (withheld : Bool) (payload : Option Tree) : Graph × Bool :=
  if id ∈ g.nodes.map Aac.GraphNode.id then (g, false)
  else
    let known := Aac.knownTypes.contains nodeType
    let unk := if !known && !g.unk.contains nodeType then g.unk ++ [nodeType] else g.unk
    let node : Aac.GraphNode :=
      ⟨id, nodeType, id, label, known, withheld, payload.filter fun t => truthy (some t)⟩
    ({ g with nodes := g.nodes ++ [node], unk := unk }, true)

def addEntry (g : Graph) (e : Entry) : Graph := { g with privlog := g.privlog ++ [e] }

/-- `addArt`, on a digest that is well-formed. -/
def addArt (g : Graph) (digest nodeType label ctx : String) : Graph :=
  let (g, added) := addN g digest nodeType label true none
  if added then
    addEntry g ⟨label, nodeType, digest, true, Aac.knownTypes.contains nodeType, none, ctx, none, none⟩
  else g

/-- `addEdge` -/
def addEdge (g : Graph) (fromId toId label : String) : Graph :=
  if ⟨fromId, toId, label⟩ ∈ g.edges then g else { g with edges := g.edges ++ [⟨fromId, toId, label⟩] }

/-- A digest field without a payload. -/
def addReference (g : Graph) (capId : String) (value : Tree) (nodeType label ctx edge : String) : Graph :=
  match hex64 value with
  | none => g
  | some digest => addEdge (addArt g digest nodeType label ctx) capId digest edge

/-- The prior capsule. -/
def addPrior (g : Graph) (capId : String) (value : Tree) : Graph :=
  match hex64 value with
  | none => g
  | some prior =>
    let (g, added) := addN g prior "capsule" s!"prior capsule {short prior}" false none
    if added then addEdge g capId prior "chains_to" else g

/-- Agent input or agent output. -/
def addAgentField (g : Graph) (capId p : String) (value : Tree) (pre : Option Tree) (nodeType label : String) :
    Graph :=
  match hex64 value with
  | none => g
  | some digest =>
    let payload := pre.bind given
    let (g, added) := addN g digest nodeType s!"{label} {short digest}" payload.isNone payload
    let ctx :=
      if payload.isSome then "payload carried in fragment; recomputed against committed digest"
      else s!"{p}compute_attestation — payload not carried in the record"
    if added then
      addEdge (addEntry g ⟨label, nodeType, digest, payload.isNone, true, none, ctx, payload, none⟩) capId digest
        "attests_over"
    else g

/-- One round of the loop over the constraints. -/
def addConstraint (js : Js) (capId p : String) (g : Graph) (c : Tree) : Option Graph := do
  let ev ← prop (some c) "evidence_digest"
  let id ← prop (some c) "id"
  let ev := orElse ev (.str "")
  if (hex64 ev).isNone then return g
  let id ← js.text (orElse id (.str "constraint"))
  return addReference g capId ev "wicket_manifest" s!"manifest [{id}]" s!"{p}constraints[{id}].evidence_digest"
    "commits_to"

/-- `value.key || default` -/
def member (value : Tree) (key : String) (default : Tree) : Option Tree := do
  let found ← prop (some value) key
  return orElse found default

/-- `extractCap` -/
def extractCap (js : Js) (g : Graph) (cap : Tree) (capId pfx : String) (disclosures : Tree) :
    Option Graph := do
  let p := if pfx = "" then "" else s!"{pfx}."
  let chain ← member cap "chain" (.obj [])
  let prior ← member chain "parent_capsule_id" (.str "")
  let g := addPrior g capId prior
  let ma ← member cap "model_attestation" (.obj [])
  let ca ← member ma "compute_attestation" (.obj [])
  let subj ← member ca "subject_digest" (.str "")
  let g := addReference g capId subj "subject" "subject" s!"{p}compute_attestation.subject_digest"
    "attests_over"
  let ai ← member ca "agent_input_digest" (.str "")
  let aiPre ← prop (some disclosures) "agent_input"
  let g := addAgentField g capId p ai aiPre "agent_input" "agent input"
  let ao ← member ca "agent_output_digest" (.str "")
  let aoPre ← prop (some disclosures) "agent_output"
  let g := addAgentField g capId p ao aoPre "agent_output" "agent output"
  let eff ← member cap "effect" (.obj [])
  let resp ← member eff "response_digest" (.str "")
  let g := addReference g capId resp "response" "response" s!"{p}effect.response_digest" "effect_response"
  let constraints ← member cap "constraints" (.arr [])
  match constraints with
  | .arr items => items.foldlM (addConstraint js capId p) g
  | _ => none

/-- `(data.disclosures && data.disclosures.side) || {}` -/
def sideDisclosures (data : Tree) (side : String) : Option Tree := do
  let disclosures ← prop (some data) "disclosures"
  let found ← if truthy disclosures then prop disclosures side else some disclosures
  return orElse found (.obj [])

/-- The node of a capsule of a binding, when its id is well-formed. -/
def addCapsule (g : Graph) (what : String) (id : Option String) : Graph :=
  id.elim g fun id => (addN g id "capsule" s!"{what} {short id}" false none).1

/-- An edge from a capsule, when its id is well-formed. -/
def addEdgeFrom (g : Graph) (id : Option String) (toId label : String) : Graph :=
  id.elim g fun id => addEdge g id toId label

/-- The sealed terms of a binding. -/
def addSealed (g : Graph) (bid sid sth : Option String) (terms : Option Tree) : Graph :=
  sth.elim g fun sth =>
    let g := (addN g sth "offer_terms" s!"offer terms {short sth}" terms.isNone terms).1
    let g := addEntry g ⟨"sealed_terms_hash", "offer_terms", sth, terms.isNone, true, none,
      "binding.sealed_terms_hash", terms, none⟩
    addEdgeFrom (addEdgeFrom g bid sth "attests_over") sid sth "attests_over"

/-- One capsule of a binding, when its id is well-formed. -/
def extractSide (js : Js) (g : Graph) (cap : Tree) (id : Option String) (side : String) (disclosures : Tree) :
    Option Graph :=
  match id with
  | none => some g
  | some id => extractCap js g cap id side disclosures

/-- A bilateral binding. -/
def parseBinding (js : Js) (data bc sc : Tree) : Option Graph := do
  let bid ← member bc "capsule_id" (.str "")
  let sid ← member sc "capsule_id" (.str "")
  let sth ← member data "sealed_terms_hash" (.str "")
  let terms ← prop (some data) "terms"
  let bDisc ← sideDisclosures data "buyer"
  let sDisc ← sideDisclosures data "seller"
  let g : Graph := { isB := true }
  let g := addCapsule (addCapsule g "buyer capsule" (hex64 bid)) "seller capsule" (hex64 sid)
  let g := addSealed g (hex64 bid) (hex64 sid) (hex64 sth) (terms.bind given)
  let g := (hex64 bid).elim g fun bid => addEdgeFrom g (hex64 sid) bid "chains_to"
  let g ← extractSide js g bc (hex64 bid) "buyer" bDisc
  extractSide js g sc (hex64 sid) "seller" sDisc

/-- The disclosures of an envelope; a bare capsule has none. -/
def envelopeDisclosures (data : Tree) : Option Tree :=
  if isEnvelope data then member data "disclosures" (.obj []) else some (.obj [])

/-- A capsule, in an envelope or bare. -/
def parseSingle (js : Js) (data : Tree) : Option Graph := do
  let envCap := unwrapEnvelope data
  let envDisc ← envelopeDisclosures data
  let cid ← member envCap "capsule_id" (.str "")
  extractSide js (addCapsule { isB := false } "capsule" (hex64 cid)) envCap (hex64 cid) "" envDisc

/-- `parseAac` -/
def parseAac (js : Js) (data : Tree) : Option Graph := do
  let bc ← prop (some data) "buyer_capsule"
  let sc ← prop (some data) "seller_capsule"
  if truthy bc && truthy sc then parseBinding js data (orElse bc (.obj [])) (orElse sc (.obj []))
  else parseSingle js data

/-! ## Nothing is compared -/

/-- No entry of the privilege log has a result. -/
def Unchecked (g : Graph) : Prop := ∀ e ∈ g.privlog, e.matchOk = none

theorem unchecked_addN {g : Graph} (h : Unchecked g) (id nodeType label : String) (withheld : Bool)
    (payload : Option Tree) : Unchecked (addN g id nodeType label withheld payload).1 := by
  unfold addN
  split_ifs <;> exact h

theorem unchecked_addEntry {g : Graph} (h : Unchecked g) {e : Entry} (he : e.matchOk = none) :
    Unchecked (addEntry g e) := by
  intro e' he'
  rcases List.mem_append.mp he' with hmem | hmem
  · exact h e' hmem
  · rw [List.mem_singleton.mp hmem]
    exact he

theorem unchecked_addEdge {g : Graph} (h : Unchecked g) (fromId toId label : String) :
    Unchecked (addEdge g fromId toId label) := by
  unfold addEdge
  split_ifs <;> exact h

theorem unchecked_addReference {g : Graph} (h : Unchecked g) (capId : String) (value : Tree)
    (nodeType label ctx edge : String) :
    Unchecked (addReference g capId value nodeType label ctx edge) := by
  unfold addReference
  split
  · exact h
  · apply unchecked_addEdge
    have hnode := unchecked_addN h
    unfold addArt
    dsimp only
    split_ifs
    · exact unchecked_addEntry (hnode _ _ _ _ _) rfl
    · exact hnode _ _ _ _ _

theorem unchecked_addPrior {g : Graph} (h : Unchecked g) (capId : String) (value : Tree) :
    Unchecked (addPrior g capId value) := by
  unfold addPrior
  split
  · exact h
  · dsimp only
    split_ifs
    · exact unchecked_addEdge (unchecked_addN h _ _ _ _ _) _ _ _
    · exact unchecked_addN h _ _ _ _ _

theorem unchecked_addAgentField {g : Graph} (h : Unchecked g) (capId p : String) (value : Tree)
    (pre : Option Tree) (nodeType label : String) :
    Unchecked (addAgentField g capId p value pre nodeType label) := by
  unfold addAgentField
  split
  · exact h
  · have hnode := unchecked_addN h
    dsimp only
    split_ifs
    · exact unchecked_addEdge (unchecked_addEntry (hnode _ _ _ _ _) rfl) _ _ _
    · exact unchecked_addEdge (unchecked_addEntry (hnode _ _ _ _ _) rfl) _ _ _
    · exact hnode _ _ _ _ _

theorem unchecked_addConstraints {js : Js} {capId p : String} {items : List Tree} {g g' : Graph}
    (h : Unchecked g) (hrun : items.foldlM (addConstraint js capId p) g = some g') : Unchecked g' := by
  induction items generalizing g with
  | nil =>
      obtain rfl := Option.some.inj hrun
      exact h
  | cons c items ih =>
      rw [List.foldlM_cons] at hrun
      obtain ⟨next, hnext, hrest⟩ := Option.bind_eq_some_iff.mp hrun
      apply ih _ hrest
      obtain ⟨ev, -, hnext⟩ := Option.bind_eq_some_iff.mp hnext
      obtain ⟨id, -, hnext⟩ := Option.bind_eq_some_iff.mp hnext
      dsimp only at hnext
      split_ifs at hnext
      · obtain rfl := Option.some.inj hnext
        exact h
      · obtain ⟨text, -, hnext⟩ := Option.bind_eq_some_iff.mp hnext
        obtain rfl := Option.some.inj hnext
        exact unchecked_addReference h _ _ _ _ _ _

theorem unchecked_extractCap {js : Js} {g g' : Graph} {cap disclosures : Tree} {capId pfx : String}
    (h : Unchecked g) (hrun : extractCap js g cap capId pfx disclosures = some g') : Unchecked g' := by
  obtain ⟨chain, -, hrun⟩ := Option.bind_eq_some_iff.mp hrun
  obtain ⟨prior, -, hrun⟩ := Option.bind_eq_some_iff.mp hrun
  obtain ⟨ma, -, hrun⟩ := Option.bind_eq_some_iff.mp hrun
  obtain ⟨ca, -, hrun⟩ := Option.bind_eq_some_iff.mp hrun
  obtain ⟨subj, -, hrun⟩ := Option.bind_eq_some_iff.mp hrun
  obtain ⟨ai, -, hrun⟩ := Option.bind_eq_some_iff.mp hrun
  obtain ⟨aiPre, -, hrun⟩ := Option.bind_eq_some_iff.mp hrun
  obtain ⟨ao, -, hrun⟩ := Option.bind_eq_some_iff.mp hrun
  obtain ⟨aoPre, -, hrun⟩ := Option.bind_eq_some_iff.mp hrun
  obtain ⟨eff, -, hrun⟩ := Option.bind_eq_some_iff.mp hrun
  obtain ⟨resp, -, hrun⟩ := Option.bind_eq_some_iff.mp hrun
  obtain ⟨constraints, -, hrun⟩ := Option.bind_eq_some_iff.mp hrun
  cases constraints with
  | arr items =>
      apply unchecked_addConstraints _ hrun
      apply unchecked_addReference
      apply unchecked_addAgentField
      apply unchecked_addAgentField
      apply unchecked_addReference
      exact unchecked_addPrior h capId prior
  | _ => cases hrun

theorem unchecked_extractSide {js : Js} {g g' : Graph} {cap disclosures : Tree} {id : Option String}
    {side : String} (h : Unchecked g) (hrun : extractSide js g cap id side disclosures = some g') :
    Unchecked g' := by
  cases id with
  | none =>
      obtain rfl := Option.some.inj hrun
      exact h
  | some id => exact unchecked_extractCap h hrun

theorem unchecked_addCapsule {g : Graph} (h : Unchecked g) (what : String) (id : Option String) :
    Unchecked (addCapsule g what id) := by
  cases id with
  | none => exact h
  | some id => exact unchecked_addN h _ _ _ _ _

theorem unchecked_addEdgeFrom {g : Graph} (h : Unchecked g) (id : Option String) (toId label : String) :
    Unchecked (addEdgeFrom g id toId label) := by
  cases id with
  | none => exact h
  | some id => exact unchecked_addEdge h _ _ _

theorem unchecked_addSealed {g : Graph} (h : Unchecked g) (bid sid sth : Option String)
    (terms : Option Tree) : Unchecked (addSealed g bid sid sth terms) := by
  cases sth with
  | none => exact h
  | some sth =>
      apply unchecked_addEdgeFrom
      apply unchecked_addEdgeFrom
      exact unchecked_addEntry (unchecked_addN h _ _ _ _ _) rfl

theorem unchecked_empty (isB : Bool) : Unchecked { isB := isB } := by
  intro e he
  exact absurd he List.not_mem_nil

/-- No entry has a result, whatever is disclosed. -/
theorem matchOk_of_parseAac {js : Js} {data : Tree} {g : Graph} (h : parseAac js data = some g) :
    ∀ e ∈ g.privlog, e.matchOk = none := by
  obtain ⟨bc, -, h⟩ := Option.bind_eq_some_iff.mp h
  obtain ⟨sc, -, h⟩ := Option.bind_eq_some_iff.mp h
  split_ifs at h
  · obtain ⟨bid, -, h⟩ := Option.bind_eq_some_iff.mp h
    obtain ⟨sid, -, h⟩ := Option.bind_eq_some_iff.mp h
    obtain ⟨sth, -, h⟩ := Option.bind_eq_some_iff.mp h
    obtain ⟨terms, -, h⟩ := Option.bind_eq_some_iff.mp h
    obtain ⟨bDisc, -, h⟩ := Option.bind_eq_some_iff.mp h
    obtain ⟨sDisc, -, h⟩ := Option.bind_eq_some_iff.mp h
    obtain ⟨g', hfirst, hlast⟩ := Option.bind_eq_some_iff.mp h
    apply unchecked_extractSide _ hlast
    apply unchecked_extractSide _ hfirst
    have hnodes : ∀ bid, Unchecked (addSealed (addCapsule (addCapsule { isB := true } "buyer capsule" bid)
        "seller capsule" (hex64 sid)) bid (hex64 sid) (hex64 sth) (terms.bind given)) := by
      intro bid
      apply unchecked_addSealed
      apply unchecked_addCapsule
      exact unchecked_addCapsule (unchecked_empty true) _ _
    cases hex64 bid with
    | none => exact hnodes none
    | some bid => exact unchecked_addEdgeFrom (hnodes (some bid)) _ _ _
  · obtain ⟨envDisc, -, h⟩ := Option.bind_eq_some_iff.mp h
    obtain ⟨cid, -, h⟩ := Option.bind_eq_some_iff.mp h
    exact unchecked_extractSide (unchecked_addCapsule (unchecked_empty false) _ _) h

end ScittCose.Pages
