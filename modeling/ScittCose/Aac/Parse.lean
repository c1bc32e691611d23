import ScittCose.Lib.Hash
import ScittCose.Lib.JsonTree
import ScittCose.Lib.Utf8

/-!
# Capsules as a digest graph (`hosted_profiles/aac.py`)

`parse_capsule` reads a capsule, a Disclosure Envelope or a bilateral binding from any JSON value: `none` is an
exception. The digests it meets become nodes, and each digest becomes one node only: a field whose digest was
met before is passed over, with whatever was disclosed for it.

`disclosures` lists what an item discloses, each with the digests met before it. The entries of the privilege
log that carry a result are those of the disclosures that are hashed (`parseCapsule_spec`).
-/

namespace ScittCose.Aac

open Json (Tree)

/-- What the code takes from the interpreter: SHA-256, `repr` of a float, and what an f-string makes of a value
that is no text. -/
structure Python where
  hash : Hash
  floatRepr : UInt64 → List Char
  format : Tree → String

/-! ## Values -/

/-- `_is_hex64` on a text, and `isH64` of the pages. -/
def isHex64 (s : String) : Bool :=
  s.toList.length == 64 && s.toList.all fun c => (Octets.hexValue c).isSome

/-- A value that passes `_is_hex64`, as the text it is. -/
def hex64 : Tree → Option String
  | .str s => if isHex64 s then some s else none
  | _ => none

/-- Whether a value is true in a condition. -/
def truthy : Tree → Bool
  | .null => false
  | .bool b => b
  | .int n => n != 0
  | .float bits => !Json.isZero bits
  | .str s => s != ""
  | .arr items => !items.isEmpty
  | .obj fields => !fields.isEmpty

/-- `value or default` -/
def orDefault (value default : Tree) : Tree := if truthy value then value else default

/-- `value.get(key, default)` -/
def get (value : Tree) (key : String) (default : Tree) : Option Tree :=
  match value with
  | .obj fields => some ((fields.lookup key).getD default)
  | _ => none

/-- What a `for` goes through. -/
def iterate : Tree → Option (List Tree)
  | .arr items => some items
  | .obj fields => some (fields.map fun f => .str f.1)
  | .str s => some (s.toList.map fun c => .str (String.ofList [c]))
  | _ => none

/-- `value` unless it `is None`. -/
def given : Tree → Option Tree
  | .null => none
  | t => some t

/-- `f"{value}"` -/
def Python.text (py : Python) : Tree → String
  | .str s => s
  | t => py.format t

/-- `_json_digest` -/
def jsonDigest (py : Python) (obj : Tree) : String :=
  Octets.toHex (py.hash.digest (Utf8.encode (String.ofList (obj.render (.python py.floatRepr)))))

/-- What `_extract_refs` compares a disclosed payload by: a text is hashed as it is. -/
def payloadDigest (py : Python) : Tree → String
  | .str s => Octets.toHex (py.hash.digest (Utf8.encode s))
  | t => jsonDigest py t

/-- `_short` -/
def short (digest : String) : String :=
  String.ofList (digest.toList.take 8 ++ '…' :: digest.toList.drop (digest.toList.length - 4))

/-- `_unwrap` -/
def unwrap (cap : Tree) : Tree :=
  match cap.member? "capsule" with
  | some (.obj fields) => .obj fields
  | _ => cap

/-- `(cap.get("chain") or {}).get("parent_capsule_id", "")` -/
def parentCapsuleId (cap : Tree) : Option Tree := do
  let chain ← get cap "chain" .null
  get (orDefault chain (.obj [])) "parent_capsule_id" (.str "")

/-! ## The view -/

/-- `_KNOWN_TYPES` -/
def knownTypes : List String :=
  ["capsule", "offer_terms", "wicket_manifest", "response", "gate_checks", "subject", "bilateral_subject",
    "compute_attestation", "agent_input", "agent_output"]

/-- `GraphNode` -/
structure GraphNode where
  id : String
  nodeType : String
  digest : String
  label : String
  isKnownType : Bool
  isWithheld : Bool
  revealedPayload : Option Tree

/-- `GraphEdge` -/
structure GraphEdge where
  fromId : String
  toId : String
  label : String
  edgeType : String

/-- `PrivilegeLogEntry` -/
structure PrivilegeLogEntry where
  artifactId : String
  artifactType : String
  digest : String
  isWithheld : Bool
  isKnownType : Bool
  matchOk : Option Bool
  context : String

/-- `parse_error`; a text keeps the value it shows. -/
inductive ParseError where
  | notObject
  | notRecognised
  | capsuleId (value : Tree)

/-- `GraphView` -/
structure GraphView where
  profile : String := "aac"
  isBinding : Bool
  nodes : List GraphNode := []
  edges : List GraphEdge := []
  privilegeLog : List PrivilegeLogEntry := []
  rawCapsules : List Tree := []
  unknownTypes : List String := []
  parseError : Option ParseError := none

namespace GraphView

/-- `seen`: the ids of the nodes. -/
def ids (view : GraphView) : List String := view.nodes.map GraphNode.id

def addNode (view : GraphView) (node : GraphNode) : GraphView := { view with nodes := view.nodes ++ [node] }

def addEdge (view : GraphView) (fromId toId label : String) : GraphView :=
  { view with edges := view.edges ++ [⟨fromId, toId, label, label⟩] }

def addEntry (view : GraphView) (entry : PrivilegeLogEntry) : GraphView :=
  { view with privilegeLog := view.privilegeLog ++ [entry] }

def addUnknown (view : GraphView) (nodeType : String) : GraphView :=
  { view with unknownTypes := view.unknownTypes ++ [nodeType] }

/-- The node of a capsule. -/
def addCapsule (view : GraphView) (what id : String) : GraphView :=
  view.addNode ⟨id, "capsule", id, s!"{what} {short id}", true, true, none⟩

end GraphView

/-! ## The parser -/

section Source

variable (py : Python)

/-- `_add` -/
def add (view : GraphView) (digest nodeType label context : String) : GraphView × Bool :=
  if digest ∈ view.ids then (view, false)
  else
    let isKnown := knownTypes.contains nodeType
    let view :=
      if !isKnown && !view.unknownTypes.contains nodeType then view.addUnknown nodeType else view
    let view := view.addNode ⟨digest, nodeType, digest, s!"{label} {short digest}", isKnown, true, none⟩
    (view.addEntry ⟨label, nodeType, digest, true, isKnown, none, context⟩, true)

/-- A digest field without a payload: `_add`, and an edge when it was added. -/
def addReference (view : GraphView) (capsuleId : String) (value : Tree)
    (nodeType label context edge : String) : GraphView :=
  match hex64 value with
  | none => view
  | some digest =>
    let (view, added) := add view digest nodeType label context
    if added then view.addEdge capsuleId digest edge else view

/-- The prior capsule. -/
def addPrior (view : GraphView) (capsuleId : String) (value : Tree) : GraphView :=
  match hex64 value with
  | none => view
  | some priorId =>
    if priorId ∈ view.ids then view
    else (view.addCapsule "prior capsule" priorId).addEdge capsuleId priorId "chains_to"

/-- One round of the loop over agent input and agent output. -/
def addAgentField (view : GraphView) (capsuleId pfx : String) (ca disclosures : Tree)
    (key type label : String) : Option GraphView := do
  let value ← get ca key (.str "")
  match hex64 value with
  | none => return view
  | some digest =>
    if digest ∈ view.ids then return view
    let pre ← get disclosures type .null
    let payload := given pre
    let matchOk := payload.map fun pre => payloadDigest py pre == digest
    let context :=
      if payload.isSome then "payload carried in fragment; recomputed against committed digest"
      else s!"{pfx}compute_attestation — payload not carried in the record"
    let node : GraphNode :=
      ⟨digest, type, digest, s!"{label} {short digest}", true, payload.isNone, payload⟩
    let entry : PrivilegeLogEntry := ⟨label, type, digest, payload.isNone, true, matchOk, context⟩
    return ((view.addNode node).addEntry entry).addEdge capsuleId digest "attests_over"

/-- One round of the loop over the constraints. -/
def addConstraint (capsuleId pfx : String) (view : GraphView) (c : Tree) : Option GraphView := do
  let ev ← get c "evidence_digest" (.str "")
  let cid ← get c "id" (.str "constraint")
  return addReference view capsuleId ev "wicket_manifest" s!"manifest [{py.text cid}]"
    s!"{pfx}constraints[{py.text cid}].evidence_digest" "commits_to"

/-- `_extract_refs` -/
def extractRefs (view : GraphView) (cap : Tree) (capsuleId namePrefix : String) (disclosures : Tree) :
    Option GraphView := do
  let pfx := if namePrefix = "" then "" else s!"{namePrefix}."
  let priorId ← parentCapsuleId cap
  let view := addPrior view capsuleId priorId
  let ma ← get cap "model_attestation" .null
  let ca ← get (orDefault ma (.obj [])) "compute_attestation" .null
  let ca := orDefault ca (.obj [])
  let subj ← get ca "subject_digest" (.str "")
  let view := addReference view capsuleId subj "subject" "subject"
    s!"{pfx}compute_attestation.subject_digest" "attests_over"
  let view ← addAgentField py view capsuleId pfx ca disclosures "agent_input_digest" "agent_input"
    "agent input"
  let view ← addAgentField py view capsuleId pfx ca disclosures "agent_output_digest" "agent_output"
    "agent output"
  let effect ← get cap "effect" .null
  let respDigest ← get (orDefault effect (.obj [])) "response_digest" (.str "")
  let view := addReference view capsuleId respDigest "response" "response" s!"{pfx}effect.response_digest"
    "effect_response"
  let constraints ← get cap "constraints" .null
  let constraints ← iterate (orDefault constraints (.arr []))
  constraints.foldlM (addConstraint py capsuleId pfx) view

/-- `disclosures if isinstance(disclosures, dict) else None`, and `None` as `{}`. -/
def dictOrEmpty : Option Tree → Tree
  | some (.obj fields) => .obj fields
  | _ => .obj []

/-- `_parse_single` -/
def parseSingle (cap disclosures : Tree) : Option GraphView := do
  let view : GraphView := { isBinding := false, rawCapsules := [cap] }
  let value ← get cap "capsule_id" (.str "")
  match hex64 value with
  | none => return { view with parseError := some (.capsuleId value) }
  | some capsuleId => extractRefs py (view.addCapsule "capsule" capsuleId) cap capsuleId "" disclosures

/-- One side of a binding: its capsule, when its id is well-formed. -/
def extractSide (view : GraphView) (cap : Tree) (id : Option String) (side : String)
    (disclosures : Tree) : Option GraphView :=
  match id with
  | none => some view
  | some capsuleId => extractRefs py view cap capsuleId side (dictOrEmpty (disclosures.member? side))

/-- The sealed terms of a binding. -/
def addTerms (view : GraphView) (sealedHash : String) (terms : Option Tree) : GraphView :=
  let matchOk := terms.map fun terms => jsonDigest py terms == sealedHash
  let node : GraphNode := ⟨sealedHash, "offer_terms", sealedHash, s!"offer terms {short sealedHash}", true,
    terms.isNone, terms⟩
  (view.addNode node).addEntry
    ⟨"sealed_terms_hash", "offer_terms", sealedHash, terms.isNone, true, matchOk, "binding.sealed_terms_hash"⟩

/-- The node of a capsule whose id is well-formed. -/
def addCapsule? (view : GraphView) (what : String) (id : Option String) : GraphView :=
  id.elim view fun id => view.addCapsule what id

/-- An edge from a capsule whose id is well-formed. -/
def addEdgeFrom (view : GraphView) (id : Option String) (toId label : String) : GraphView :=
  id.elim view fun id => view.addEdge id toId label

/-- The sealed terms, with the edges from both capsules. -/
def addSealed (view : GraphView) (buyerId sellerId sealedHash : Option String) (terms : Option Tree) :
    GraphView :=
  sealedHash.elim view fun sealedHash =>
    addEdgeFrom (addEdgeFrom (addTerms py view sealedHash terms) buyerId sealedHash "attests_over") sellerId
      sealedHash "attests_over"

/-- The nodes of a binding: both capsules and the sealed terms. -/
def startBinding (raw : List Tree) (buyerId sellerId sealedHash : Option String) (terms : Option Tree) :
    GraphView :=
  let view : GraphView := { isBinding := true, rawCapsules := raw.filter truthy }
  let view := addCapsule? (addCapsule? view "buyer capsule" buyerId) "seller capsule" sellerId
  let view := addSealed py view buyerId sellerId sealedHash terms
  buyerId.elim view fun buyer => addEdgeFrom view sellerId buyer "chains_to"

/-- `_parse_binding` -/
def parseBinding (data : Tree) : Option GraphView := do
  let buyerCap ← get data "buyer_capsule" .null
  let buyerCap := orDefault buyerCap (.obj [])
  let sellerCap ← get data "seller_capsule" .null
  let sellerCap := orDefault sellerCap (.obj [])
  let buyerId ← get buyerCap "capsule_id" (.str "")
  let sellerId ← get sellerCap "capsule_id" (.str "")
  let sealedHash ← get data "sealed_terms_hash" (.str "")
  let terms ← get data "terms" .null
  let view := startBinding py [buyerCap, sellerCap] (hex64 buyerId) (hex64 sellerId) (hex64 sealedHash)
    (given terms)
  let disclosures := dictOrEmpty (data.member? "disclosures")
  let view ← extractSide py view buyerCap (hex64 buyerId) "buyer" disclosures
  extractSide py view sellerCap (hex64 sellerId) "seller" disclosures

/-- `parse_capsule` -/
def parseCapsule (data : Tree) : Option GraphView :=
  match data with
  | .obj _ =>
    if (data.member? "buyer_capsule").isSome && (data.member? "seller_capsule").isSome then
      parseBinding py data
    else
      match data.member? "capsule" with
      | some (.obj fields) => parseSingle py (.obj fields) (dictOrEmpty (data.member? "disclosures"))
      | _ =>
        if (data.member? "capsule_id").isSome then parseSingle py data (.obj [])
        else some { isBinding := false, parseError := some .notRecognised }
  | _ => some { isBinding := false, parseError := some .notObject }

end Source

/-! ## What an item discloses -/

/-- How a disclosed value is hashed: a payload of an agent, or the terms of a binding. -/
inductive Kind where
  | agentField
  | terms

/-- A disclosed value with the digest committed to it, the digests of the item met before, and whether the
fields of its capsule are read at all. -/
structure Disclosure where
  kind : Kind
  digest : String
  value : Tree
  before : List String
  reached : Bool

/-- The digest of the disclosed value. -/
def Disclosure.recomputed (py : Python) (d : Disclosure) : String :=
  match d.kind with
  | .agentField => payloadDigest py d.value
  | .terms => jsonDigest py d.value

/-- Whether the disclosed value is hashed: its digest has no node yet. -/
def Disclosure.Hashed (d : Disclosure) : Prop := d.reached = true ∧ d.digest ∉ d.before

instance (d : Disclosure) : Decidable d.Hashed := inferInstanceAs (Decidable (_ ∧ _))

/-- The digest at a path of a capsule, if it is well-formed. -/
def digestAt (path : List String) (cap : Tree) : Option String := (cap.at? path).bind hex64

/-- The paths of the digests of a capsule that are read before the agent's input. -/
def parentPath : List String := ["chain", "parent_capsule_id"]

/-- A field of the compute attestation. -/
def attestationPath (key : String) : List String := ["model_attestation", "compute_attestation", key]

/-- The evidence digests of the constraints. -/
def evidence (cap : Tree) : List String :=
  match cap.member? "constraints" with
  | some (.arr items) => items.filterMap (digestAt ["evidence_digest"])
  | _ => []

/-- The digests of a capsule up to the subject's. -/
def leadingDigests (cap : Tree) : List String :=
  (digestAt parentPath cap).toList ++ (digestAt (attestationPath "subject_digest") cap).toList

/-- All digests of a capsule, in the order they are met. -/
def digests (cap : Tree) : List String :=
  leadingDigests cap ++ (digestAt (attestationPath "agent_input_digest") cap).toList ++
    (digestAt (attestationPath "agent_output_digest") cap).toList ++
    (digestAt ["effect", "response_digest"] cap).toList ++ evidence cap

/-- A disclosed payload of an agent. -/
def agentDisclosure (reached : Bool) (before : List String) (digest : Option String) (value : Option Tree) :
    List Disclosure :=
  match digest, value with
  | some digest, some value => [⟨.agentField, digest, value, before, reached⟩]
  | _, _ => []

/-- What is disclosed for a capsule, after the digests met before it. -/
def capsuleDisclosures (reached : Bool) (before : List String) (cap disclosures : Tree) : List Disclosure :=
  let input := digestAt (attestationPath "agent_input_digest") cap
  let before := before ++ leadingDigests cap
  agentDisclosure reached before input ((disclosures.member? "agent_input").bind given) ++
    agentDisclosure reached (before ++ input.toList)
      (digestAt (attestationPath "agent_output_digest") cap)
      ((disclosures.member? "agent_output").bind given)

/-! ## The entries with a result -/

/-- The entries of the privilege log that carry a result. -/
def GraphView.checked (view : GraphView) : List (String × Bool) :=
  view.privilegeLog.filterMap fun e => e.matchOk.map fun ok => (e.digest, ok)

/-- The result of a disclosure that is hashed. -/
def Disclosure.result (py : Python) (d : Disclosure) : List (String × Bool) :=
  if d.Hashed then [(d.digest, d.recomputed py == d.digest)] else []

/-- A view with more nodes and entries. -/
structure Extends (view view' : GraphView) (added : List String) (results : List (String × Bool)) : Prop where
  mem_ids : ∀ d, d ∈ view'.ids ↔ d ∈ view.ids ∨ d ∈ added
  checked_eq : view'.checked = view.checked ++ results

namespace Extends

variable {view view' view'' : GraphView} {added added' : List String} {results results' : List (String × Bool)}

theorem refl (view : GraphView) : Extends view view [] [] :=
  ⟨fun d => by simp, by simp⟩

theorem trans (h : Extends view view' added results) (h' : Extends view' view'' added' results') :
    Extends view view'' (added ++ added') (results ++ results') := by
  constructor
  · intro d
    rw [h'.mem_ids, h.mem_ids, List.mem_append, or_assoc]
  · rw [h'.checked_eq, h.checked_eq, List.append_assoc]

/-- A digest that has a node already. -/
theorem of_mem {digest : String} (h : digest ∈ view.ids) : Extends view view [digest] [] := by
  refine ⟨fun d => ?_, by simp⟩
  rw [List.mem_singleton]
  constructor
  · exact .inl
  · rintro (hd | rfl)
    · exact hd
    · exact h

theorem addEdge (h : Extends view view' added results) (fromId toId label : String) :
    Extends view (view'.addEdge fromId toId label) added results := ⟨h.mem_ids, h.checked_eq⟩

theorem addUnknown (view : GraphView) (nodeType : String) : Extends view (view.addUnknown nodeType) [] [] :=
  ⟨(refl view).mem_ids, (refl view).checked_eq⟩

theorem addNode (view : GraphView) (node : GraphNode) : Extends view (view.addNode node) [node.id] [] := by
  refine ⟨fun d => ?_, by simp [GraphView.checked, GraphView.addNode]⟩
  simp [GraphView.ids, GraphView.addNode, eq_comm]

theorem addEntry (view : GraphView) (entry : PrivilegeLogEntry) :
    Extends view (view.addEntry entry) [] (entry.matchOk.map fun ok => (entry.digest, ok)).toList := by
  refine ⟨fun d => by simp [GraphView.ids, GraphView.addEntry], ?_⟩
  rw [GraphView.checked, GraphView.addEntry, List.filterMap_append]
  cases hok : entry.matchOk <;> simp [GraphView.checked, hok]

end Extends

/-! ## Reading a capsule -/

theorem get_eq_some_iff {t value default : Tree} {key : String} :
    get t key default = some value ↔
      ∃ fields, t = .obj fields ∧ ((Tree.obj fields).member? key).getD default = value := by
  cases t <;> simp [get, Tree.member?]

@[simp] theorem hex64_null : hex64 .null = none := rfl

@[simp] theorem hex64_empty : hex64 (.str "") = none := rfl

/-- A digest read with a default that is none. -/
theorem hex64_of_get {t value : Tree} {key : String} (h : get t key (.str "") = some value) :
    hex64 value = digestAt [key] t := by
  obtain ⟨fields, rfl, rfl⟩ := get_eq_some_iff.mp h
  unfold digestAt Tree.at?
  cases (Tree.obj fields).member? key <;> rfl

/-- A value that is not true has no members. -/
theorem member?_of_not_truthy {t : Tree} (h : truthy t = false) (key : String) : t.member? key = none := by
  cases t with
  | obj fields =>
      have hnil : fields = [] := by simpa [truthy] using h
      rw [hnil]
      rfl
  | _ => rfl

/-- `get(...) or {}` on the way down a path. -/
theorem at?_of_get {t m : Tree} {key key' : String} (h : get t key .null = some m) (path : List String) :
    t.at? (key :: key' :: path) = (orDefault m (.obj [])).at? (key' :: path) := by
  obtain ⟨fields, rfl, rfl⟩ := get_eq_some_iff.mp h
  have hdefault : ∀ u : Tree, (orDefault u (.obj [])).at? (key' :: path) = u.at? (key' :: path) := by
    intro u
    unfold orDefault
    split_ifs with htruthy
    · rfl
    · rw [Tree.at?, Tree.at?, member?_of_not_truthy (Bool.eq_false_of_not_eq_true htruthy)]
      rfl
  rw [hdefault, Tree.at?]
  cases (Tree.obj fields).member? key <;> rfl

theorem hex64_of_parentCapsuleId {cap value : Tree} (h : parentCapsuleId cap = some value) :
    hex64 value = digestAt parentPath cap := by
  obtain ⟨chain, hchain, hvalue⟩ := Option.bind_eq_some_iff.mp h
  rw [hex64_of_get hvalue, digestAt, digestAt, parentPath, at?_of_get hchain]

theorem at?_attestation {cap ma ca : Tree} (hma : get cap "model_attestation" .null = some ma)
    (hca : get (orDefault ma (.obj [])) "compute_attestation" .null = some ca) (key : String) :
    digestAt [key] (orDefault ca (.obj [])) = digestAt (attestationPath key) cap := by
  rw [digestAt, digestAt, attestationPath, at?_of_get hma, at?_of_get hca]

theorem evidence_eq {cap constraints : Tree} {items : List Tree}
    (hget : get cap "constraints" .null = some constraints)
    (hitems : iterate (orDefault constraints (.arr [])) = some items) :
    items.filterMap (digestAt ["evidence_digest"]) = evidence cap := by
  obtain ⟨fields, rfl, rfl⟩ := get_eq_some_iff.mp hget
  -- what is no array yields texts, and a text has no members
  have htexts : ∀ {α : Type} (f : α → String) (xs : List α),
      (xs.map fun x => Tree.str (f x)).filterMap (digestAt ["evidence_digest"]) = [] := by
    intro α f xs
    rw [List.filterMap_eq_nil_iff]
    intro t ht
    obtain ⟨x, -, rfl⟩ := List.mem_map.mp ht
    rfl
  have hfalse : ∀ {u : Tree}, truthy u = false → iterate (orDefault u (.arr [])) = some [] := by
    intro u hu
    rw [orDefault, hu]
    rfl
  unfold evidence
  cases hmember : (Tree.obj fields).member? "constraints" with
  | none =>
      rw [hmember, Option.getD_none, hfalse rfl] at hitems
      rw [← Option.some.inj hitems]
      rfl
  | some u =>
      rw [hmember, Option.getD_some] at hitems
      by_cases htruthy : truthy u = true
      · rw [orDefault, if_pos htruthy] at hitems
        cases u with
        | arr xs => rw [← Option.some.inj hitems]
        | obj members => rw [← Option.some.inj hitems]; exact htexts Prod.fst members
        | str s => rw [← Option.some.inj hitems]; exact htexts (fun c => String.ofList [c]) s.toList
        | _ => cases hitems
      · have hf := Bool.eq_false_of_not_eq_true htruthy
        rw [hfalse hf] at hitems
        rw [← Option.some.inj hitems]
        cases u with
        | arr xs =>
            have hnil : xs = [] := by simpa [truthy] using hf
            rw [hnil]
        | _ => rfl

/-! ## What the parser adds -/

theorem extends_add (view : GraphView) (digest nodeType label context : String) :
    Extends view (add view digest nodeType label context).1 [digest] [] := by
  unfold add
  by_cases hmem : digest ∈ view.ids
  · rw [if_pos hmem]
    exact .of_mem hmem
  · rw [if_neg hmem]
    dsimp only
    split_ifs
    · exact ((Extends.addUnknown view nodeType).trans (Extends.addNode _ _)).trans (Extends.addEntry _ _)
    · exact (Extends.addNode _ _).trans (Extends.addEntry _ _)

theorem extends_addReference (view : GraphView) (capsuleId : String) (value : Tree)
    (nodeType label context edge : String) :
    Extends view (addReference view capsuleId value nodeType label context edge) (hex64 value).toList [] := by
  unfold addReference
  cases hex64 value with
  | none => exact .refl view
  | some digest =>
      have hadd := extends_add view digest nodeType label context
      dsimp only
      split_ifs
      · exact hadd.addEdge _ _ _
      · exact hadd

theorem extends_addPrior (view : GraphView) (capsuleId : String) (value : Tree) :
    Extends view (addPrior view capsuleId value) (hex64 value).toList [] := by
  unfold addPrior
  cases hex64 value with
  | none => exact .refl view
  | some priorId =>
      dsimp only
      split_ifs with hmem
      · exact .of_mem hmem
      · exact (Extends.addNode _ _).addEdge _ _ _

/-- A payload is hashed when its digest has no node. -/
theorem extends_addAgentField {py : Python} {view view' : GraphView} {capsuleId pfx : String}
    {ca : Tree} {fields : List (String × Tree)} {key type label : String} {before : List String}
    (hbefore : ∀ d, d ∈ view.ids ↔ d ∈ before)
    (h : addAgentField py view capsuleId pfx ca (.obj fields) key type label = some view') :
    Extends view view' (digestAt [key] ca).toList
      ((agentDisclosure true before (digestAt [key] ca)
        (((Tree.obj fields).member? type).bind given)).flatMap (Disclosure.result py)) := by
  obtain ⟨value, hvalue, h⟩ := Option.bind_eq_some_iff.mp h
  rw [← hex64_of_get hvalue]
  cases hdigest : hex64 value with
  | none =>
      rw [hdigest] at h
      obtain rfl := Option.some.inj h
      exact .refl view
  | some digest =>
      rw [hdigest] at h
      dsimp only at h
      by_cases hmem : digest ∈ view.ids
      · -- passed over, with whatever is disclosed
        rw [if_pos hmem] at h
        obtain rfl := Option.some.inj h
        have hskip : (agentDisclosure true before (some digest)
            (((Tree.obj fields).member? type).bind given)).flatMap (Disclosure.result py) = [] := by
          cases ((Tree.obj fields).member? type).bind given with
          | none => rfl
          | some value =>
              have hnot : ¬ (⟨.agentField, digest, value, before, true⟩ : Disclosure).Hashed :=
                fun hhashed => hhashed.2 ((hbefore digest).mp hmem)
              simp [agentDisclosure, Disclosure.result, hnot]
        rw [hskip]
        exact .of_mem hmem
      · rw [if_neg hmem] at h
        obtain ⟨pre, hpre, h⟩ := Option.bind_eq_some_iff.mp h
        obtain rfl := Option.some.inj h
        obtain ⟨_, hfields, rfl⟩ := get_eq_some_iff.mp hpre
        obtain rfl := Tree.obj.inj hfields
        have hgiven : given (((Tree.obj fields).member? type).getD .null) =
            ((Tree.obj fields).member? type).bind given := by
          cases (Tree.obj fields).member? type <;> rfl
        rw [hgiven]
        generalize ((Tree.obj fields).member? type).bind given = payload
        have hresult : (agentDisclosure true before (some digest) payload).flatMap (Disclosure.result py) =
            (payload.map fun pre => (digest, payloadDigest py pre == digest)).toList := by
          cases payload with
          | none => rfl
          | some value =>
              have hhashed : (⟨.agentField, digest, value, before, true⟩ : Disclosure).Hashed :=
                ⟨rfl, fun hd => hmem ((hbefore digest).mpr hd)⟩
              simp [agentDisclosure, Disclosure.result, hhashed, Disclosure.recomputed]
        rw [hresult]
        refine Extends.addEdge ?_ _ _ _
        have hadd := (Extends.addNode view ⟨digest, type, digest, s!"{label} {short digest}", true,
          payload.isNone, payload⟩).trans (Extends.addEntry _ ⟨label, type, digest, payload.isNone, true,
            payload.map fun pre => payloadDigest py pre == digest, if payload.isSome then
              "payload carried in fragment; recomputed against committed digest"
            else s!"{pfx}compute_attestation — payload not carried in the record"⟩)
        rw [Option.map_map] at hadd
        exact hadd

theorem extends_addConstraints {py : Python} {capsuleId pfx : String} {items : List Tree}
    {view view' : GraphView} (h : items.foldlM (addConstraint py capsuleId pfx) view = some view') :
    Extends view view' (items.filterMap (digestAt ["evidence_digest"])) [] := by
  induction items generalizing view with
  | nil =>
      obtain rfl := Option.some.inj h
      exact .refl view
  | cons c items ih =>
      rw [List.foldlM_cons] at h
      obtain ⟨next, hnext, hrest⟩ := Option.bind_eq_some_iff.mp h
      obtain ⟨ev, hev, hnext⟩ := Option.bind_eq_some_iff.mp hnext
      obtain ⟨cid, -, hnext⟩ := Option.bind_eq_some_iff.mp hnext
      obtain rfl := Option.some.inj hnext
      have hadd := (extends_addReference view capsuleId ev "wicket_manifest"
        s!"manifest [{py.text cid}]" s!"{pfx}constraints[{py.text cid}].evidence_digest"
        "commits_to").trans (ih hrest)
      rw [hex64_of_get hev] at hadd
      rw [List.filterMap_cons]
      cases hd : digestAt ["evidence_digest"] c with
      | none => rw [hd] at hadd; exact hadd
      | some digest => rw [hd] at hadd; exact hadd

/-- What the fields of a capsule add to a view. -/
theorem extends_extractRefs {py : Python} {view view' : GraphView} {cap : Tree}
    {capsuleId namePrefix : String} {fields : List (String × Tree)} {before : List String}
    (hbefore : ∀ d, d ∈ view.ids ↔ d ∈ before)
    (h : extractRefs py view cap capsuleId namePrefix (.obj fields) = some view') :
    Extends view view' (digests cap)
      ((capsuleDisclosures true before cap (.obj fields)).flatMap (Disclosure.result py)) := by
  obtain ⟨priorId, hprior, h⟩ := Option.bind_eq_some_iff.mp h
  obtain ⟨ma, hma, h⟩ := Option.bind_eq_some_iff.mp h
  obtain ⟨ca, hca, h⟩ := Option.bind_eq_some_iff.mp h
  obtain ⟨subj, hsubj, h⟩ := Option.bind_eq_some_iff.mp h
  obtain ⟨view3, hinput, h⟩ := Option.bind_eq_some_iff.mp h
  obtain ⟨view4, houtput, h⟩ := Option.bind_eq_some_iff.mp h
  obtain ⟨effect, heffect, h⟩ := Option.bind_eq_some_iff.mp h
  obtain ⟨resp, hresp, h⟩ := Option.bind_eq_some_iff.mp h
  obtain ⟨constraints, hconstraints, h⟩ := Option.bind_eq_some_iff.mp h
  obtain ⟨items, hitems, h⟩ := Option.bind_eq_some_iff.mp h
  have hlead : ∀ context, Extends view (addReference (addPrior view capsuleId priorId) capsuleId subj
      "subject" "subject" context "attests_over") (leadingDigests cap) [] := by
    intro context
    have hboth := (extends_addPrior view capsuleId priorId).trans (extends_addReference
      (addPrior view capsuleId priorId) capsuleId subj "subject" "subject" context "attests_over")
    rwa [hex64_of_parentCapsuleId hprior, hex64_of_get hsubj, at?_attestation hma hca] at hboth
  have hin := @extends_addAgentField py _ _ _ _ _ _ _ _ _ (before ++ leadingDigests cap) (fun d => by
    rw [(hlead _).mem_ids d, hbefore d, List.mem_append]) hinput
  rw [at?_attestation hma hca] at hin
  have hout := @extends_addAgentField py _ _ _ _ _ _ _ _ _ (before ++ leadingDigests cap ++
      (digestAt (attestationPath "agent_input_digest") cap).toList) (fun d => by
    rw [((hlead _).trans hin).mem_ids d, hbefore d]
    simp only [List.mem_append, or_assoc]) houtput
  rw [at?_attestation hma hca] at hout
  have hresp' : hex64 resp = digestAt ["effect", "response_digest"] cap := by
    rw [hex64_of_get hresp, digestAt, digestAt, at?_of_get heffect]
  have hrest := (extends_addReference view4 capsuleId resp "response" "response" _
    "effect_response").trans (extends_addConstraints h)
  rw [hresp', evidence_eq hconstraints hitems] at hrest
  have hall := (((hlead _).trans hin).trans hout).trans hrest
  rw [List.append_nil, List.nil_append, ← List.flatMap_append] at hall
  rw [digests, capsuleDisclosures]
  simpa only [List.append_assoc, List.append_nil] using hall

/-! ## What an item discloses -/

/-- One side of a binding: its capsule and the disclosures for it. -/
def sideCapsule (data : Tree) (key : String) : Tree := orDefault ((data.member? key).getD .null) (.obj [])

def sideDisclosures (data : Tree) (side : String) : Tree :=
  dictOrEmpty ((dictOrEmpty (data.member? "disclosures")).member? side)

/-- The id of a capsule. -/
def capsuleId (cap : Tree) : Option String := digestAt ["capsule_id"] cap

/-- Disclosed terms; they are hashed whatever nodes there are. -/
def termsDisclosure (digest : Option String) (terms : Option Tree) : List Disclosure :=
  match digest, terms with
  | some digest, some terms => [⟨.terms, digest, terms, [], true⟩]
  | _, _ => []

/-- What a binding discloses: its terms, then the payloads of either side. -/
def bindingDisclosures (data : Tree) : List Disclosure :=
  let buyer := sideCapsule data "buyer_capsule"
  let seller := sideCapsule data "seller_capsule"
  let sealedHash := digestAt ["sealed_terms_hash"] data
  let before := (capsuleId buyer).toList ++ (capsuleId seller).toList
  let before := before ++ sealedHash.toList
  let buyerDigests := if (capsuleId buyer).isSome then digests buyer else []
  termsDisclosure sealedHash ((data.member? "terms").bind given) ++
    capsuleDisclosures (capsuleId buyer).isSome before buyer (sideDisclosures data "buyer") ++
    capsuleDisclosures (capsuleId seller).isSome (before ++ buyerDigests) seller
      (sideDisclosures data "seller")

/-- What an item of a bundle discloses. -/
def disclosures (data : Tree) : List Disclosure :=
  if (data.member? "buyer_capsule").isSome && (data.member? "seller_capsule").isSome then
    bindingDisclosures data
  else
    match data.member? "capsule" with
    | some (.obj fields) =>
      let cap : Tree := .obj fields
      capsuleDisclosures (capsuleId cap).isSome (capsuleId cap).toList cap
        (dictOrEmpty (data.member? "disclosures"))
    | _ => []

theorem exists_dictOrEmpty (t : Option Tree) : ∃ fields, dictOrEmpty t = .obj fields := by
  unfold dictOrEmpty
  split
  · exact ⟨_, rfl⟩
  · exact ⟨[], rfl⟩

/-- The payloads of a capsule whose fields are not read are not hashed. -/
theorem results_of_not_reached (py : Python) (before : List String) (cap disclosures : Tree) :
    (capsuleDisclosures false before cap disclosures).flatMap (Disclosure.result py) = [] := by
  have hfield : ∀ before digest value,
      (agentDisclosure false before digest value).flatMap (Disclosure.result py) = [] := by
    intro before digest value
    unfold agentDisclosure
    split
    · simp [Disclosure.result, Disclosure.Hashed]
    · rfl
  rw [capsuleDisclosures, List.flatMap_append, hfield, hfield]
  rfl

theorem extends_addCapsule (view : GraphView) (what id : String) :
    Extends view (view.addCapsule what id) [id] [] := Extends.addNode _ _

theorem extends_extractSide {py : Python} {view view' : GraphView} {cap disclosures : Tree} {side : String}
    {before : List String} (hbefore : ∀ d, d ∈ view.ids ↔ d ∈ before)
    (h : extractSide py view cap (capsuleId cap) side disclosures = some view') :
    Extends view view' (if (capsuleId cap).isSome then digests cap else [])
      ((capsuleDisclosures (capsuleId cap).isSome before cap
        (dictOrEmpty (disclosures.member? side))).flatMap (Disclosure.result py)) := by
  cases hid : capsuleId cap with
  | none =>
      rw [hid] at h
      obtain rfl := Option.some.inj h
      rw [Option.isSome_none, results_of_not_reached]
      exact .refl view
  | some id =>
      rw [hid] at h
      obtain ⟨fields, hfields⟩ := exists_dictOrEmpty (disclosures.member? side)
      rw [extractSide, hfields] at h
      rw [hfields, Option.isSome_some, if_pos rfl]
      exact extends_extractRefs hbefore h

theorem extends_addTerms (py : Python) (view : GraphView) (digest : String) (terms : Option Tree) :
    Extends view (addTerms py view digest terms) [digest]
      (terms.map fun terms => (digest, jsonDigest py terms == digest)).toList := by
  have hadd := (Extends.addNode view ⟨digest, "offer_terms", digest, s!"offer terms {short digest}", true,
    terms.isNone, terms⟩).trans (Extends.addEntry _ ⟨"sealed_terms_hash", "offer_terms", digest,
      terms.isNone, true, terms.map fun terms => jsonDigest py terms == digest,
      "binding.sealed_terms_hash"⟩)
  rw [Option.map_map] at hadd
  exact hadd

theorem checked_of_parseSingle {py : Python} {cap : Tree} {fields : List (String × Tree)} {view : GraphView}
    (h : parseSingle py cap (.obj fields) = some view) :
    view.checked = (capsuleDisclosures (capsuleId cap).isSome (capsuleId cap).toList cap
      (.obj fields)).flatMap (Disclosure.result py) := by
  obtain ⟨value, hvalue, h⟩ := Option.bind_eq_some_iff.mp h
  have hid : hex64 value = capsuleId cap := hex64_of_get hvalue
  rw [← hid]
  cases hdigest : hex64 value with
  | none =>
      rw [hdigest] at h
      obtain rfl := Option.some.inj h
      rw [Option.isSome_none, results_of_not_reached]
      rfl
  | some id =>
      rw [hdigest] at h
      have hrefs := @extends_extractRefs py _ _ _ _ _ _ [id] (fun d => by
        rw [(extends_addCapsule _ _ _).mem_ids d]
        exact or_iff_right List.not_mem_nil) h
      exact hrefs.checked_eq

theorem extends_addCapsule? (view : GraphView) (what : String) (id : Option String) :
    Extends view (addCapsule? view what id) id.toList [] := by
  cases id with
  | none => exact .refl view
  | some id => exact extends_addCapsule view what id

theorem Extends.addEdgeFrom {view view' : GraphView} {added : List String} {results : List (String × Bool)}
    (h : Extends view view' added results) (id : Option String) (toId label : String) :
    Extends view (addEdgeFrom view' id toId label) added results := by
  cases id with
  | none => exact h
  | some id => exact h.addEdge _ _ _

theorem extends_addSealed (py : Python) (view : GraphView) (buyerId sellerId sealedHash : Option String)
    (terms : Option Tree) :
    Extends view (addSealed py view buyerId sellerId sealedHash terms) sealedHash.toList
      (sealedHash.elim [] fun digest =>
        (terms.map fun terms => (digest, jsonDigest py terms == digest)).toList) := by
  cases sealedHash with
  | none => exact .refl view
  | some digest => exact ((extends_addTerms py view digest terms).addEdgeFrom _ _ _).addEdgeFrom _ _ _

theorem extends_startBinding (py : Python) (raw : List Tree) (buyerId sellerId sealedHash : Option String)
    (terms : Option Tree) :
    Extends { isBinding := true, rawCapsules := raw.filter truthy }
      (startBinding py raw buyerId sellerId sealedHash terms)
      (buyerId.toList ++ sellerId.toList ++ sealedHash.toList)
      (sealedHash.elim [] fun digest =>
        (terms.map fun terms => (digest, jsonDigest py terms == digest)).toList) := by
  have hnodes := ((extends_addCapsule? { isBinding := true, rawCapsules := raw.filter truthy }
    "buyer capsule" buyerId).trans (extends_addCapsule? _ "seller capsule" sellerId)).trans
      (extends_addSealed py _ buyerId sellerId sealedHash terms)
  unfold startBinding
  cases buyerId with
  | none => exact hnodes
  | some buyer => exact hnodes.addEdgeFrom _ _ _

theorem checked_of_parseBinding {py : Python} {data : Tree} {view : GraphView}
    (h : parseBinding py data = some view) :
    view.checked = (bindingDisclosures data).flatMap (Disclosure.result py) := by
  obtain ⟨buyer, hbuyer, h⟩ := Option.bind_eq_some_iff.mp h
  obtain ⟨seller, hseller, h⟩ := Option.bind_eq_some_iff.mp h
  obtain ⟨buyerId, hbuyerId, h⟩ := Option.bind_eq_some_iff.mp h
  obtain ⟨sellerId, hsellerId, h⟩ := Option.bind_eq_some_iff.mp h
  obtain ⟨sealedHash, hsealed, h⟩ := Option.bind_eq_some_iff.mp h
  obtain ⟨terms, hterms, h⟩ := Option.bind_eq_some_iff.mp h
  obtain ⟨view', hfirst, hlast⟩ := Option.bind_eq_some_iff.mp h
  obtain ⟨fields, rfl, rfl⟩ := get_eq_some_iff.mp hbuyer
  obtain ⟨_, hfields, rfl⟩ := get_eq_some_iff.mp hseller
  obtain rfl := Tree.obj.inj hfields
  obtain ⟨_, hfields, rfl⟩ := get_eq_some_iff.mp hterms
  obtain rfl := Tree.obj.inj hfields
  rw [hex64_of_get hbuyerId, hex64_of_get hsellerId, hex64_of_get hsealed] at hfirst
  rw [hex64_of_get hsellerId] at hlast
  have hgiven : given (((Tree.obj fields).member? "terms").getD .null) =
      ((Tree.obj fields).member? "terms").bind given := by
    cases (Tree.obj fields).member? "terms" <;> rfl
  rw [hgiven] at hfirst
  have hstart := extends_startBinding py [sideCapsule (.obj fields) "buyer_capsule",
    sideCapsule (.obj fields) "seller_capsule"] (capsuleId (sideCapsule (.obj fields) "buyer_capsule"))
    (capsuleId (sideCapsule (.obj fields) "seller_capsule")) (digestAt ["sealed_terms_hash"] (.obj fields))
    (((Tree.obj fields).member? "terms").bind given)
  have hfirst' := extends_extractSide
    (fun d => (hstart.mem_ids d).trans (or_iff_right List.not_mem_nil)) hfirst
  have hlast' := extends_extractSide
    (fun d => ((hstart.trans hfirst').mem_ids d).trans (or_iff_right List.not_mem_nil)) hlast
  have hterms : ∀ digest terms, (termsDisclosure digest terms).flatMap (Disclosure.result py) =
      digest.elim [] fun digest =>
        (terms.map fun terms => (digest, jsonDigest py terms == digest)).toList := by
    intro digest terms
    cases digest with
    | none => rfl
    | some digest =>
        cases terms with
        | none => rfl
        | some terms => simp [termsDisclosure, Disclosure.result, Disclosure.Hashed, Disclosure.recomputed]
  rw [((hstart.trans hfirst').trans hlast').checked_eq, bindingDisclosures, List.flatMap_append,
    List.flatMap_append, hterms]
  rfl

/-- Nothing is disclosed for a capsule without an envelope. -/
theorem capsuleDisclosures_empty (reached : Bool) (before : List String) (cap : Tree) :
    capsuleDisclosures reached before cap (.obj []) = [] := by
  have hfield : ∀ before digest, agentDisclosure reached before digest none = [] := by
    intro before digest
    cases digest <;> rfl
  exact (congrArg₂ List.append (hfield _ _) (hfield _ _)).trans (List.append_nil [])

/-- The entries with a result are those of the disclosures that are hashed, in order. -/
theorem parseCapsule_spec {py : Python} {data : Tree} {view : GraphView}
    (h : parseCapsule py data = some view) :
    view.checked = (disclosures data).flatMap (Disclosure.result py) := by
  cases data with
  | obj fields =>
      unfold disclosures
      rw [parseCapsule] at h
      by_cases hbinding : (((Tree.obj fields).member? "buyer_capsule").isSome &&
          ((Tree.obj fields).member? "seller_capsule").isSome) = true
      · rw [if_pos hbinding] at h ⊢
        exact checked_of_parseBinding h
      · rw [if_neg hbinding] at h ⊢
        split at h
        · obtain ⟨members, hmembers⟩ := exists_dictOrEmpty ((Tree.obj fields).member? "disclosures")
          rw [hmembers] at h ⊢
          exact checked_of_parseSingle h
        · rw [List.flatMap_nil]
          split_ifs at h
          · rw [checked_of_parseSingle h, capsuleDisclosures_empty, List.flatMap_nil]
          · obtain rfl := Option.some.inj h
            rfl
  | _ =>
      obtain rfl := Option.some.inj h
      rfl

end ScittCose.Aac
