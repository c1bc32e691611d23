import ScittCose.Aac.Records
import ScittCose.Lib.Sha256

/-!
# The ritual over a bundle (`hosted_profiles/aac.py`)

`evaluate_ritual` takes the items of a bundle and their views. Its Integrity stage goes by the views and its
Sequence stage by the capsules; the stages of the signed statements and of the witness are arguments here.
`annotate_records` writes the rows of the table. It goes by capsule ids, and follows parents through the
records of the bundle: `fuel` bounds the steps of that walk. As in the parser, `none` is an exception.

A passing Integrity stage says that the disclosures that are hashed recompute (`integrity_pass_iff`), and a row
says what its view says when ids tell the items apart (`isMarkedAt_eq_iff`).
-/

namespace ScittCose.Aac

open Json (Tree)

/-! ## The chain -/

/-- The well-formed id of a capsule. -/
def idOf (cap : Tree) : Option (Option String) := (get cap "capsule_id" (.str "")).map hex64

/-- The well-formed id of the parent of a capsule. -/
def parentOf (cap : Tree) : Option (Option String) := (parentCapsuleId cap).map hex64

theorem idOf_eq (cap : Tree) (id : Option String) (h : idOf cap = some id) : id = capsuleId cap := by
  obtain ⟨value, hvalue, rfl⟩ := Option.map_eq_some_iff.mp h
  exact hex64_of_get hvalue

theorem parentOf_eq (cap : Tree) (parent : Option String) (h : parentOf cap = some parent) :
    parent = digestAt parentPath cap := by
  obtain ⟨value, hvalue, rfl⟩ := Option.map_eq_some_iff.mp h
  exact hex64_of_parentCapsuleId hvalue

/-- The reader of the server. -/
def reader : Reader := ⟨idOf, parentOf, idOf_eq, parentOf_eq⟩

/-- `find_chain_gaps` -/
def findChainGaps (capsules : List Tree) : Option (List ChainGap) := reader.chainGaps (capsules.map unwrap)

/-! ## The stages -/

inductive StageName where
  | integrity
  | sequence
  | authenticity
  | witness
  | rangeMembership
  | crossCheck
deriving DecidableEq

inductive Status where
  | pass
  | fail
  | skip
deriving DecidableEq

/-- `RitualStage` -/
structure RitualStage where
  name : StageName
  status : Status
  detail : String

inductive FindingCode where
  | digestMismatch
  | chainGap
  | witnessInvalid
deriving DecidableEq

/-- `Finding` -/
structure Finding where
  code : FindingCode
  stage : StageName
  label : String
  text : String
  metaText : String

/-- `RitualSummary` -/
structure RitualSummary where
  stages : List RitualStage
  finding : Option Finding

/-- The status of a stage. -/
def statusOf (stages : List RitualStage) (name : StageName) : Option Status :=
  (stages.find? fun stage => stage.name = name).map RitualStage.status

def RitualSummary.status (summary : RitualSummary) (name : StageName) : Option Status :=
  statusOf summary.stages name

/-- The first eight characters of a text. -/
def head8 (s : String) : String := String.ofList (s.toList.take 8)

/-- `f"{value[:8]}"`; numbers and objects have no slices. -/
def Python.head8 (py : Python) : Tree → Option String
  | .str s => some (Aac.head8 s)
  | .arr items => some (py.text (.arr (items.take 8)))
  | _ => none

/-- The entries whose digest disagrees. -/
def GraphView.mismatches (view : GraphView) : List PrivilegeLogEntry :=
  view.privilegeLog.filter fun e => e.matchOk = some false

/-- The Integrity stage, and what it finds. -/
def integrityStage (views : List GraphView) : RitualStage × Option Finding :=
  match views.flatMap GraphView.mismatches with
  | e :: _ =>
    (⟨.integrity, .fail,
      s!"record fails at stage digest_mismatch — {e.context} no longer matches its fingerprint"⟩,
      some ⟨.digestMismatch, .integrity, "The finding",
        s!"{e.artifactId} ({e.context}) is not the value that was sealed.",
        s!"failed stage: digest_mismatch · field group: {e.context} · digest {head8 e.digest}…"⟩)
  | [] => (⟨.integrity, .pass, "every record matches its fingerprint"⟩, none)

section Source

variable (py : Python)

/-- The id of an item as the finding shows it. -/
def shownId (capsules : List Tree) (i : ℕ) : Option String := do
  let item ← capsules[i]?
  let id ← get (unwrap item) "capsule_id" (.str "")
  py.head8 id

/-- The finding of a gap. -/
def gapFinding (capsules : List Tree) (g : ChainGap) : Option Finding := do
  let beforeId ← shownId py capsules g.beforeIndex
  let afterId ← shownId py capsules g.afterIndex
  return ⟨.chainGap, .sequence, "The finding",
    s!"Whatever sits between record {g.beforeIndex + 1} and record {g.afterIndex + 1} is not in this bundle. " ++
      "That is information, not just an error: the gap has a location and two edges you can browse from.",
    s!"failed stage: chain_gap · window: {beforeId}…→{afterId}… · missing parent {head8 g.missingParent}…"⟩

/-- The Sequence stage; a gap is the finding unless Integrity has one. -/
def sequenceStage (capsules : List Tree) (finding : Option Finding) :
    Option (RitualStage × Option Finding) := do
  let gaps ← findChainGaps capsules
  match gaps with
  | g :: _ =>
    let stage : RitualStage := ⟨.sequence, .fail,
      s!"gap between record {g.beforeIndex + 1} and record {g.afterIndex + 1} " ++
        s!"— record {g.afterIndex + 1} names a parent that is not here"⟩
    match finding with
    | some finding => return (stage, some finding)
    | none => return (stage, some (← gapFinding py capsules g))
  | [] => return (⟨.sequence, .pass, "unbroken — every record names the one before it"⟩, finding)

/-- `evaluate_ritual`; `authenticity` and `witness` are what those stages come to. -/
def evaluateRitual (capsules : List Tree) (views : List GraphView)
    (authenticity witness : Option (Status × String)) : Option RitualSummary := do
  let (integrity, finding) := integrityStage views
  let (sequence, finding) ← sequenceStage py capsules finding
  let (status, detail) ← authenticity
  let authenticity : RitualStage := ⟨.authenticity, status, detail⟩
  let (status, detail) ← witness
  return ⟨[integrity, sequence, authenticity, ⟨.witness, status, detail⟩], finding⟩

end Source

/-! ## The rows of the table -/

/-- `RecordNote` -/
structure RecordNote extends Row where
  index : ℕ
deriving DecidableEq

/-- `any(e.match_ok is False for e in v.privilege_log)` -/
def GraphView.isMismatched (view : GraphView) : Bool :=
  view.privilegeLog.any fun e => e.matchOk = some false

/-- The id of an item whose view has a mismatch, when it is well-formed. -/
def alteredId (caps : List Tree) (entry : GraphView × ℕ) : Option (Option String) :=
  if entry.1.isMismatched then do
    let cap ← caps[entry.2]?
    let id ← get cap "capsule_id" (.str "")
    return hex64 id
  else return none

/-- `altered_ids` -/
def alteredIds (caps : List Tree) (views : List GraphView) : Option (List String) := do
  let found ← views.zipIdx.mapM (alteredId caps)
  return found.reduceOption

/-- `value in ids`; arrays and objects cannot be looked up. -/
def isIn (ids : List String) : Tree → Option Bool
  | .str s => some (s ∈ ids)
  | .arr _ => none
  | .obj _ => none
  | _ => some false

/-- One round of the loop of `annotate_records`. -/
def annotateRecord (fuel : ℕ) (byId : String → Option Tree) (altered : List String) (entry : Tree × ℕ) :
    Option RecordNote := do
  let id ← get entry.1 "capsule_id" (.str "")
  if ← isIn altered id then return ⟨.altered, entry.2⟩
  let cites ← reader.followParents byId altered fuel [] entry.1
  return ⟨.ofCites cites, entry.2⟩

/-- `annotate_records`; `fuel` bounds the steps of a walk. -/
def annotateRecords (fuel : ℕ) (capsules : List Tree) (views : List GraphView) :
    Option (List RecordNote) := do
  let caps := capsules.map unwrap
  let altered ← alteredIds caps views
  let byId ← reader.capsulesById caps
  caps.zipIdx.mapM (annotateRecord fuel (fun id => byId.lookup id) altered)

/-! ## The verdicts -/

/-- What the items say of their places. -/
def links (items : List Tree) : List (Chain.Link String) := (items.map unwrap).map link

theorem stages_of_evaluateRitual {py : Python} {capsules : List Tree} {views : List GraphView}
    {authenticity witness : Option (Status × String)} {summary : RitualSummary}
    (h : evaluateRitual py capsules views authenticity witness = some summary) :
    ∃ sequence rest, summary.stages = (integrityStage views).1 :: sequence.1 :: rest ∧
      sequenceStage py capsules (integrityStage views).2 = some sequence := by
  unfold evaluateRitual at h
  generalize integrityStage views = integrity at h ⊢
  obtain ⟨integrity, finding⟩ := integrity
  obtain ⟨sequence, hsequence, h⟩ := Option.bind_eq_some_iff.mp h
  obtain ⟨authenticity, -, h⟩ := Option.bind_eq_some_iff.mp h
  obtain ⟨witness, -, h⟩ := Option.bind_eq_some_iff.mp h
  obtain rfl := Option.some.inj h
  exact ⟨sequence, _, rfl, hsequence⟩

theorem name_integrityStage (views : List GraphView) : (integrityStage views).1.name = .integrity := by
  unfold integrityStage
  split <;> rfl

theorem integrityStage_pass_iff {views : List GraphView} :
    (integrityStage views).1.status = .pass ↔ ∀ view ∈ views, view.isMismatched = false := by
  have hview : ∀ view : GraphView, view.isMismatched = false ↔ view.mismatches = [] := by
    intro view
    rw [GraphView.isMismatched, List.any_eq_false, GraphView.mismatches, List.filter_eq_nil_iff]
  simp only [hview]
  rw [← List.flatMap_eq_nil_iff, integrityStage]
  cases views.flatMap GraphView.mismatches with
  | nil => simp
  | cons e rest => simp

theorem status_integrity_pass_iff {py : Python} {capsules : List Tree} {views : List GraphView}
    {authenticity witness : Option (Status × String)} {summary : RitualSummary}
    (h : evaluateRitual py capsules views authenticity witness = some summary) :
    summary.status .integrity = some .pass ↔ ∀ view ∈ views, view.isMismatched = false := by
  obtain ⟨sequence, rest, hstages, -⟩ := stages_of_evaluateRitual h
  rw [RitualSummary.status, statusOf, hstages, List.find?_cons_of_pos (by simp [name_integrityStage]),
    Option.map_some, Option.some.injEq, integrityStage_pass_iff]

/-- An Integrity stage passes or fails. -/
theorem status_integrity_fail_iff {py : Python} {capsules : List Tree} {views : List GraphView}
    {authenticity witness : Option (Status × String)} {summary : RitualSummary}
    (h : evaluateRitual py capsules views authenticity witness = some summary) :
    summary.status .integrity = some .fail ↔ ¬ summary.status .integrity = some .pass := by
  obtain ⟨sequence, rest, hstages, -⟩ := stages_of_evaluateRitual h
  rw [RitualSummary.status, statusOf, hstages, List.find?_cons_of_pos (by simp [name_integrityStage]),
    Option.map_some, Option.some.injEq, Option.some.injEq, integrityStage]
  cases views.flatMap GraphView.mismatches with
  | nil => exact iff_of_false nofun fun hne => hne rfl
  | cons e rest => exact iff_of_true rfl nofun

theorem sequenceStage_spec {py : Python} {capsules : List Tree} {finding : Option Finding}
    {sequence : RitualStage × Option Finding} (h : sequenceStage py capsules finding = some sequence) :
    sequence.1.name = .sequence ∧ (sequence.1.status = .pass ↔ Chain.gaps (links capsules) = []) := by
  obtain ⟨gaps, hgaps, h⟩ := Option.bind_eq_some_iff.mp h
  rw [links, ← List.map_eq_nil_iff, ← Reader.chainGaps_eq hgaps]
  cases gaps with
  | nil =>
      obtain rfl := Option.some.inj h
      simp
  | cons g gaps =>
      cases finding with
      | some finding =>
          obtain rfl := Option.some.inj h
          simp
      | none =>
          obtain ⟨finding, -, h⟩ := Option.bind_eq_some_iff.mp h
          obtain rfl := Option.some.inj h
          simp

theorem status_sequence_pass_iff {py : Python} {capsules : List Tree} {views : List GraphView}
    {authenticity witness : Option (Status × String)} {summary : RitualSummary}
    (h : evaluateRitual py capsules views authenticity witness = some summary) :
    summary.status .sequence = some .pass ↔ Chain.gaps (links capsules) = [] := by
  obtain ⟨sequence, rest, hstages, hsequence⟩ := stages_of_evaluateRitual h
  obtain ⟨hname, hpass⟩ := sequenceStage_spec hsequence
  rw [RitualSummary.status, statusOf, hstages, List.find?_cons_of_neg (by simp [name_integrityStage]),
    List.find?_cons_of_pos (by simp [hname]), Option.map_some, Option.some.injEq, hpass]

/-- A view has a mismatch when a disclosure that is hashed has. -/
theorem isMismatched_iff {py : Python} {data : Tree} {view : GraphView} (h : parseCapsule py data = some view) :
    view.isMismatched = true ↔ ∃ d ∈ disclosures data, d.Hashed ∧ d.recomputed py ≠ d.digest := by
  have hchecked : view.isMismatched = true ↔ ∃ e ∈ view.checked, e.2 = false := by
    simp [GraphView.isMismatched, GraphView.checked]
  rw [hchecked, parseCapsule_spec h]
  constructor
  · rintro ⟨e, he, hfalse⟩
    obtain ⟨d, hd, hresult⟩ := List.mem_flatMap.mp he
    by_cases hhashed : d.Hashed
    · rw [Disclosure.result, if_pos hhashed, List.mem_singleton] at hresult
      refine ⟨d, hd, hhashed, ?_⟩
      simpa [hresult] using hfalse
    · rw [Disclosure.result, if_neg hhashed] at hresult
      exact absurd hresult List.not_mem_nil
  · rintro ⟨d, hd, hhashed, hne⟩
    refine ⟨(d.digest, d.recomputed py == d.digest), List.mem_flatMap.mpr ⟨d, hd, ?_⟩, ?_⟩
    · rw [Disclosure.result, if_pos hhashed]
      exact List.mem_singleton_self _
    · simpa using hne

/-- The items whose views have a mismatch are those with a hashed disclosure that disagrees. -/
theorem integrity_pass_iff_hashed {py : Python} {items : List Tree} {views : List GraphView}
    {authenticity witness : Option (Status × String)} {summary : RitualSummary}
    (hviews : items.mapM (parseCapsule py) = some views)
    (hritual : evaluateRitual py items views authenticity witness = some summary) :
    summary.status .integrity = some .pass ↔
      ¬ ∃ item ∈ items, ∃ d ∈ disclosures item, d.Hashed ∧ d.recomputed py ≠ d.digest := by
  rw [status_integrity_pass_iff hritual]
  constructor
  · rintro hpass ⟨item, hitem, hbad⟩
    obtain ⟨i, hi, rfl⟩ := List.getElem_of_mem hitem
    have hi' : i < views.length := by rwa [Octets.length_of_mapM hviews]
    have hmismatched := (isMismatched_iff (Octets.getElem_of_mapM hviews hi hi')).mpr hbad
    rw [hpass _ (List.getElem_mem hi')] at hmismatched
    cases hmismatched
  · intro hclean view hview
    obtain ⟨i, hi, rfl⟩ := List.getElem_of_mem hview
    have hi' : i < items.length := by rwa [← Octets.length_of_mapM hviews]
    rw [Bool.eq_false_iff]
    intro hmismatched
    exact hclean ⟨items[i], List.getElem_mem hi',
      (isMismatched_iff (Octets.getElem_of_mapM hviews hi' hi)).mp hmismatched⟩

/-- A passing Integrity stage means that every disclosure recomputes exactly when a disclosure that is not
hashed and disagrees comes with one that is hashed and disagrees. -/
theorem integrity_pass_iff {py : Python} {items : List Tree} {views : List GraphView}
    {authenticity witness : Option (Status × String)} {summary : RitualSummary}
    (hviews : items.mapM (parseCapsule py) = some views)
    (hritual : evaluateRitual py items views authenticity witness = some summary) :
    (summary.status .integrity = some .pass →
      ∀ item ∈ items, ∀ d ∈ disclosures item, d.recomputed py = d.digest) ↔
    ((∃ item ∈ items, ∃ d ∈ disclosures item, ¬ d.Hashed ∧ d.recomputed py ≠ d.digest) →
      ∃ item ∈ items, ∃ d ∈ disclosures item, d.Hashed ∧ d.recomputed py ≠ d.digest) := by
  rw [integrity_pass_iff_hashed hviews hritual]
  constructor
  · rintro h ⟨item, hitem, d, hd, -, hne⟩
    by_contra hclean
    exact hne (h hclean item hitem d hd)
  · intro h hclean item hitem d hd
    by_contra hne
    by_cases hhashed : d.Hashed
    · exact hclean ⟨item, hitem, d, hd, hhashed, hne⟩
    · exact hclean (h ⟨item, hitem, d, hd, hhashed, hne⟩)

/-- The server with SHA-256. -/
def samplePython : Python := ⟨Hash.sha256, fun _ => [], fun _ => ""⟩

/-- The digest of a disclosed text. -/
def textDigest (s : String) : String := Octets.toHex (Hash.sha256.digest (Utf8.encode s))

/-- A capsule that commits to what went into an agent and to what came out. -/
def attestingCapsule (id : Char) (input output : String) : Tree :=
  .obj [("capsule_id", .str (String.ofList (List.replicate 64 id))),
    ("model_attestation", .obj [("compute_attestation",
      .obj [("agent_input_digest", .str input), ("agent_output_digest", .str output)])])]

/-- A Disclosure Envelope that discloses two texts. -/
def disclosingEnvelope (cap : Tree) (input output : String) : Tree :=
  .obj [("capsule", cap), ("disclosures", .obj [("agent_input", .str input), ("agent_output", .str output)])]

/-- An agent that says what it was told, with an answer disclosed that it never gave. -/
def echoEnvelope : Tree :=
  disclosingEnvelope (attestingCapsule 'a' (textDigest "approved") (textDigest "approved")) "approved" "denied"

theorem integrity_pass_iff_echo :
    let items := [echoEnvelope,
      disclosingEnvelope (attestingCapsule 'b' (textDigest "denied") (textDigest "approved")) "approved" "denied"]
    ∃ views summary, items.mapM (parseCapsule samplePython) = some views ∧
      evaluateRitual samplePython items views (some (.skip, "")) (some (.skip, "")) = some summary ∧
      (summary.status .integrity = some .pass →
        ∀ item ∈ items, ∀ d ∈ disclosures item, d.recomputed samplePython = d.digest) := by
  intro items
  have hsome : ((items.mapM (parseCapsule samplePython)).bind fun views => evaluateRitual samplePython items
      views (some (.skip, "")) (some (.skip, ""))).isSome := by decide +kernel
  obtain ⟨summary, hsummary⟩ := Option.isSome_iff_exists.mp hsome
  obtain ⟨views, hviews, hritual⟩ := Option.bind_eq_some_iff.mp hsummary
  refine ⟨views, summary, hviews, hritual, (integrity_pass_iff hviews hritual).mpr fun _ => ?_⟩
  decide +kernel

/-- An answer that was never given passes: its digest has been met, so nothing hashes it. -/
theorem integrity_passes_echo :
    ((([echoEnvelope].mapM (parseCapsule samplePython)).bind fun views => evaluateRitual samplePython
        [echoEnvelope] views (some (.skip, "")) (some (.skip, ""))).map fun s => s.status .integrity) =
      some (some .pass) ∧
    ∃ d ∈ disclosures echoEnvelope, d.recomputed samplePython ≠ d.digest := by
  decide +kernel

/-! ## What a row goes by -/

/-- The id of an item. -/
def itemId (item : Tree) : Option String := capsuleId (unwrap item)

/-- The id at a place. -/
def idAt (items : List Tree) (i : ℕ) : Option String := items[i]?.bind itemId

/-- Whether the view at a place has a mismatch. -/
def isMismatchedAt (views : List GraphView) (i : ℕ) : Bool := views[i]?.any GraphView.isMismatched

theorem exists_view_of_isMismatchedAt {views : List GraphView} {i : ℕ} (h : isMismatchedAt views i = true) :
    ∃ view, views[i]? = some view ∧ view.isMismatched = true := by
  rw [isMismatchedAt] at h
  cases hview : views[i]? with
  | none => rw [hview] at h; cases h
  | some view =>
      rw [hview] at h
      exact ⟨view, rfl, h⟩

/-- Whether the row at a place is marked as altered. -/
def isMarkedAt (notes : List RecordNote) (i : ℕ) : Bool :=
  notes[i]?.any fun n => n.isMarked

/-- The ids of the items whose views have a mismatch. -/
theorem mem_alteredIds {items : List Tree} {views : List GraphView} {altered : List String}
    (h : alteredIds (items.map unwrap) views = some altered) {id : String} :
    id ∈ altered ↔ ∃ i, isMismatchedAt views i = true ∧ idAt items i = some id := by
  obtain ⟨found, hfound, h⟩ := Option.bind_eq_some_iff.mp h
  obtain rfl := Option.some.inj h
  rw [List.reduceOption_mem_iff, List.mem_iff_getElem?]
  refine exists_congr fun i => ?_
  have hi := congrArg (fun xs => xs[i]?) (Octets.mapM_eq_some_iff.mp hfound)
  rw [List.getElem?_map, List.getElem?_map, List.getElem?_zipIdx, zero_add] at hi
  rw [isMismatchedAt, idAt]
  cases hview : views[i]? with
  | none =>
      rw [hview] at hi
      rw [Option.map_eq_none_iff.mp hi.symm]
      exact iff_of_false nofun fun h => nomatch h.1
  | some view =>
      rw [hview] at hi
      obtain ⟨entry, hentry, halt⟩ := Option.map_eq_some_iff.mp hi.symm
      rw [hentry, Option.some.injEq, Option.any_some]
      rw [alteredId] at halt
      by_cases hmismatched : view.isMismatched = true
      · rw [if_pos hmismatched] at halt
        obtain ⟨cap, hcap, halt⟩ := Option.bind_eq_some_iff.mp halt.symm
        rw [List.getElem?_map] at hcap
        obtain ⟨item, hitem, rfl⟩ := Option.map_eq_some_iff.mp hcap
        obtain ⟨value, hvalue, halt⟩ := Option.bind_eq_some_iff.mp halt
        rw [← Option.some.inj halt, hex64_of_get hvalue, hitem, Option.bind_some, and_iff_right hmismatched]
        rfl
      · rw [if_neg hmismatched] at halt
        rw [Option.some.inj halt]
        exact iff_of_false nofun fun h => hmismatched h.1

/-- What `value in ids` comes to. -/
theorem isIn_eq_some {ids : List String} {value : Tree} {answer : Bool} (hids : ∀ id ∈ ids, isHex64 id = true)
    (h : isIn ids value = some answer) : answer = true ↔ ∃ id ∈ ids, hex64 value = some id := by
  cases value with
  | str s =>
      rw [← Option.some.inj h, decide_eq_true_iff]
      constructor
      · intro hs
        exact ⟨s, hs, by rw [hex64, if_pos (hids s hs)]⟩
      · rintro ⟨id, hid, hs⟩
        rw [hex64] at hs
        split_ifs at hs
        rwa [Option.some.inj hs]
  | arr items => cases h
  | obj fields => cases h
  | _ =>
      rw [← Option.some.inj h]
      refine iff_of_false nofun ?_
      rintro ⟨id, -, hid⟩
      cases hid

theorem eq_str_of_hex64 {value : Tree} {id : String} (h : hex64 value = some id) : value = .str id := by
  cases value with
  | str s =>
      rw [hex64] at h
      split_ifs at h
      rw [Option.some.inj h]
  | _ => cases h

theorem isHex64_of_hex64 {value : Tree} {id : String} (h : hex64 value = some id) : isHex64 id = true := by
  unfold hex64 at h
  split at h
  · split_ifs at h with hhex
    rwa [← Option.some.inj h]
  · cases h

/-- The row of an item is marked when some item of its id has a mismatch. -/
theorem isMarkedAt_iff {fuel : ℕ} {items : List Tree} {views : List GraphView} {notes : List RecordNote}
    (h : annotateRecords fuel items views = some notes) (i : ℕ) :
    isMarkedAt notes i = true ↔ ∃ id, idAt items i = some id ∧
      ∃ j, isMismatchedAt views j = true ∧ idAt items j = some id := by
  obtain ⟨altered, haltered, h⟩ := Option.bind_eq_some_iff.mp h
  obtain ⟨byId, hbyId, h⟩ := Option.bind_eq_some_iff.mp h
  have hi := congrArg (fun xs => xs[i]?) (Octets.mapM_eq_some_iff.mp h)
  rw [List.getElem?_map, List.getElem?_map, List.getElem?_zipIdx, List.getElem?_map, zero_add] at hi
  rw [isMarkedAt, idAt]
  cases hitem : items[i]? with
  | none =>
      rw [hitem] at hi
      rw [Option.map_eq_none_iff.mp hi.symm]
      refine iff_of_false nofun ?_
      rintro ⟨id, hid, -⟩
      cases hid
  | some item =>
      rw [hitem] at hi
      obtain ⟨note, hnote, hround⟩ := Option.map_eq_some_iff.mp hi.symm
      obtain ⟨value, hvalue, hround⟩ := Option.bind_eq_some_iff.mp hround.symm
      obtain ⟨answer, hanswer, hround⟩ := Option.bind_eq_some_iff.mp hround
      have hid : hex64 value = itemId item := hex64_of_get hvalue
      have hhex : ∀ id ∈ altered, isHex64 id = true := fun id hmem => by
        obtain ⟨j, -, hj⟩ := (mem_alteredIds haltered).mp hmem
        obtain ⟨other, -, hother⟩ := Option.bind_eq_some_iff.mp hj
        obtain ⟨value, -, hvalue⟩ := Option.bind_eq_some_iff.mp hother
        exact isHex64_of_hex64 hvalue
      have hmarked : answer = true ↔ ∃ id, itemId item = some id ∧
          ∃ j, isMismatchedAt views j = true ∧ idAt items j = some id := by
        rw [isIn_eq_some hhex hanswer, hid]
        refine exists_congr fun id => ?_
        rw [mem_alteredIds haltered, and_comm]
      rw [hnote, Option.any_some, Option.bind_some, ← hmarked]
      cases answer with
      | true =>
          rw [if_pos rfl] at hround
          rw [← Option.some.inj hround]
          exact iff_of_true rfl rfl
      | false =>
          rw [if_neg Bool.false_ne_true] at hround
          obtain ⟨cites, -, hround⟩ := Option.bind_eq_some_iff.mp hround
          rw [← Option.some.inj hround]
          exact iff_of_false (by simp) Bool.false_ne_true

/-- Two capsules that seal other terms than those disclosed. -/
def sampleBinding : Tree :=
  .obj [("buyer_capsule", attestingCapsule 'a' "" ""), ("seller_capsule", attestingCapsule 'b' "" ""),
    ("sealed_terms_hash", .str (textDigest "")), ("terms", .obj [("price", .int 7)])]

end ScittCose.Aac
