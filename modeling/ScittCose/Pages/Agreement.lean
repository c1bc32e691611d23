import ScittCose.Pages.Citations

/-!
# The verdicts of the capsule page and of the server

The server recomputes the digests of what an item discloses; the capsule page recomputes the ids of capsules.
So the page covers what the server finds exactly when, beside each disclosure that disagrees, an id is refuted
too (`capsulePage_covers_iff`).
-/

namespace ScittCose.Pages

open Json (Tree)
open Aac (hex64 Row Status)

/-! ## What both read -/

/-- The page unwraps as the server does, but for a member `capsule` that is an array. -/
theorem unwrapEnvelope_cases (item : Tree) :
    unwrapEnvelope item = Aac.unwrap item ∨ ∃ items, unwrapEnvelope item = .arr items := by
  unfold unwrapEnvelope isEnvelope Aac.unwrap
  cases item.member? "capsule" with
  | none => exact .inl rfl
  | some t =>
      cases t with
      | arr items => exact .inr ⟨items, rfl⟩
      | _ => exact .inl rfl

/-- An item the server writes a row for: an object whose id can be looked up. -/
def IsRead (item : Tree) : Prop :=
  ∃ fields, Aac.unwrap item = .obj fields ∧
    ∀ value, (Tree.obj fields).member? "capsule_id" = some value →
      (∀ items, value ≠ .arr items) ∧ ∀ fields, value ≠ .obj fields

theorem isRead_of_annotateRecords {fuel : ℕ} {items : List Tree} {views : List Aac.GraphView}
    {notes : List Aac.RecordNote} (h : Aac.annotateRecords fuel items views = some notes) {item : Tree}
    (hitem : item ∈ items) : IsRead item := by
  obtain ⟨altered, -, h⟩ := Option.bind_eq_some_iff.mp h
  obtain ⟨byId, -, h⟩ := Option.bind_eq_some_iff.mp h
  obtain ⟨i, hi⟩ := List.mem_iff_getElem?.mp hitem
  have hround := congrArg (fun xs => xs[i]?) (Octets.mapM_eq_some_iff.mp h)
  rw [List.getElem?_map, List.getElem?_map, List.getElem?_zipIdx, List.getElem?_map, hi] at hround
  obtain ⟨note, -, hnote⟩ := Option.map_eq_some_iff.mp hround.symm
  obtain ⟨value, hvalue, hnote⟩ := Option.bind_eq_some_iff.mp hnote.symm
  obtain ⟨answer, hanswer, -⟩ := Option.bind_eq_some_iff.mp hnote
  obtain ⟨fields, hfields, rfl⟩ := Aac.get_eq_some_iff.mp hvalue
  refine ⟨fields, hfields, fun value hmember => ⟨?_, ?_⟩⟩
  · rintro items rfl
    rw [hmember] at hanswer
    cases hanswer
  · rintro members rfl
    rw [hmember] at hanswer
    cases hanswer

namespace IsRead

variable {item : Tree} (h : IsRead item)

include h

theorem ne_null : unwrapEnvelope item ≠ .null := by
  obtain ⟨fields, hfields, -⟩ := h
  rcases unwrapEnvelope_cases item with heq | ⟨items, heq⟩
  · rw [heq, hfields]
    exact nofun
  · rw [heq]
    exact nofun

/-- The page can look its id up too. -/
theorem isIn_isSome (js : Js) (altered : List String) : ∃ cid answer,
    member (unwrapEnvelope item) "capsule_id" (.str "") = some cid ∧ isIn js altered cid = some answer := by
  obtain ⟨cid, hcid⟩ := Option.isSome_iff_exists.mp (member_isSome h.ne_null "capsule_id" (.str ""))
  have htext : (js.text cid).isSome := by
    rw [member_eq_some hcid]
    obtain ⟨fields, hfields, hscalar⟩ := h
    rcases unwrapEnvelope_cases item with heq | ⟨items, heq⟩
    · rw [heq, hfields]
      unfold orElse
      split_ifs with htruthy
      · cases hmember : (Tree.obj fields).member? "capsule_id" with
        | none => rfl
        | some value =>
            obtain ⟨harr, hobj⟩ := hscalar value hmember
            cases value with
            | arr items => exact absurd rfl (harr items)
            | obj fields => exact absurd rfl (hobj fields)
            | _ => rfl
      · rfl
    · rw [heq]
      rfl
  obtain ⟨key, hkey⟩ := Option.isSome_iff_exists.mp htext
  exact ⟨cid, _, hcid, by rw [isIn, hkey]; rfl⟩

end IsRead

/-! ## The Integrity stage of the page -/

section Integrity

variable {js : Js} {items : List Tree} {integrity : Option (List IdCheck)}

/-- A tally that returns has parsed every item that has an id. -/
theorem parses_of_tally {entries : List (Tree × ℕ)} {s s' : Tally}
    (h : entries.foldlM (tallyRound unwrappedId (fun c _ => parseAac js c) integrity) s = some s') :
    ∀ entry ∈ entries, (pageId entry.1).isSome → (parseAac js entry.1).isSome := by
  induction entries generalizing s with
  | nil => exact fun _ hentry => absurd hentry List.not_mem_nil
  | cons entry entries ih =>
      rw [List.foldlM_cons] at h
      obtain ⟨next, hnext, hrest⟩ := Option.bind_eq_some_iff.mp h
      intro other hother hid
      rcases List.mem_cons.mp hother with rfl | hother
      · obtain ⟨value, hvalue, hnext⟩ := Option.bind_eq_some_iff.mp hnext
        obtain ⟨id, hid⟩ := Option.isSome_iff_exists.mp hid
        rw [(bind_hex64_of_prop hvalue).trans hid] at hnext
        obtain ⟨g, hg, -⟩ := Option.bind_eq_some_iff.mp hnext
        exact Option.isSome_iff_exists.mpr ⟨g, hg⟩
      · exact ih hrest other hother hid

/-- A tally returns when every item that has an id is parsed. -/
theorem exists_tally {entries : List (Tree × ℕ)} (hne : ∀ entry ∈ entries, unwrapEnvelope entry.1 ≠ .null)
    (hparse : ∀ entry ∈ entries, (pageId entry.1).isSome → (parseAac js entry.1).isSome) (s : Tally) :
    ∃ s', entries.foldlM (tallyRound unwrappedId (fun c _ => parseAac js c) integrity) s = some s' := by
  induction entries generalizing s with
  | nil => exact ⟨s, rfl⟩
  | cons entry entries ih =>
      have hround : ∃ next, tallyRound unwrappedId (fun c _ => parseAac js c) integrity s entry = some next := by
        obtain ⟨id, hid⟩ := Option.isSome_iff_exists.mp (idOf_isSome (hne entry List.mem_cons_self))
        obtain ⟨value, hvalue, -⟩ := Option.map_eq_some_iff.mp hid
        have hvalue' : unwrappedId entry.1 = some value := hvalue
        rw [tallyRound, hvalue', Option.bind_eq_bind, Option.bind_some, bind_hex64_of_prop hvalue]
        cases hpage : Aac.capsuleId (unwrapEnvelope entry.1) with
        | none => exact ⟨s, rfl⟩
        | some id =>
            obtain ⟨g, hg⟩ := Option.isSome_iff_exists.mp
              (hparse entry List.mem_cons_self (by rw [pageId, hpage]; rfl))
            simp only [hg, Option.bind_eq_bind, Option.bind_some, Option.pure_def]
            split <;> exact ⟨_, rfl⟩
      obtain ⟨next, hnext⟩ := hround
      obtain ⟨s', hs'⟩ := ih (fun e he => hne e (List.mem_cons_of_mem entry he))
        (fun e he => hparse e (List.mem_cons_of_mem entry he)) next
      exact ⟨s', by rw [List.foldlM_cons, hnext]; exact hs'⟩

/-- With a finding, the Sequence stage has nothing left to show that could fail. -/
theorem exists_sequenceStage (hne : ∀ item ∈ items, unwrapEnvelope item ≠ .null) (undeclared : Option Finding)
    (ofGap : Aac.ChainGap → Option Finding) (finding : Finding) :
    ∃ sequence, sequenceStage items undeclared ofGap (some finding) = some sequence := by
  have hcaps : ∀ cap ∈ items.map unwrapEnvelope, cap ≠ .null := by
    intro cap hcap
    obtain ⟨item, hitem, rfl⟩ := List.mem_map.mp hcap
    exact hne item hitem
  obtain ⟨parents, hparents⟩ := Octets.exists_mapM fun cap hcap => parentOf_isSome (hcaps cap hcap)
  obtain ⟨gaps, hgaps⟩ := Aac.Reader.exists_chainGaps (R := reader)
    (fun cap hcap => idOf_isSome (hcaps cap hcap)) fun cap hcap => parentOf_isSome (hcaps cap hcap)
  simp only [sequenceStage, declaredCount, hparents, findChainGaps, hgaps, Option.bind_eq_bind,
    Option.bind_some, Option.pure_def]
  split_ifs
  · exact ⟨_, rfl⟩
  · exact ⟨_, rfl⟩
  · cases gaps <;> exact ⟨_, rfl⟩
  · cases gaps <;> exact ⟨_, rfl⟩

/-- The page reports a failed Integrity stage when it parses every item that has an id, and some record that has
one was refuted. -/
theorem exists_evaluateRitual_fail_iff (hne : ∀ item ∈ items, unwrapEnvelope item ≠ .null)
    (authenticity witness : Status × String) :
    (∃ page, evaluateRitual js items integrity authenticity witness = some page ∧
      page.status .integrity = some .fail) ↔
    (∀ item ∈ items, (pageId item).isSome → (parseAac js item).isSome) ∧
      ∃ i, isRefuted integrity i = true ∧ (pageIdAt items i).isSome := by
  have hrefuted : (∃ entry ∈ items.zipIdx, isRefuted integrity entry.2 = true ∧ (pageId entry.1).isSome) ↔
      ∃ i, isRefuted integrity i = true ∧ (pageIdAt items i).isSome := by
    constructor
    · rintro ⟨⟨item, i⟩, hentry, hok, hid⟩
      refine ⟨i, hok, ?_⟩
      rw [pageIdAt, List.mem_zipIdx_iff_getElem?.mp hentry]
      exact hid
    · rintro ⟨i, hok, hid⟩
      rw [pageIdAt] at hid
      cases hitem : items[i]? with
      | none => rw [hitem] at hid; cases hid
      | some item =>
          rw [hitem] at hid
          exact ⟨(item, i), List.mem_zipIdx_iff_getElem?.mpr hitem, hok, hid⟩
  rw [← hrefuted]
  constructor
  · rintro ⟨page, hpage, hfail⟩
    obtain ⟨tally, -, -, -, htally, -⟩ := stages_of_evaluateRitual hpage
    refine ⟨fun item hitem hid => ?_, (status_integrity_eq_fail_iff hpage).mp hfail⟩
    obtain ⟨i, hi⟩ := List.mem_iff_getElem?.mp hitem
    exact parses_of_tally htally (item, i) (List.mem_zipIdx_iff_getElem?.mpr hi) hid
  · rintro ⟨hparse, hbad⟩
    have hmem : ∀ entry ∈ items.zipIdx, entry.1 ∈ items := fun entry hentry =>
      List.mem_of_getElem? (List.mem_zipIdx_iff_getElem?.mp hentry)
    have hreturns : ∃ tally, items.zipIdx.foldlM
        (tallyRound unwrappedId (fun c _ => parseAac js c) integrity) {} = some tally :=
      exists_tally (fun entry he => hne _ (hmem entry he)) (fun entry he => hparse _ (hmem entry he)) {}
    obtain ⟨tally, htally⟩ := hreturns
    obtain ⟨hvalid, haltered⟩ := tally_spec htally
    have hsome : tally.altered ≠ [] := by
      rw [haltered]
      obtain ⟨entry, hentry, hentryBad⟩ := hbad
      exact .inr ⟨entry, hentry, isBad_parseAac_iff.mpr hentryBad⟩
    obtain ⟨first, hfirst⟩ := exists_integrityStage some (hvalid valid_empty)
    obtain ⟨finding, hfinding⟩ := Option.isSome_iff_exists.mp ((integrityStage_spec hfirst).2.2 hsome)
    obtain ⟨second, hsecond⟩ := exists_sequenceStage hne (some (undeclaredFinding items.length))
      (gapFinding js items) finding
    obtain ⟨page, hpage⟩ : ∃ page, evaluateRitual js items integrity authenticity witness = some page := by
      simp only [evaluateRitual, htally, hfirst, Option.bind_eq_bind, Option.bind_some, hfinding, hsecond]
      exact ⟨_, rfl⟩
    exact ⟨page, hpage, (status_integrity_eq_fail_iff hpage).mpr hbad⟩

end Integrity

/-! ## The rows of the page -/

section Rows

variable {js : Js} {fuel : ℕ} {items : List Tree} {integrity : Option (List IdCheck)}

/-- The table of the page is written when it parses every item that has an id. -/
theorem exists_annotateRecords (hread : ∀ item ∈ items, IsRead item) (hfuel : items.length < fuel)
    (hparse : ∀ item ∈ items, (pageId item).isSome → (parseAac js item).isSome) :
    ∃ altered rows, alteredIds js items integrity = some altered ∧
      annotateRecords js fuel items integrity = some rows := by
  have hreturns : ∃ altered, alteredIds js items integrity = some altered :=
    exists_alteredIds (fun item hitem => (hread item hitem).ne_null)
      fun i item hitem hid _ => hparse item (List.mem_of_getElem? hitem) hid
  obtain ⟨altered, haltered⟩ := hreturns
  have hcaps : ∀ cap ∈ items.map unwrapEnvelope, cap ≠ .null := by
    intro cap hcap
    obtain ⟨item, hitem, rfl⟩ := List.mem_map.mp hcap
    exact (hread item hitem).ne_null
  obtain ⟨byId, hbyId⟩ := Aac.Reader.exists_capsulesById (R := reader)
    fun cap hcap => idOf_isSome (hcaps cap hcap)
  have hrounds : ∀ cap ∈ items.map unwrapEnvelope,
      (annotateRecord js fuel (fun id => byId.lookup id) altered cap).isSome := by
    intro cap hcap
    obtain ⟨cites, hcites⟩ := Option.isSome_iff_exists.mp (Aac.Reader.followParents_isSome altered
      (fun cap hcap => parentOf_isSome (hcaps cap hcap)) hbyId (by rwa [List.length_map]) hcap)
    obtain ⟨item, hitem, rfl⟩ := List.mem_map.mp hcap
    obtain ⟨cid, answer, hcid, hanswer⟩ := (hread item hitem).isIn_isSome js altered
    simp only [annotateRecord, hcid, hanswer, hcites, Option.bind_eq_bind, Option.bind_some, Option.pure_def]
    split_ifs <;> rfl
  obtain ⟨rows, hrows⟩ := Octets.exists_mapM hrounds
  refine ⟨altered, rows, haltered, ?_⟩
  rw [annotateRecords, haltered, Option.bind_eq_bind, Option.bind_some, hbyId]
  exact hrows

/-- Whether the row at a place is marked. -/
def isMarkedAt (rows : List Row) (i : ℕ) : Bool := rows[i]?.any Row.isMarked

/-- The round that writes a row. -/
theorem round_of_annotateRecords {rows : List Row} (h : annotateRecords js fuel items integrity = some rows)
    {i : ℕ} {item : Tree} (hitem : items[i]? = some item) :
    ∃ altered byId row, alteredIds js items integrity = some altered ∧ rows[i]? = some row ∧
      annotateRecord js fuel byId altered (unwrapEnvelope item) = some row := by
  obtain ⟨altered, haltered, h⟩ := Option.bind_eq_some_iff.mp h
  obtain ⟨byId, -, h⟩ := Option.bind_eq_some_iff.mp h
  have hround := congrArg (fun xs => xs[i]?) (Octets.mapM_eq_some_iff.mp h)
  rw [List.getElem?_map, List.getElem?_map, List.getElem?_map, hitem] at hround
  obtain ⟨row, hrow, heq⟩ := Option.map_eq_some_iff.mp hround.symm
  exact ⟨altered, fun id => byId.lookup id, row, haltered, hrow, heq.symm⟩

/-- The row of an item that has an id is marked when some item of that id was refuted. -/
theorem isMarkedAt_iff {rows : List Row} (h : annotateRecords js fuel items integrity = some rows) {i : ℕ}
    {id : String} (hid : pageIdAt items i = some id) :
    isMarkedAt rows i = true ↔ ∃ j, isRefuted integrity j = true ∧ pageIdAt items j = some id := by
  obtain ⟨item, hitem, hpage⟩ := Option.bind_eq_some_iff.mp hid
  obtain ⟨altered, byId, row, haltered, hrow, hround⟩ := round_of_annotateRecords h hitem
  rw [annotateRecord_of_id hpage] at hround
  rw [← mem_alteredIds haltered, isMarkedAt, hrow, Option.any_some]
  by_cases hmem : id ∈ altered
  · rw [if_pos hmem] at hround
    rw [← Option.some.inj hround]
    exact iff_of_true rfl hmem
  · rw [if_neg hmem] at hround
    obtain ⟨cites, -, rfl⟩ := Option.map_eq_some_iff.mp hround
    exact iff_of_false (by simp) hmem

/-- The row of an item without any members is not marked. -/
theorem not_isMarkedAt {rows : List Row} (h : annotateRecords js fuel items integrity = some rows) {i : ℕ}
    {item : Tree} {members : List Tree} (hitem : items[i]? = some item)
    (harr : unwrapEnvelope item = .arr members) : isMarkedAt rows i = false := by
  obtain ⟨altered, byId, row, haltered, hrow, hround⟩ := round_of_annotateRecords h hitem
  have hempty : "" ∉ altered := fun hmem => by
    have hhex := isHex64_of_mem haltered hmem
    exact Bool.false_ne_true hhex
  have hin : isIn js altered (.str "") = some false := by
    simp [isIn, Js.text, hempty, prototypeKeys]
  rw [harr] at hround
  have hcid : member (.arr members) "capsule_id" (.str "") = some (.str "") := rfl
  rw [annotateRecord, hcid, Option.bind_eq_bind, Option.bind_some, hin, Option.bind_eq_bind, Option.bind_some,
    if_neg Bool.false_ne_true] at hround
  obtain ⟨cites, -, hround⟩ := Option.bind_eq_some_iff.mp hround
  rw [isMarkedAt, hrow, Option.any_some, ← Option.some.inj hround]
  exact Row.isMarked_ofCites cites

end Rows

/-! ## Both sides -/

theorem bind_hex64_member? (cap : Tree) : (cap.member? "capsule_id").bind hex64 = Aac.capsuleId cap := by
  rw [Aac.capsuleId, Aac.digestAt, Json.Tree.at?]
  cases cap.member? "capsule_id" <;> rfl

/-- Only a record that has an id is refuted. -/
theorem pageId_isSome_of_refuted {env : Env} {item : Tree} (h : (verifyCapsuleId env item).ok = some false) :
    (pageId item).isSome := by
  rw [pageId, ← bind_hex64_member?]
  cases hid : ((unwrapEnvelope item).member? "capsule_id").bind hex64 with
  | none =>
      rw [verifyCapsuleId, hid] at h
      cases h
  | some id => rfl

/-- The records that were refuted, by place. -/
theorem exists_isRefuted_iff {env : Env} {items : List Tree} {p : Option String → Prop}
    (hp : ∀ id, p id → id.isSome) :
    (∃ i, isRefuted (checksOf env items) i = true ∧ p (pageIdAt items i)) ↔
      ∃ item ∈ items, p (pageId item) ∧ (verifyCapsuleId env item).ok = some false := by
  constructor
  · rintro ⟨i, hrefuted, hid⟩
    obtain ⟨id, hsome⟩ := Option.isSome_iff_exists.mp (hp _ hid)
    obtain ⟨item, hitem, hpage⟩ := Option.bind_eq_some_iff.mp hsome
    refine ⟨item, List.mem_of_getElem? hitem, ?_, (isRefuted_checksOf hitem).mp hrefuted⟩
    rwa [hpage, ← hsome]
  · rintro ⟨item, hmem, hid, hok⟩
    obtain ⟨i, hi⟩ := List.mem_iff_getElem?.mp hmem
    refine ⟨i, (isRefuted_checksOf hi).mpr hok, ?_⟩
    rw [pageIdAt, hi]
    exact hid

/-- The row of an item that has an id for the server is marked when the item shares its id on the page with a
record that was refuted. -/
theorem isMarkedAt_iff_of_idAt {env : Env} {items : List Tree} {fuel : ℕ} {rows : List Row}
    (h : annotateRecords env.js fuel items (checksOf env items) = some rows) {i : ℕ} {id : String}
    (hid : Aac.idAt items i = some id) :
    isMarkedAt rows i = true ↔ ∃ id', pageIdAt items i = some id' ∧
      ∃ item ∈ items, pageId item = some id' ∧ (verifyCapsuleId env item).ok = some false := by
  obtain ⟨item, hitem, hitemId⟩ := Option.bind_eq_some_iff.mp hid
  rcases unwrapEnvelope_cases item with heq | ⟨members, heq⟩
  · have hpage : pageIdAt items i = some id := by
      rw [pageIdAt, hitem, Option.bind_some, pageId, heq]
      exact hitemId
    rw [isMarkedAt_iff h hpage, exists_isRefuted_iff (p := fun found => found = some id)
      fun found hfound => by rw [hfound]; rfl]
    constructor
    · exact fun hrefuted => ⟨id, hpage, hrefuted⟩
    · rintro ⟨id', hid', hrefuted⟩
      rw [hpage] at hid'
      rwa [Option.some.inj hid']
  · rw [not_isMarkedAt h hitem heq]
    refine iff_of_false Bool.false_ne_true ?_
    rintro ⟨id', hid', -⟩
    rw [pageIdAt, hitem, Option.bind_some, pageId, heq] at hid'
    cases hid'

/-- A record that says one thing went into the agent and came out of it, disclosed as another. -/
def deniedEnvelope : Tree :=
  Aac.disclosingEnvelope (Aac.attestingCapsule 'a' (Aac.textDigest "approved") (Aac.textDigest "denied")) "denied"
    "denied"

/-- Where every capsule has the id it states. -/
def soundEnv : Env :=
  { sampleEnv with crypto := { sampleEnv.crypto with
      verifyClass1 := fun _ => some true
      computeCapsuleId := Aac.capsuleId } }

end ScittCose.Pages
