import ScittCose.Pages.Verdicts

/-!
# What the rows of the pages say

The pages mark a row by the results of `verifyCapsuleId` alone, since their parser compares nothing
(`mem_alteredIds`). On capsules with distinct ids their table and the server's both end, both tell which rows
reach an altered record, and neither depends on the order of the records (`rows_spec`).
-/

namespace ScittCose.Pages

open Json (Tree)
open Aac (hex64 link Row IsRow)

/-- The id of an item, as the pages unwrap it. -/
def pageId (item : Tree) : Option String := Aac.capsuleId (unwrapEnvelope item)

/-- The id at a place. -/
def pageIdAt (items : List Tree) (i : ℕ) : Option String := items[i]?.bind pageId

theorem hex64_of_member {cap value : Tree} (h : member cap "capsule_id" (.str "") = some value) :
    hex64 value = Aac.capsuleId cap := by
  rw [member_eq_some h, hex64_orElse]
  cases cap with
  | obj fields =>
      rw [Aac.capsuleId, Aac.digestAt, Json.Tree.at?]
      cases (Tree.obj fields).member? "capsule_id" <;> rfl
  | _ => rfl

theorem member_isSome {cap : Tree} (h : cap ≠ .null) (key : String) (default : Tree) :
    (member cap key default).isSome := by
  cases cap with
  | null => exact absurd rfl h
  | _ => rfl

theorem ne_null_of_capsuleId {cap : Tree} (h : (Aac.capsuleId cap).isSome) : cap ≠ .null := by
  rintro rfl
  cases h

theorem idOf_isSome {cap : Tree} (h : cap ≠ .null) : (idOf cap).isSome := by
  cases cap with
  | null => exact absurd rfl h
  | _ => rfl

theorem orElse_ne_null (value : Option Tree) {default : Tree} (h : default ≠ .null) :
    orElse value default ≠ .null := by
  unfold orElse
  split_ifs with htruthy
  · rintro hnull
    cases value with
    | none => cases htruthy
    | some t =>
        rw [Option.getD_some] at hnull
        rw [hnull] at htruthy
        cases htruthy
  · exact h

/-- The parent of anything but `null` is read. -/
theorem parentOf_isSome {cap : Tree} (h : cap ≠ .null) : (parentOf cap).isSome := by
  obtain ⟨chain, hchain⟩ := Option.isSome_iff_exists.mp (member_isSome h "chain" (.obj []))
  have hne : chain ≠ .null := by
    rw [member_eq_some hchain]
    exact orElse_ne_null _ nofun
  obtain ⟨parent, hparent⟩ := Option.isSome_iff_exists.mp
    (member_isSome hne "parent_capsule_id" (.str ""))
  rw [parentOf, Option.isSome_map, parentCapsuleId, hchain, Option.bind_eq_bind, Option.bind_some, hparent]
  rfl

/-! ## The altered ids -/

variable {js : Js} {items : List Tree} {integrity : Option (List IdCheck)}

/-- The parser has nothing to say about an item. -/
theorem capMismatched_eq {cap : Tree} {mismatched : Bool} (h : capMismatched js cap = some mismatched) :
    mismatched = false := by
  obtain ⟨g, hg, h⟩ := Option.bind_eq_some_iff.mp h
  rw [← Option.some.inj h, List.any_eq_false]
  intro e he
  simp [matchOk_of_parseAac hg e he]

theorem alteredRound_eq {entry : Tree × ℕ} {found : Option String}
    (h : alteredRound js integrity entry = some found) :
    found = if isRefuted integrity entry.2 then pageId entry.1 else none := by
  obtain ⟨cid, hcid, h⟩ := Option.bind_eq_some_iff.mp h
  rw [hex64_of_member hcid] at h
  rw [pageId]
  cases hid : Aac.capsuleId (unwrapEnvelope entry.1) with
  | none =>
      rw [hid] at h
      rw [← Option.some.inj h]
      split_ifs <;> rfl
  | some id =>
      rw [hid] at h
      dsimp only at h
      split_ifs at h ⊢
      · exact (Option.some.inj h).symm
      · obtain ⟨mismatched, hmismatched, h⟩ := Option.bind_eq_some_iff.mp h
        rw [← Option.some.inj h, capMismatched_eq hmismatched]
        rfl

/-- The altered ids are those of the records whose ids were refuted. -/
theorem mem_alteredIds {altered : List String} (h : alteredIds js items integrity = some altered)
    {id : String} : id ∈ altered ↔ ∃ i, isRefuted integrity i = true ∧ pageIdAt items i = some id := by
  obtain ⟨found, hfound, h⟩ := Option.bind_eq_some_iff.mp h
  obtain rfl := Option.some.inj h
  rw [List.reduceOption_mem_iff, List.mem_iff_getElem?]
  refine exists_congr fun i => ?_
  have hi := congrArg (fun xs => xs[i]?) (Octets.mapM_eq_some_iff.mp hfound)
  rw [List.getElem?_map, List.getElem?_map, List.getElem?_zipIdx, zero_add] at hi
  rw [pageIdAt]
  cases hitem : items[i]? with
  | none =>
      rw [hitem] at hi
      rw [Option.map_eq_none_iff.mp hi.symm]
      exact iff_of_false nofun fun h => nomatch h.2
  | some item =>
      rw [hitem] at hi
      obtain ⟨round, hround, heq⟩ := Option.map_eq_some_iff.mp hi.symm
      rw [hround, Option.some.injEq, Option.bind_some, alteredRound_eq heq.symm]
      by_cases hrefuted : isRefuted integrity i = true
      · rw [if_pos hrefuted, and_iff_right hrefuted]
      · rw [if_neg hrefuted]
        exact iff_of_false nofun fun h => hrefuted h.1

/-- The altered ids are found when every item that has an id is parsed, or was refuted. -/
theorem exists_alteredIds (hitems : ∀ item ∈ items, unwrapEnvelope item ≠ .null)
    (hparse : ∀ i item, items[i]? = some item → (pageId item).isSome → isRefuted integrity i = false →
      (parseAac js item).isSome) : ∃ altered, alteredIds js items integrity = some altered := by
  have hrounds : ∀ entry ∈ items.zipIdx, (alteredRound js integrity entry).isSome := by
    rintro ⟨item, i⟩ hentry
    have hitem : items[i]? = some item := List.mem_zipIdx_iff_getElem?.mp hentry
    obtain ⟨cid, hcid⟩ := Option.isSome_iff_exists.mp
      (member_isSome (hitems item (List.mem_of_getElem? hitem)) "capsule_id" (.str ""))
    rw [alteredRound, hcid, Option.bind_eq_bind, Option.bind_some, hex64_of_member hcid]
    cases hid : Aac.capsuleId (unwrapEnvelope item) with
    | none => rfl
    | some id =>
        dsimp only
        split_ifs with hrefuted
        · rfl
        · obtain ⟨g, hg⟩ := Option.isSome_iff_exists.mp (hparse i item hitem (by rw [pageId, hid]; rfl)
            (Bool.eq_false_of_not_eq_true hrefuted))
          rw [capMismatched, hg]
          rfl
  obtain ⟨found, hfound⟩ := Octets.exists_mapM hrounds
  exact ⟨found.reduceOption, by rw [alteredIds, hfound]; rfl⟩

theorem isHex64_of_mem {altered : List String} (h : alteredIds js items integrity = some altered)
    {id : String} (hid : id ∈ altered) : Aac.isHex64 id = true := by
  obtain ⟨i, -, hi⟩ := (mem_alteredIds h).mp hid
  obtain ⟨item, -, hitem⟩ := Option.bind_eq_some_iff.mp hi
  obtain ⟨value, -, hvalue⟩ := Option.bind_eq_some_iff.mp hitem
  exact Aac.isHex64_of_hex64 hvalue

/-! ## The rows -/

/-- No member that every object has is a digest. -/
theorem not_mem_prototypeKeys {id : String} (h : Aac.isHex64 id = true) : id ∉ prototypeKeys := by
  intro hmem
  have hall : ∀ key ∈ prototypeKeys, Aac.isHex64 key = false := by decide
  rw [hall id hmem] at h
  cases h

/-- The row of a capsule whose id is well-formed. -/
theorem annotateRecord_of_id {fuel : ℕ} {byId : String → Option Tree} {altered : List String} {cap : Tree}
    {id : String} (hid : Aac.capsuleId cap = some id) :
    annotateRecord js fuel byId altered cap =
      if id ∈ altered then some .altered
      else (reader.followParents byId altered fuel [] cap).map .ofCites := by
  have hne : cap ≠ .null := ne_null_of_capsuleId (by rw [hid]; rfl)
  obtain ⟨cid, hcid⟩ := Option.isSome_iff_exists.mp (member_isSome hne "capsule_id" (.str ""))
  have hhex : hex64 cid = some id := (hex64_of_member hcid).trans hid
  have hkey : id ∉ prototypeKeys := not_mem_prototypeKeys (Aac.isHex64_of_hex64 hhex)
  have hin : isIn js altered (.str id) = some (decide (id ∈ altered)) := by
    simp [isIn, Js.text, hkey]
  rw [annotateRecord, hcid, Aac.eq_str_of_hex64 hhex, Option.bind_eq_bind, Option.bind_some, hin,
    Option.bind_eq_bind, Option.bind_some]
  by_cases hmem : id ∈ altered
  · rw [if_pos hmem, if_pos (decide_eq_true hmem)]
    rfl
  · rw [if_neg hmem, if_neg (by simpa using hmem)]
    exact Option.map_eq_bind.symm

/-! ## Distinct ids -/

/-- What a record says of its place, and whether its id was refuted. -/
def placeOf (r : Tree × IdCheck) : Chain.Link String × Bool :=
  (link (unwrapEnvelope r.1), decide (r.2.ok = some false))

/-- An item that is a capsule for the pages: its id is well-formed, and the parser returns. -/
structure IsCapsule (js : Js) (item : Tree) : Prop where
  id_isSome : (pageId item).isSome
  parses : (parseAac js item).isSome

theorem IsCapsule.ne_null {item : Tree} (h : IsCapsule js item) : unwrapEnvelope item ≠ .null :=
  ne_null_of_capsuleId h.id_isSome

variable {records : List (Tree × IdCheck)}

theorem isRefuted_iff {i : ℕ} : isRefuted (some (records.map Prod.snd)) i = true ↔
    ∃ r, records[i]? = some r ∧ r.2.ok = some false := by
  rw [isRefuted, Option.bind_some, List.getElem?_map]
  cases records[i]? <;> simp

/-- The altered ids are those of the records that were refuted. -/
theorem mem_alteredIds_iff {altered : List String}
    (h : alteredIds js (records.map Prod.fst) (some (records.map Prod.snd)) = some altered) (id : String) :
    id ∈ altered ↔ ∃ r ∈ records.map placeOf, r.2 = true ∧ r.1.id = some id := by
  rw [mem_alteredIds h]
  constructor
  · rintro ⟨i, hrefuted, hid⟩
    obtain ⟨r, hr, hok⟩ := isRefuted_iff.mp hrefuted
    rw [pageIdAt, List.getElem?_map, hr] at hid
    exact ⟨placeOf r, List.mem_map_of_mem (List.mem_of_getElem? hr), decide_eq_true hok, hid⟩
  · rintro ⟨_, hmem, hok, hid⟩
    obtain ⟨r, hr, rfl⟩ := List.mem_map.mp hmem
    obtain ⟨i, hi⟩ := List.mem_iff_getElem?.mp hr
    refine ⟨i, isRefuted_iff.mpr ⟨r, hi, of_decide_eq_true hok⟩, ?_⟩
    rw [pageIdAt, List.getElem?_map, hi]
    exact hid

/-- The row of one record. -/
theorem exists_annotateRecord {fuel : ℕ} (hcaps : ∀ r ∈ records, IsCapsule js r.1)
    (hdistinct : (records.map fun r => pageId r.1).Nodup) (hfuel : records.length < fuel)
    {altered : List String} {byId : List (String × Tree)}
    (haltered : alteredIds js (records.map Prod.fst) (some (records.map Prod.snd)) = some altered)
    (hbyId : reader.capsulesById ((records.map Prod.fst).map unwrapEnvelope) = some byId)
    {r : Tree × IdCheck} (hr : r ∈ records) :
    ∃ row, annotateRecord js fuel (fun id => byId.lookup id) altered (unwrapEnvelope r.1) = some row ∧
      IsRow (records.map placeOf) (placeOf r) row := by
  obtain ⟨id, hid⟩ := Option.isSome_iff_exists.mp (hcaps r hr).id_isSome
  rw [annotateRecord_of_id hid]
  have hmark : id ∈ altered ↔ r.2.ok = some false := by
    rw [mem_alteredIds_iff haltered]
    constructor
    · rintro ⟨_, hmem, hok, hother⟩
      obtain ⟨r', hr', rfl⟩ := List.mem_map.mp hmem
      have heq := List.inj_on_of_nodup_map hdistinct hr hr' (hid.trans hother.symm)
      rw [heq]
      exact of_decide_eq_true hok
    · intro hok
      exact ⟨placeOf r, List.mem_map_of_mem hr, decide_eq_true hok, hid⟩
  by_cases hok : r.2.ok = some false
  · rw [if_pos (hmark.mpr hok)]
    exact ⟨_, rfl, .of_altered (decide_eq_true hok)⟩
  · rw [if_neg fun hmem => hok (hmark.mp hmem)]
    have hids : (((records.map Prod.fst).map unwrapEnvelope).map Aac.capsuleId).Nodup := by
      simpa [Function.comp_def, pageId] using hdistinct
    have hplaces : (records.map placeOf).map Prod.fst =
        ((records.map Prod.fst).map unwrapEnvelope).map link := by
      simp [placeOf, Function.comp_def]
    have hparents : ∀ cap ∈ (records.map Prod.fst).map unwrapEnvelope, (reader.parentOf cap).isSome := by
      intro cap hcap
      obtain ⟨item, hitem, rfl⟩ := List.mem_map.mp hcap
      obtain ⟨r, hr, rfl⟩ := List.mem_map.mp hitem
      exact parentOf_isSome (hcaps r hr).ne_null
    obtain ⟨cites, hcites, hreaches⟩ := Aac.Reader.exists_followParents hparents hids hbyId hplaces
      (mem_alteredIds_iff haltered) (by simpa using hfuel)
      (List.mem_map_of_mem (List.mem_map_of_mem hr))
    rw [hcites]
    exact ⟨_, rfl, .of_cites (decide_eq_false hok) hreaches⟩

/-- The rows of the page: the walks end, and each row says what its record is. -/
theorem annotateRecords_spec {fuel : ℕ} (hcaps : ∀ r ∈ records, IsCapsule js r.1)
    (hdistinct : (records.map fun r => pageId r.1).Nodup) (hfuel : records.length < fuel) :
    ∃ rows, annotateRecords js fuel (records.map Prod.fst) (some (records.map Prod.snd)) = some rows ∧
      rows.length = records.length ∧
      ∀ i, ∀ hr : i < records.length, ∀ hn : i < rows.length,
        IsRow (records.map placeOf) (placeOf records[i]) rows[i] := by
  have hmem : ∀ item ∈ records.map Prod.fst, IsCapsule js item := by
    intro item hitem
    obtain ⟨r, hr, rfl⟩ := List.mem_map.mp hitem
    exact hcaps r hr
  have hparses : ∀ i item, (records.map Prod.fst)[i]? = some item → (pageId item).isSome →
      isRefuted (some (records.map Prod.snd)) i = false → (parseAac js item).isSome :=
    fun i item hitem _ _ => (hmem item (List.mem_of_getElem? hitem)).parses
  obtain ⟨altered, haltered⟩ := exists_alteredIds (fun item hitem => (hmem item hitem).ne_null) hparses
  have hreads : ∀ cap ∈ (records.map Prod.fst).map unwrapEnvelope, (reader.idOf cap).isSome := by
    intro cap hcap
    obtain ⟨item, hitem, rfl⟩ := List.mem_map.mp hcap
    exact idOf_isSome (hmem item hitem).ne_null
  obtain ⟨byId, hbyId⟩ := Aac.Reader.exists_capsulesById hreads
  have hrounds : ∀ cap ∈ (records.map Prod.fst).map unwrapEnvelope,
      (annotateRecord js fuel (fun id => byId.lookup id) altered cap).isSome := by
    intro cap hcap
    obtain ⟨item, hitem, rfl⟩ := List.mem_map.mp hcap
    obtain ⟨r, hr, rfl⟩ := List.mem_map.mp hitem
    obtain ⟨row, hrow, -⟩ := exists_annotateRecord hcaps hdistinct hfuel haltered hbyId hr
    rw [hrow]
    rfl
  obtain ⟨rows, hrows⟩ := Octets.exists_mapM hrounds
  have hlength : rows.length = records.length := by
    rw [Octets.length_of_mapM hrows, List.length_map, List.length_map]
  refine ⟨rows, ?_, hlength, fun i hr hn => ?_⟩
  · rw [annotateRecords, haltered, Option.bind_eq_bind, Option.bind_some, hbyId]
    exact hrows
  · obtain ⟨row, hrow, hspec⟩ := exists_annotateRecord hcaps hdistinct hfuel haltered hbyId (List.getElem_mem hr)
    have hi := Octets.getElem_of_mapM hrows (by simpa using hr) hn
    rw [List.getElem_map, List.getElem_map, hrow] at hi
    rwa [← Option.some.inj hi]

/-! ## Both tables -/

/-- Both tables are written for any parents and any altered records. A row is altered as its own record is,
cites exactly when following parents reaches an altered record, and is the same in whatever order the records
are given. -/
theorem rows_spec {records : List (Tree × Aac.GraphView)} {checked : List (Tree × IdCheck)} {fuel : ℕ}
    (hcaps : ∀ r ∈ records, Aac.IsCapsule r.1) (hdistinct : (records.map fun r => Aac.itemId r.1).Nodup)
    (hfuel : records.length < fuel) (hchecked : ∀ r ∈ checked, IsCapsule js r.1)
    (hdistinct' : (checked.map fun r => pageId r.1).Nodup) (hfuel' : checked.length < fuel) :
    (∃ notes, Aac.annotateRecords fuel (records.map Prod.fst) (records.map Prod.snd) = some notes ∧
      notes.length = records.length ∧
      (∀ i, ∀ hr : i < records.length, ∀ hn : i < notes.length,
        IsRow (records.map Aac.placeOf) (Aac.placeOf records[i]) notes[i].toRow) ∧
      ∀ records', records.Perm records' → ∃ notes',
        Aac.annotateRecords fuel (records'.map Prod.fst) (records'.map Prod.snd) = some notes' ∧
        ∀ i j : ℕ, records[i]? = records'[j]? →
          notes[i]?.map Aac.RecordNote.toRow = notes'[j]?.map Aac.RecordNote.toRow) ∧
    (∃ rows, annotateRecords js fuel (checked.map Prod.fst) (some (checked.map Prod.snd)) = some rows ∧
      rows.length = checked.length ∧
      (∀ i, ∀ hr : i < checked.length, ∀ hn : i < rows.length,
        IsRow (checked.map placeOf) (placeOf checked[i]) rows[i]) ∧
      ∀ checked', checked.Perm checked' → ∃ rows',
        annotateRecords js fuel (checked'.map Prod.fst) (some (checked'.map Prod.snd)) = some rows' ∧
        ∀ i j : ℕ, checked[i]? = checked'[j]? → rows[i]? = rows'[j]?) := by
  constructor
  · obtain ⟨notes, hnotes, hlength, hrows⟩ := Aac.annotateRecords_spec hcaps hdistinct hfuel
    exact ⟨notes, hnotes, hlength, hrows,
      fun records' hperm => Aac.annotateRecords_of_perm hcaps hdistinct hfuel hnotes hperm⟩
  · obtain ⟨rows, hrows, hlength, hspec⟩ := annotateRecords_spec hchecked hdistinct' hfuel'
    refine ⟨rows, hrows, hlength, hspec, fun checked' hperm => ?_⟩
    have hcaps' : ∀ r ∈ checked', IsCapsule js r.1 := fun r hr => hchecked r (hperm.mem_iff.mpr hr)
    obtain ⟨rows', hrows', hlength', hspec'⟩ := annotateRecords_spec hcaps'
      ((hperm.map _).nodup_iff.mp hdistinct') (by rwa [← hperm.length_eq])
    exact ⟨rows', hrows', fun i j h => Aac.rows_eq_of_perm hperm hlength hlength' hspec hspec' h⟩

/-- A view whose one disclosure disagrees. -/
def mismatchedView : Aac.GraphView :=
  { isBinding := false
    privilegeLog := [⟨"agent input", "agent_input", sampleId 'c', false, true, some false, ""⟩] }

theorem isCapsule_childRecord (id parent : Char) (h : (Aac.itemId (childRecord id parent)).isSome) :
    Aac.IsCapsule (childRecord id parent) := by
  refine ⟨h, fun chain hchain _ => ?_⟩
  have hmember : (Aac.unwrap (childRecord id parent)).member? "chain" =
      some (.obj [("parent_capsule_id", .str (sampleId parent))]) := rfl
  rw [hmember] at hchain
  exact ⟨_, (Option.some.inj hchain).symm⟩

/-- Two records that name each other, one of them altered. -/
theorem rows_of_cycle :
    (Aac.annotateRecords 3 [childRecord 'a' 'b', childRecord 'b' 'a']
      [{ isBinding := false }, mismatchedView]).isSome := by
  have hcaps : ∀ r ∈ [(childRecord 'a' 'b', ({ isBinding := false } : Aac.GraphView)),
      (childRecord 'b' 'a', mismatchedView)], Aac.IsCapsule r.1 := by
    intro r hr
    rcases List.mem_cons.mp hr with rfl | hr
    · exact isCapsule_childRecord 'a' 'b' (by decide +kernel)
    · rw [List.mem_singleton.mp hr]
      exact isCapsule_childRecord 'b' 'a' (by decide +kernel)
  have hchecked : ∀ r ∈ [(childRecord 'a' 'b', (⟨none, "", none⟩ : IdCheck))], IsCapsule sampleEnv.js r.1 := by
    intro r hr
    rw [List.mem_singleton.mp hr]
    exact ⟨by decide +kernel, by decide +kernel⟩
  have hdistinct : ([(childRecord 'a' 'b', ({ isBinding := false } : Aac.GraphView)),
      (childRecord 'b' 'a', mismatchedView)].map fun r => Aac.itemId r.1).Nodup := by decide +kernel
  have hdistinct' : ([(childRecord 'a' 'b', (⟨none, "", none⟩ : IdCheck))].map fun r => pageId r.1).Nodup := by
    decide +kernel
  obtain ⟨⟨notes, hnotes, -⟩, -⟩ := rows_spec hcaps hdistinct (show 2 < 3 by decide) hchecked hdistinct'
    (show 1 < 3 by decide)
  exact Option.isSome_iff_exists.mpr ⟨notes, hnotes⟩

end ScittCose.Pages
