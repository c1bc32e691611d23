import ScittCose.Aac.Ritual

/-!
# What a row of the table cites

On capsules whose ids are distinct, `annotate_records` returns: the walk along the parents ends, whatever the
parents are. A row is marked by its own view, and cites an altered record exactly when following parents comes
to one (`annotateRecords_spec`). So the rows do not depend on the order of the records.
-/

namespace ScittCose.Aac

open Json (Tree)

/-- An item that is a capsule, in an envelope or bare: its id is well-formed, and its chain, if it has one, is
an object. -/
structure IsCapsule (item : Tree) : Prop where
  id_isSome : (itemId item).isSome
  chain : ∀ chain, (unwrap item).member? "chain" = some chain → truthy chain = true →
    ∃ fields, chain = .obj fields

namespace IsCapsule

variable {item : Tree}

theorem unwrap_eq (h : IsCapsule item) : ∃ fields, unwrap item = .obj fields := by
  have hid := h.id_isSome
  rw [itemId] at hid
  cases hcap : unwrap item with
  | obj fields => exact ⟨fields, rfl⟩
  | _ => rw [hcap] at hid; cases hid

/-- The parent of a capsule is read without an exception. -/
theorem parentOf_isSome (h : IsCapsule item) : (parentOf (unwrap item)).isSome := by
  obtain ⟨fields, hfields⟩ := h.unwrap_eq
  have hchain : ∃ members, orDefault (((Tree.obj fields).member? "chain").getD .null) (.obj []) =
      .obj members := by
    unfold orDefault
    split_ifs with htruthy
    · cases hmember : (Tree.obj fields).member? "chain" with
      | none =>
          rw [hmember] at htruthy
          cases htruthy
      | some chain =>
          rw [hmember, Option.getD_some] at htruthy
          exact h.chain chain (by rw [hfields, hmember]) htruthy
    · exact ⟨[], rfl⟩
  obtain ⟨members, hmembers⟩ := hchain
  rw [hfields, parentOf, Option.isSome_map]
  exact congrArg (fun t => (get t "parent_capsule_id" (.str "")).isSome) hmembers

/-- The id of a capsule is read. -/
theorem exists_id (h : IsCapsule item) :
    ∃ id, get (unwrap item) "capsule_id" (.str "") = some (.str id) ∧ itemId item = some id := by
  obtain ⟨fields, hfields⟩ := h.unwrap_eq
  obtain ⟨id, hid⟩ := Option.isSome_iff_exists.mp h.id_isSome
  have hget : get (.obj fields) "capsule_id" (.str "") =
      some (((Tree.obj fields).member? "capsule_id").getD (.str "")) := rfl
  have hvalue : hex64 (((Tree.obj fields).member? "capsule_id").getD (.str "")) = some id := by
    rw [hex64_of_get hget, ← hid, itemId, capsuleId, hfields]
  refine ⟨id, ?_, hid⟩
  rw [hfields]
  exact congrArg some (eq_str_of_hex64 hvalue)

theorem idOf_isSome (h : IsCapsule item) : (idOf (unwrap item)).isSome := by
  obtain ⟨id, hget, -⟩ := h.exists_id
  rw [idOf, hget]
  rfl

end IsCapsule

/-! ## The rows -/

/-- What a record says of its place, and whether its view has a mismatch. -/
def placeOf (r : Tree × GraphView) : Chain.Link String × Bool := (link (unwrap r.1), r.2.isMismatched)

variable {records : List (Tree × GraphView)}

theorem exists_alteredIds {items : List Tree} {views : List GraphView} (hlength : views.length = items.length)
    (hcaps : ∀ item ∈ items, IsCapsule item) :
    ∃ altered, alteredIds (items.map unwrap) views = some altered := by
  obtain ⟨found, hfound⟩ : ∃ found, views.zipIdx.mapM (alteredId (items.map unwrap)) = some found := by
    apply Octets.exists_mapM
    rintro ⟨view, i⟩ hmem
    unfold alteredId
    split_ifs
    · have hi : i < items.length := by
        have hlt := (List.mem_zipIdx hmem).2.1
        omega
      obtain ⟨id, hid, -⟩ := (hcaps _ (List.getElem_mem hi)).exists_id
      rw [List.getElem?_map, List.getElem?_eq_getElem hi, Option.map_some, Option.bind_eq_bind,
        Option.bind_some, hid]
      rfl
    · rfl
  exact ⟨found.reduceOption, by rw [alteredIds, hfound]; rfl⟩

/-- The altered ids are those of the records whose views have a mismatch. -/
theorem mem_alteredIds_iff {altered : List String}
    (h : alteredIds ((records.map Prod.fst).map unwrap) (records.map Prod.snd) = some altered) (id : String) :
    id ∈ altered ↔ ∃ r ∈ records.map placeOf, r.2 = true ∧ r.1.id = some id := by
  rw [mem_alteredIds h]
  constructor
  · rintro ⟨i, hmismatched, hid⟩
    rw [isMismatchedAt, List.getElem?_map] at hmismatched
    rw [idAt, List.getElem?_map] at hid
    cases hr : records[i]? with
    | none =>
        rw [hr] at hid
        cases hid
    | some r =>
        rw [hr] at hmismatched hid
        exact ⟨placeOf r, List.mem_map_of_mem (List.mem_of_getElem? hr), hmismatched, hid⟩
  · rintro ⟨_, hmem, hmismatched, hid⟩
    obtain ⟨r, hr, rfl⟩ := List.mem_map.mp hmem
    obtain ⟨i, hi⟩ := List.mem_iff_getElem?.mp hr
    refine ⟨i, ?_, ?_⟩
    · rw [isMismatchedAt, List.getElem?_map, hi]
      exact hmismatched
    · rw [idAt, List.getElem?_map, hi]
      exact hid

/-- When the ids are distinct, the id of a record is altered when its own view has a mismatch. -/
theorem mem_altered_iff {altered : List String} (hdistinct : (records.map fun r => itemId r.1).Nodup)
    (haltered : alteredIds ((records.map Prod.fst).map unwrap) (records.map Prod.snd) = some altered)
    {r : Tree × GraphView} (hr : r ∈ records) {id : String} (hid : itemId r.1 = some id) :
    id ∈ altered ↔ r.2.isMismatched = true := by
  rw [mem_alteredIds_iff haltered]
  constructor
  · rintro ⟨_, hmem, hmismatched, hother⟩
    obtain ⟨r', hr', rfl⟩ := List.mem_map.mp hmem
    rwa [List.inj_on_of_nodup_map hdistinct hr hr' (hid.trans hother.symm)]
  · intro hmismatched
    exact ⟨placeOf r, List.mem_map_of_mem hr, hmismatched, hid⟩

/-- The row of a record whose id is a text. -/
theorem annotateRecord_of_str {fuel : ℕ} {byId : String → Option Tree} {altered : List String} {cap : Tree}
    {id : String} (h : get cap "capsule_id" (.str "") = some (.str id)) (i : ℕ) :
    annotateRecord fuel byId altered (cap, i) =
      if id ∈ altered then some ⟨.altered, i⟩
      else (reader.followParents byId altered fuel [] cap).map fun cites => ⟨.ofCites cites, i⟩ := by
  rw [annotateRecord, h, Option.bind_eq_bind, Option.bind_some, isIn, Option.bind_eq_bind, Option.bind_some]
  by_cases hid : id ∈ altered
  · rw [if_pos hid, if_pos (decide_eq_true hid)]
    rfl
  · rw [if_neg hid, if_neg (by simpa using hid)]
    exact Option.map_eq_bind.symm

/-- The row of one record. -/
theorem exists_annotateRecord {fuel : ℕ} (hcaps : ∀ r ∈ records, IsCapsule r.1)
    (hdistinct : (records.map fun r => itemId r.1).Nodup) (hfuel : records.length < fuel)
    {altered : List String} {byId : List (String × Tree)}
    (haltered : alteredIds ((records.map Prod.fst).map unwrap) (records.map Prod.snd) = some altered)
    (hbyId : reader.capsulesById ((records.map Prod.fst).map unwrap) = some byId) (i : ℕ)
    {r : Tree × GraphView} (hr : r ∈ records) :
    ∃ n, annotateRecord fuel (fun id => byId.lookup id) altered (unwrap r.1, i) = some n ∧
      IsRow (records.map placeOf) (placeOf r) n.toRow := by
  obtain ⟨id, hget, hid⟩ := (hcaps r hr).exists_id
  have hmark := mem_altered_iff hdistinct haltered hr hid
  rw [annotateRecord_of_str hget]
  by_cases hmismatched : r.2.isMismatched = true
  · rw [if_pos (hmark.mpr hmismatched)]
    exact ⟨_, rfl, .of_altered hmismatched⟩
  · rw [if_neg fun hid => hmismatched (hmark.mp hid)]
    have hids : (((records.map Prod.fst).map unwrap).map capsuleId).Nodup := by
      simpa [Function.comp_def, itemId] using hdistinct
    have hplaces : (records.map placeOf).map Prod.fst = ((records.map Prod.fst).map unwrap).map link := by
      simp [placeOf, Function.comp_def]
    have hparents : ∀ cap ∈ (records.map Prod.fst).map unwrap, (reader.parentOf cap).isSome := by
      intro cap hcap
      obtain ⟨item, hitem, rfl⟩ := List.mem_map.mp hcap
      obtain ⟨r, hr, rfl⟩ := List.mem_map.mp hitem
      exact (hcaps r hr).parentOf_isSome
    obtain ⟨cites, hcites, hreaches⟩ := Reader.exists_followParents hparents hids hbyId hplaces
      (mem_alteredIds_iff haltered) (by simpa using hfuel)
      (List.mem_map_of_mem (List.mem_map_of_mem hr))
    rw [hcites]
    exact ⟨_, rfl, .of_cites (Bool.eq_false_of_not_eq_true hmismatched) hreaches⟩

/-- The rows of the table: the walks end, and each row says what its record is. -/
theorem annotateRecords_spec {fuel : ℕ} (hcaps : ∀ r ∈ records, IsCapsule r.1)
    (hdistinct : (records.map fun r => itemId r.1).Nodup) (hfuel : records.length < fuel) :
    ∃ notes, annotateRecords fuel (records.map Prod.fst) (records.map Prod.snd) = some notes ∧
      notes.length = records.length ∧
      ∀ i, ∀ hr : i < records.length, ∀ hn : i < notes.length,
        IsRow (records.map placeOf) (placeOf records[i]) notes[i].toRow := by
  have hmem : ∀ item ∈ records.map Prod.fst, IsCapsule item := by
    intro item hitem
    obtain ⟨r, hr, rfl⟩ := List.mem_map.mp hitem
    exact hcaps r hr
  have hlengths : (records.map Prod.snd).length = (records.map Prod.fst).length := by
    rw [List.length_map, List.length_map]
  have hreads : ∀ cap ∈ (records.map Prod.fst).map unwrap, (reader.idOf cap).isSome := by
    intro cap hcap
    obtain ⟨item, hitem, rfl⟩ := List.mem_map.mp hcap
    exact (hmem item hitem).idOf_isSome
  obtain ⟨altered, haltered⟩ := exists_alteredIds hlengths hmem
  obtain ⟨byId, hbyId⟩ := Reader.exists_capsulesById hreads
  have hrounds : ∀ entry ∈ ((records.map Prod.fst).map unwrap).zipIdx,
      (annotateRecord fuel (fun id => byId.lookup id) altered entry).isSome := by
    rintro ⟨cap, i⟩ hentry
    obtain ⟨item, hitem, rfl⟩ := List.mem_map.mp (List.fst_mem_of_mem_zipIdx hentry)
    obtain ⟨r, hr, rfl⟩ := List.mem_map.mp hitem
    obtain ⟨n, hn, -⟩ := exists_annotateRecord hcaps hdistinct hfuel haltered hbyId i hr
    rw [hn]
    rfl
  obtain ⟨notes, hnotes⟩ := Octets.exists_mapM hrounds
  have hlength : notes.length = records.length := by
    rw [Octets.length_of_mapM hnotes, List.length_zipIdx, List.length_map, List.length_map]
  refine ⟨notes, ?_, hlength, fun i hr hn => ?_⟩
  · rw [annotateRecords, haltered, Option.bind_eq_bind, Option.bind_some, hbyId]
    exact hnotes
  · obtain ⟨n, hn', hrow⟩ := exists_annotateRecord hcaps hdistinct hfuel haltered hbyId i (List.getElem_mem hr)
    have hi := Octets.getElem_of_mapM hnotes (by simpa using hr) hn
    rw [List.getElem_zipIdx, List.getElem_map, List.getElem_map, zero_add, hn'] at hi
    rwa [← Option.some.inj hi]

/-- The rows are the same in whatever order the records are given. -/
theorem annotateRecords_of_perm {fuel : ℕ} (hcaps : ∀ r ∈ records, IsCapsule r.1)
    (hdistinct : (records.map fun r => itemId r.1).Nodup) (hfuel : records.length < fuel)
    {notes : List RecordNote}
    (hnotes : annotateRecords fuel (records.map Prod.fst) (records.map Prod.snd) = some notes)
    {records' : List (Tree × GraphView)} (hperm : records.Perm records') :
    ∃ notes', annotateRecords fuel (records'.map Prod.fst) (records'.map Prod.snd) = some notes' ∧
      ∀ i j : ℕ, records[i]? = records'[j]? →
        notes[i]?.map RecordNote.toRow = notes'[j]?.map RecordNote.toRow := by
  have hrows : ∀ {records : List (Tree × GraphView)}, (∀ r ∈ records, IsCapsule r.1) →
      (records.map fun r => itemId r.1).Nodup → records.length < fuel → ∃ notes,
        annotateRecords fuel (records.map Prod.fst) (records.map Prod.snd) = some notes ∧
        (notes.map RecordNote.toRow).length = records.length ∧
        ∀ i, ∀ hr : i < records.length, ∀ hn : i < (notes.map RecordNote.toRow).length,
          IsRow (records.map placeOf) (placeOf records[i]) (notes.map RecordNote.toRow)[i] := by
    intro records hcaps hdistinct hfuel
    obtain ⟨notes, hnotes, hlength, hrow⟩ := annotateRecords_spec hcaps hdistinct hfuel
    refine ⟨notes, hnotes, by rw [List.length_map, hlength], fun i hr hn => ?_⟩
    rw [List.getElem_map]
    exact hrow i hr (by rwa [List.length_map] at hn)
  obtain ⟨_, hsame, hlength, hrow⟩ := hrows hcaps hdistinct hfuel
  rw [hnotes] at hsame
  obtain rfl := Option.some.inj hsame
  have hcaps' : ∀ r ∈ records', IsCapsule r.1 := fun r hr => hcaps r (hperm.mem_iff.mpr hr)
  obtain ⟨notes', hnotes', hlength', hrow'⟩ := hrows hcaps' ((hperm.map _).nodup_iff.mp hdistinct)
    (by rwa [← hperm.length_eq])
  refine ⟨notes', hnotes', fun i j h => ?_⟩
  rw [← List.getElem?_map, ← List.getElem?_map]
  exact rows_eq_of_perm hperm hlength hlength' hrow hrow' h

end ScittCose.Aac
