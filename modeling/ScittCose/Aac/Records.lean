import ScittCose.Aac.Parse
import ScittCose.Lib.Chain

/-!
# The records of a bundle

The server and the pages look for gaps in a chain, and for what a record cites, in the same way: they keep the
well-formed ids of the capsules, and follow the well-formed ids of parents. What differs is how a value is
read, and when that is an exception; a `Reader` is one way of reading. `fuel` bounds the steps of a walk along
parents.

Whatever the reader, the gaps are those of the chain the capsules form (`chainGaps_eq`), and where ids are
distinct the walk ends and tells whether an altered record is reached (`exists_followParents`).
-/

namespace ScittCose.Aac

open Json (Tree)

/-- How the id of a capsule and that of its parent are read; the inner `none` is an id that is not
well-formed. -/
structure Reader where
  idOf : Tree → Option (Option String)
  parentOf : Tree → Option (Option String)
  idOf_eq : ∀ cap id, idOf cap = some id → id = capsuleId cap
  parentOf_eq : ∀ cap parent, parentOf cap = some parent → parent = digestAt parentPath cap

/-- What a capsule says of its place. -/
def link (cap : Tree) : Chain.Link String := ⟨capsuleId cap, digestAt parentPath cap⟩

/-- `ChainGap` -/
structure ChainGap where
  beforeIndex : ℕ
  afterIndex : ℕ
  missingParent : String
deriving DecidableEq

namespace Reader

variable (R : Reader)

/-! ## Gaps -/

/-- The loop of `find_chain_gaps`, from a place on. -/
def scanGaps (ids : List String) : ℕ → List Tree → Option (List ChainGap)
  | _, [] => some []
  | i, cap :: caps => do
    let parent ← R.parentOf cap
    let gaps ← scanGaps ids (i + 1) caps
    match parent with
    | none => return gaps
    | some parent => return if parent ∈ ids then gaps else ⟨i - 1, i, parent⟩ :: gaps

/-- `find_chain_gaps`, after unwrapping. -/
def chainGaps (caps : List Tree) : Option (List ChainGap) := do
  let ids ← caps.mapM R.idOf
  R.scanGaps ids.reduceOption 1 caps.tail

variable {R}

theorem scanGaps_eq {ids : List String} {i : ℕ} {caps : List Tree} {gaps : List ChainGap}
    (h : R.scanGaps ids i caps = some gaps) :
    gaps = (Chain.gapsFrom ids i (caps.map link)).map fun g => ⟨g.1 - 1, g.1, g.2⟩ := by
  induction caps generalizing i gaps with
  | nil => exact (Option.some.inj h).symm
  | cons cap caps ih =>
      obtain ⟨parent, hparent, h⟩ := Option.bind_eq_some_iff.mp h
      obtain ⟨rest, hrest, h⟩ := Option.bind_eq_some_iff.mp h
      rw [List.map_cons, Chain.gapsFrom, link, ← R.parentOf_eq cap parent hparent]
      cases parent with
      | none => rw [← Option.some.inj h, ih hrest]
      | some parent =>
          rw [← Option.some.inj h, ih hrest]
          dsimp only
          split_ifs <;> rfl

/-- The ids are those of the chain the capsules form. -/
theorem map_idOf_eq {caps : List Tree} {ids : List (Option String)} (h : caps.mapM R.idOf = some ids) :
    ids = caps.map capsuleId :=
  (List.map_id ids).symm.trans (Octets.map_eq_of_mapM h fun cap id hid => R.idOf_eq cap id hid)

/-- The gaps are those of the chain the capsules form. -/
theorem chainGaps_eq {caps : List Tree} {gaps : List ChainGap} (h : R.chainGaps caps = some gaps) :
    gaps = (Chain.gaps (caps.map link)).map fun g => ⟨g.1 - 1, g.1, g.2⟩ := by
  obtain ⟨ids, hids, h⟩ := Option.bind_eq_some_iff.mp h
  have hall : ids.reduceOption = Chain.ids (caps.map link) := by
    rw [map_idOf_eq hids, Chain.ids, List.filterMap_map, List.reduceOption, List.filterMap_map]
    rfl
  rw [scanGaps_eq h, hall, Chain.gaps, List.map_tail]

/-! ## Capsules by id -/

variable (R)

/-- A capsule under its id, when that is well-formed. -/
def capsuleEntry (cap : Tree) : Option (Option (String × Tree)) := do
  let id ← R.idOf cap
  return id.map fun id => (id, cap)

/-- `by_id`; a capsule replaces an earlier one of its id. -/
def capsulesById (caps : List Tree) : Option (List (String × Tree)) := do
  let entries ← caps.mapM R.capsuleEntry
  return entries.reduceOption.reverse

variable {R}

theorem mem_capsulesById {caps : List Tree} {byId : List (String × Tree)}
    (h : R.capsulesById caps = some byId) (key : String) (cap : Tree) :
    (key, cap) ∈ byId ↔ cap ∈ caps ∧ capsuleId cap = some key := by
  obtain ⟨entries, hentries, h⟩ := Option.bind_eq_some_iff.mp h
  obtain rfl := Option.some.inj h
  have hmap : entries.map id = caps.map fun cap => (capsuleId cap).map fun key => (key, cap) :=
    Octets.map_eq_of_mapM hentries fun cap entry hentry => by
      obtain ⟨found, hfound, hentry⟩ := Option.bind_eq_some_iff.mp hentry
      rw [← Option.some.inj hentry, R.idOf_eq cap found hfound]
      rfl
  rw [List.map_id] at hmap
  rw [List.mem_reverse, List.reduceOption_mem_iff, hmap, List.mem_map]
  constructor
  · rintro ⟨cap', hmem, hkey⟩
    obtain ⟨key', hkey', heq⟩ := Option.map_eq_some_iff.mp hkey
    obtain ⟨rfl, rfl⟩ := Prod.mk.inj heq
    exact ⟨hmem, hkey'⟩
  · rintro ⟨hmem, hkey⟩
    exact ⟨cap, hmem, by rw [hkey]; rfl⟩

/-- A lookup finds a capsule of that id. -/
theorem lookup_capsulesById {caps : List Tree} {byId : List (String × Tree)}
    (h : R.capsulesById caps = some byId) {id : String} {cap : Tree} (hlookup : byId.lookup id = some cap) :
    cap ∈ caps ∧ capsuleId cap = some id := by
  obtain ⟨before, rest, rfl, -⟩ := List.lookup_eq_some_iff.mp hlookup
  exact (mem_capsulesById h id cap).mp (List.mem_append_right _ List.mem_cons_self)

/-- When the ids are distinct, a lookup finds the capsule of an id. -/
theorem lookup_capsulesById_iff {caps : List Tree} {byId : List (String × Tree)}
    (h : R.capsulesById caps = some byId) (hdistinct : (caps.map capsuleId).Nodup) {id : String}
    {cap : Tree} : byId.lookup id = some cap ↔ cap ∈ caps ∧ capsuleId cap = some id := by
  refine ⟨lookup_capsulesById h, ?_⟩
  rintro ⟨hmem, hid⟩
  have hentry : (id, cap) ∈ byId := (mem_capsulesById h id cap).mpr ⟨hmem, hid⟩
  have hsome : (byId.lookup id).isSome := List.lookup_isSome_iff.mpr ⟨(id, cap), hentry, by simp⟩
  obtain ⟨other, hother⟩ := Option.isSome_iff_exists.mp hsome
  obtain ⟨homem, hoid⟩ := lookup_capsulesById h hother
  rw [hother, List.inj_on_of_nodup_map hdistinct homem hmem (hoid.trans hid.symm)]

/-- There is such a table when every id is read. -/
theorem exists_capsulesById {caps : List Tree} (h : ∀ cap ∈ caps, (R.idOf cap).isSome) :
    ∃ byId, R.capsulesById caps = some byId := by
  have hentry : ∀ cap ∈ caps, (R.capsuleEntry cap).isSome := by
    intro cap hcap
    obtain ⟨id, hid⟩ := Option.isSome_iff_exists.mp (h cap hcap)
    rw [capsuleEntry, hid]
    rfl
  obtain ⟨entries, hentries⟩ := Octets.exists_mapM hentry
  exact ⟨entries.reduceOption.reverse, by rw [capsulesById, hentries]; rfl⟩

/-! ## Following parents -/

variable (R)

/-- The walk of `annotate_records`; out of fuel it is `none` too. -/
def followParents (byId : String → Option Tree) (altered : List String) :
    ℕ → List String → Tree → Option Bool
  | 0, _, _ => none
  | fuel + 1, seen, cur => do
    match ← R.parentOf cur with
    | none => return false
    | some parent =>
      if parent ∈ seen then return false
      else if parent ∈ altered then return true
      else
        match byId parent with
        | none => return false
        | some next => followParents byId altered fuel (parent :: seen) next

variable {R}

/-- The walk of the code is the walk along the parents, where these are read without an exception. -/
theorem followParents_eq {byId : String → Option Tree} {altered : List String}
    (hbyId : ∀ id cap, byId id = some cap → (R.parentOf cap).isSome) (fuel : ℕ) {seen : List String}
    {cur : Tree} (hcur : (R.parentOf cur).isSome) :
    R.followParents byId altered fuel seen cur =
      Chain.walk (fun id => (byId id).map link) (fun id => decide (id ∈ altered)) fuel seen (link cur) := by
  induction fuel generalizing seen cur with
  | zero => rfl
  | succ fuel ih =>
      obtain ⟨parent, hparent⟩ := Option.isSome_iff_exists.mp hcur
      rw [followParents, hparent, Option.bind_eq_bind, Option.bind_some, Chain.walk, link,
        ← R.parentOf_eq cur parent hparent]
      cases parent with
      | none => rfl
      | some parent =>
          dsimp only
          by_cases hseen : parent ∈ seen
          · rw [if_pos hseen, if_pos hseen]
            rfl
          · rw [if_neg hseen, if_neg hseen]
            by_cases haltered : parent ∈ altered
            · rw [if_pos haltered, if_pos (decide_eq_true haltered)]
              rfl
            · rw [if_neg haltered, if_neg (by simpa using haltered)]
              cases hnext : byId parent with
              | none => rfl
              | some next => exact ih (hbyId parent next hnext)

/-- The walk ends: every step but the last sees one more id of a capsule. -/
theorem followParents_isSome {caps : List Tree} {byId : List (String × Tree)} (altered : List String)
    {fuel : ℕ} (hparents : ∀ cap ∈ caps, (R.parentOf cap).isSome) (hbyId : R.capsulesById caps = some byId)
    (hfuel : caps.length < fuel) {cap : Tree} (hcap : cap ∈ caps) :
    (R.followParents (fun id => byId.lookup id) altered fuel [] cap).isSome := by
  have hfound : ∀ q l, (byId.lookup q).map link = some l → q ∈ Chain.ids (caps.map link) := by
    intro q l hl
    obtain ⟨next, hnext, rfl⟩ := Option.map_eq_some_iff.mp hl
    obtain ⟨hmem, hid⟩ := lookup_capsulesById hbyId hnext
    exact Chain.mem_ids_iff.mpr ⟨link next, List.mem_map_of_mem hmem, hid⟩
  rw [followParents_eq (fun id next hnext => hparents next (lookup_capsulesById hbyId hnext).1) fuel
    (hparents cap hcap)]
  apply Chain.walk_isSome_of_length hfound
  rwa [List.length_map]

/-- Where ids are distinct the walk ends, and it tells whether an altered record is reached. -/
theorem exists_followParents {caps : List Tree} {byId : List (String × Tree)} {altered : List String}
    {records : List (Chain.Link String × Bool)} {fuel : ℕ} (hparents : ∀ cap ∈ caps, (R.parentOf cap).isSome)
    (hdistinct : (caps.map capsuleId).Nodup) (hbyId : R.capsulesById caps = some byId)
    (hrecords : records.map Prod.fst = caps.map link)
    (haltered : ∀ id, id ∈ altered ↔ ∃ r ∈ records, r.2 = true ∧ r.1.id = some id)
    (hfuel : caps.length < fuel) {cap : Tree} (hcap : cap ∈ caps) :
    ∃ cites, R.followParents (fun id => byId.lookup id) altered fuel [] cap = some cites ∧
      (cites = true ↔ Chain.Reaches records (link cap)) := by
  have hlookup : ∀ {id cap}, byId.lookup id = some cap ↔ cap ∈ caps ∧ capsuleId cap = some id :=
    lookup_capsulesById_iff hbyId hdistinct
  have hfound : ∀ q l, (byId.lookup q).map link = some l → l ∈ records.map Prod.fst ∧ l.id = some q := by
    intro q l hl
    obtain ⟨next, hnext, rfl⟩ := Option.map_eq_some_iff.mp hl
    obtain ⟨hmem, hid⟩ := hlookup.mp hnext
    rw [hrecords]
    exact ⟨List.mem_map_of_mem hmem, hid⟩
  have hfinds : ∀ l ∈ records.map Prod.fst, ∀ q, l.id = some q → (byId.lookup q).map link = some l := by
    intro l hl q hq
    rw [hrecords] at hl
    obtain ⟨next, hnext, rfl⟩ := List.mem_map.mp hl
    rw [hlookup.mpr ⟨hnext, hq⟩]
    rfl
  obtain ⟨cites, hcites⟩ := Option.isSome_iff_exists.mp
    (followParents_isSome altered hparents hbyId hfuel hcap)
  refine ⟨cites, hcites, ?_⟩
  rw [followParents_eq (fun id next hnext => hparents next (hlookup.mp hnext).1) fuel
    (hparents cap hcap)] at hcites
  exact Chain.walk_eq_some_iff_reaches hfound hfinds (fun id => by rw [decide_eq_true_iff, haltered]) hcites

/-- Gaps are found when every id and every parent is read. -/
theorem exists_chainGaps {caps : List Tree} (hids : ∀ cap ∈ caps, (R.idOf cap).isSome)
    (hparents : ∀ cap ∈ caps, (R.parentOf cap).isSome) : ∃ gaps, R.chainGaps caps = some gaps := by
  obtain ⟨ids, hids⟩ := Octets.exists_mapM hids
  have hscan : ∀ (present : List String) (i : ℕ) (rest : List Tree), rest ⊆ caps →
      ∃ gaps, R.scanGaps present i rest = some gaps := by
    intro present i rest hsub
    induction rest generalizing i with
    | nil => exact ⟨[], rfl⟩
    | cons cap rest ih =>
        obtain ⟨parent, hparent⟩ := Option.isSome_iff_exists.mp (hparents cap (hsub List.mem_cons_self))
        obtain ⟨gaps, hgaps⟩ := ih (i + 1) fun x hx => hsub (List.mem_cons_of_mem cap hx)
        rw [scanGaps, hparent, Option.bind_eq_bind, Option.bind_some, hgaps]
        cases parent <;> exact ⟨_, rfl⟩
  obtain ⟨gaps, hgaps⟩ := hscan ids.reduceOption 1 caps.tail (List.tail_subset caps)
  exact ⟨gaps, by rw [chainGaps, hids]; exact hgaps⟩

end Reader

/-! ## The rows of the table -/

inductive Note where
  | verifies
  | digestMismatch
  | citesAltered
deriving DecidableEq

/-- The row of a record. -/
structure Row where
  note : Note
  isAltered : Bool
  citesAltered : Bool
deriving DecidableEq

/-- The row of an altered record. -/
def Row.altered : Row := ⟨.digestMismatch, true, false⟩

/-- The row of a record that is not altered. -/
def Row.ofCites (cites : Bool) : Row := ⟨if cites then .citesAltered else .verifies, false, cites⟩

/-- Whether a row says that its record is altered. -/
def Row.isMarked (row : Row) : Bool := row.note = .digestMismatch && row.isAltered

@[simp] theorem Row.isMarked_altered : Row.altered.isMarked = true := rfl

@[simp] theorem Row.isMarked_ofCites (cites : Bool) : (Row.ofCites cites).isMarked = false := by
  simp [Row.isMarked, Row.ofCites]

/-- What the row of a record says among the records of a bundle, each given with whether it is altered. -/
structure IsRow (records : List (Chain.Link String × Bool)) (r : Chain.Link String × Bool) (row : Row) :
    Prop where
  isAltered_eq : row.isAltered = r.2
  citesAltered_iff : row.citesAltered = true ↔ r.2 = false ∧ Chain.Reaches records r.1
  note_eq : row.note = if row.isAltered then .digestMismatch else if row.citesAltered then .citesAltered
    else .verifies

namespace IsRow

variable {records records' : List (Chain.Link String × Bool)} {r : Chain.Link String × Bool} {row row' : Row}

theorem of_altered (h : r.2 = true) : IsRow records r Row.altered := by
  refine ⟨h.symm, iff_of_false Bool.false_ne_true fun hr => ?_, rfl⟩
  rw [h] at hr
  exact Bool.false_ne_true hr.1.symm

theorem of_cites {cites : Bool} (h : r.2 = false) (hcites : cites = true ↔ Chain.Reaches records r.1) :
    IsRow records r (Row.ofCites cites) := by
  refine ⟨h.symm, hcites.trans (and_iff_right h).symm, ?_⟩
  cases cites <;> rfl

/-- The row of a record is the same in whatever order the records are given. -/
theorem eq_of_perm (hperm : records.Perm records') (h : IsRow records r row) (h' : IsRow records' r row') :
    row = row' := by
  have haltered : row.isAltered = row'.isAltered := h.isAltered_eq.trans h'.isAltered_eq.symm
  have hcites : row.citesAltered = row'.citesAltered := by
    rw [Bool.eq_iff_iff, h.citesAltered_iff, h'.citesAltered_iff]
    exact and_congr_right fun _ => ⟨fun hr => hr.of_perm hperm, fun hr => hr.of_perm hperm.symm⟩
  have hnote : row.note = row'.note := by rw [h.note_eq, h'.note_eq, haltered, hcites]
  cases row
  cases row'
  congr

end IsRow

/-- Two tables of one bundle, its records in another order, agree on each record. -/
theorem rows_eq_of_perm {ρ : Type} {place : ρ → Chain.Link String × Bool} {records records' : List ρ}
    {rows rows' : List Row} (hperm : records.Perm records') (hlength : rows.length = records.length)
    (hlength' : rows'.length = records'.length)
    (hrows : ∀ i, ∀ hr : i < records.length, ∀ hn : i < rows.length,
      IsRow (records.map place) (place records[i]) rows[i])
    (hrows' : ∀ i, ∀ hr : i < records'.length, ∀ hn : i < rows'.length,
      IsRow (records'.map place) (place records'[i]) rows'[i])
    {i j : ℕ} (h : records[i]? = records'[j]?) : rows[i]? = rows'[j]? := by
  by_cases hi : i < records.length
  · rw [List.getElem?_eq_getElem hi] at h
    obtain ⟨hj, hr⟩ := List.getElem?_eq_some_iff.mp h.symm
    have hn : i < rows.length := hlength.symm ▸ hi
    have hn' : j < rows'.length := hlength'.symm ▸ hj
    have hrow' := hrows' j hj hn'
    rw [hr] at hrow'
    rw [List.getElem?_eq_getElem hn, List.getElem?_eq_getElem hn',
      (hrows i hi hn).eq_of_perm (hperm.map place) hrow']
  · have hnone : records[i]? = none := List.getElem?_eq_none (not_lt.mp hi)
    rw [hnone] at h
    have hj : records'.length ≤ j := List.getElem?_eq_none_iff.mp h.symm
    rw [List.getElem?_eq_none (by omega), List.getElem?_eq_none (by omega)]

end ScittCose.Aac
