import Mathlib

/-!
# Records that name a parent

A record states an id and declares the id of its parent; either may be missing. Nothing is asked of a list
of records: parents may be absent, form cycles or be the record itself, and ids may repeat.

`Attested` is the order a chain is meant to show: every record after the first names another one. A scan for
absent parents alone does not show it (`attested_iff_of_gaps_eq_nil`). `Cites` is reachability along parents;
`walk` decides it when ids are distinct, and ends (`walk_spec`, `walk_isSome`).
-/

namespace Chain

/-- What a record says of its place. -/
structure Link (α : Type) where
  id : Option α
  parent : Option α
deriving DecidableEq

variable {α : Type} [DecidableEq α]

/-! ## The order of a list -/

/-- The ids the records state. -/
def ids (links : List (Link α)) : List α := links.filterMap Link.id

/-- The absent parents from a place on: where they are named, and which they are. -/
def gapsFrom (present : List α) : ℕ → List (Link α) → List (ℕ × α)
  | _, [] => []
  | i, link :: links =>
    match link.parent with
    | some p =>
      if p ∈ present then gapsFrom present (i + 1) links else (i, p) :: gapsFrom present (i + 1) links
    | none => gapsFrom present (i + 1) links

/-- The absent parents of the records after the first. -/
def gaps (links : List (Link α)) : List (ℕ × α) := gapsFrom (ids links) 1 links.tail

/-- How many records declare a parent. -/
def declared (links : List (Link α)) : ℕ := links.countP fun link => link.parent.isSome

/-- Every record after the first names another record. -/
def Attested (links : List (Link α)) : Prop :=
  ∀ i, ∀ hi : i < links.length, 0 < i → links[i].parent ≠ none ∧
    ∃ j, ∃ hj : j < links.length, j ≠ i ∧ links[j].id = links[i].parent

/-- A record after the first that declares no parent, or whose parent is the id of no record but itself. -/
def Loose (links : List (Link α)) : Prop :=
  ∃ i, ∃ hi : i < links.length, 0 < i ∧ (links[i].parent = none ∨ links[i].id = links[i].parent ∧
    ∀ j, ∀ hj : j < links.length, j ≠ i → links[j].id ≠ links[i].parent)

instance (links : List (Link α)) : Decidable (Attested links) :=
  inferInstanceAs (Decidable (∀ i, ∀ hi : i < links.length, 0 < i → links[i].parent ≠ none ∧
    ∃ j, ∃ hj : j < links.length, j ≠ i ∧ links[j].id = links[i].parent))

theorem gapsFrom_eq_nil_iff {present : List α} {i : ℕ} {links : List (Link α)} :
    gapsFrom present i links = [] ↔ ∀ link ∈ links, ∀ p, link.parent = some p → p ∈ present := by
  induction links generalizing i with
  | nil => exact iff_of_true rfl nofun
  | cons link links ih =>
      rw [List.forall_mem_cons, ← ih (i := i + 1), gapsFrom]
      cases hp : link.parent with
      | none => simp
      | some p => by_cases hmem : p ∈ present <;> simp [hmem]

omit [DecidableEq α] in
theorem mem_ids_iff {links : List (Link α)} {p : α} : p ∈ ids links ↔ ∃ link ∈ links, link.id = some p :=
  List.mem_filterMap

/-- There are no gaps when every declared parent after the first record is the id of some record. -/
theorem gaps_eq_nil_iff {links : List (Link α)} :
    gaps links = [] ↔ ∀ i, ∀ hi : i < links.length, 0 < i → links[i].parent ≠ none →
      ∃ j, ∃ hj : j < links.length, links[j].id = links[i].parent := by
  rw [gaps, gapsFrom_eq_nil_iff]
  constructor
  · intro h i hi hpos hdeclared
    obtain ⟨p, hp⟩ := Option.ne_none_iff_exists'.mp hdeclared
    have htail : links[i] ∈ links.tail := by
      obtain ⟨k, rfl⟩ := Nat.exists_eq_succ_of_ne_zero hpos.ne'
      have hk : k < links.tail.length := by rw [List.length_tail]; omega
      exact List.mem_iff_getElem.mpr ⟨k, hk, List.getElem_tail hk⟩
    obtain ⟨other, hother, hid⟩ := mem_ids_iff.mp (h _ htail p hp)
    obtain ⟨j, hj, rfl⟩ := List.getElem_of_mem hother
    exact ⟨j, hj, hid.trans hp.symm⟩
  · intro h link hlink p hp
    obtain ⟨k, hk, rfl⟩ := List.getElem_of_mem hlink
    rw [List.getElem_tail] at hp
    rw [List.length_tail] at hk
    obtain ⟨j, hj, hid⟩ := h (k + 1) (by omega) k.succ_pos (by rw [hp]; exact Option.some_ne_none p)
    exact mem_ids_iff.mpr ⟨links[j], List.getElem_mem hj, hid.trans hp⟩

/-- Without gaps, what keeps a list from being attested is a record that declares nothing or names itself. -/
theorem attested_iff_of_gaps_eq_nil {links : List (Link α)} (h : gaps links = []) :
    Attested links ↔ ¬ Loose links := by
  rw [gaps_eq_nil_iff] at h
  constructor
  · rintro hatt ⟨i, hi, hpos, hloose⟩
    obtain ⟨hdeclared, j, hj, hne, hid⟩ := hatt i hi hpos
    rcases hloose with hnone | ⟨-, halone⟩
    · exact hdeclared hnone
    · exact halone j hj hne hid
  · intro hloose i hi hpos
    have hdeclared : links[i].parent ≠ none := fun hnone => hloose ⟨i, hi, hpos, .inl hnone⟩
    refine ⟨hdeclared, ?_⟩
    by_contra halone
    obtain ⟨j, hj, hid⟩ := h i hi hpos hdeclared
    have hself : j = i := by
      by_contra hne
      exact halone ⟨j, hj, hne, hid⟩
    subst hself
    exact hloose ⟨j, hj, hpos, .inr ⟨hid, fun k hk hne hid => halone ⟨k, hk, hne, hid⟩⟩⟩

/-- A scan that passes without gaps shows the order exactly when a loose record comes with a gap, or with
whatever else keeps the scan from passing. -/
theorem attested_of_iff {links : List (Link α)} {pass : Prop} {other : Prop}
    (hpass : pass ↔ gaps links = [] ∧ ¬ other) :
    (pass → Attested links) ↔ (Loose links → gaps links ≠ [] ∨ other) := by
  rw [hpass]
  constructor
  · intro h hloose
    by_contra hno
    rw [not_or, not_ne_iff] at hno
    exact (attested_iff_of_gaps_eq_nil hno.1).mp (h hno) hloose
  · rintro h ⟨hgaps, hother⟩
    rw [attested_iff_of_gaps_eq_nil hgaps]
    intro hloose
    rcases h hloose with hne | ho
    · exact hne hgaps
    · exact hother ho

/-! ## Following parents -/

/-- Following parents from a record through the records of a list comes to an id after one or more steps. -/
inductive Cites (links : List (Link α)) : Link α → α → Prop
  | direct {link : Link α} {a : α} (h : link.parent = some a) : Cites links link a
  | through {link other : Link α} {p a : α} (h : link.parent = some p) (hmem : other ∈ links)
      (hid : other.id = some p) (hrest : Cites links other a) : Cites links link a

omit [DecidableEq α] in
theorem Cites.mono {links links' : List (Link α)} (hsub : links ⊆ links') {link : Link α} {a : α}
    (h : Cites links link a) : Cites links' link a := by
  induction h with
  | direct h => exact .direct h
  | through h hmem hid _ ih => exact .through h (hsub hmem) hid ih

/-- Following parents from a record comes to the id of a record that is marked. -/
def Reaches (records : List (Link α × Bool)) (link : Link α) : Prop :=
  ∃ r ∈ records, r.2 = true ∧ ∃ a, r.1.id = some a ∧ Cites (records.map Prod.fst) link a

omit [DecidableEq α] in
/-- The order of the records makes no difference. -/
theorem Reaches.of_perm {records records' : List (Link α × Bool)} (hperm : records.Perm records')
    {link : Link α} (h : Reaches records link) : Reaches records' link := by
  obtain ⟨r, hr, hmarked, a, ha, hcites⟩ := h
  exact ⟨r, hperm.mem_iff.mp hr, hmarked, a, ha, hcites.mono (hperm.map Prod.fst).subset⟩

section Walk

variable (byId : α → Option (Link α)) (altered : α → Bool)

/-- Follow parents until one was seen before, is altered, or is no record's id; `none` is out of fuel. -/
def walk : ℕ → List α → Link α → Option Bool
  | 0, _, _ => none
  | fuel + 1, seen, cur =>
    match cur.parent with
    | none => some false
    | some p =>
      if p ∈ seen then some false
      else if altered p then some true
      else
        match byId p with
        | none => some false
        | some next => walk fuel (p :: seen) next

variable {byId altered} {links : List (Link α)}

/-- What the walk keeps: no id it has seen is altered, and the parent of a record it has passed was seen too. -/
structure Walked (byId : α → Option (Link α)) (altered : α → Bool) (seen : List α) (cur : Link α) :
    Prop where
  not_altered : ∀ s ∈ seen, altered s = false
  closed : ∀ s ∈ seen, ∀ link, byId s = some link → link = cur ∨ ∃ p ∈ seen, link.parent = some p

omit [DecidableEq α] in
theorem Walked.nil (cur : Link α) : Walked byId altered [] cur :=
  ⟨fun _ hs => absurd hs List.not_mem_nil, fun _ hs => absurd hs List.not_mem_nil⟩

omit [DecidableEq α] in
/-- One more step. -/
theorem Walked.step {seen : List α} {cur next : Link α} {p : α} (hw : Walked byId altered seen cur)
    (hp : cur.parent = some p) (hclean : altered p = false) (hnext : byId p = some next) :
    Walked byId altered (p :: seen) next := by
  constructor
  · intro s hs
    rcases List.mem_cons.mp hs with rfl | hs
    · exact hclean
    · exact hw.not_altered s hs
  · intro s hs link hlink
    rcases List.mem_cons.mp hs with rfl | hs
    · left
      rw [hnext] at hlink
      exact (Option.some.inj hlink).symm
    · right
      rcases hw.closed s hs link hlink with rfl | ⟨q, hq, hparent⟩
      · exact ⟨p, List.mem_cons_self, hp⟩
      · exact ⟨q, List.mem_cons_of_mem p hq, hparent⟩

omit [DecidableEq α] in
/-- From a record whose parent was seen, only ids that were seen are reached. -/
theorem Walked.mem_seen {seen : List α} {cur : Link α} {p : α} (hw : Walked byId altered seen cur)
    (hbyId : ∀ link ∈ links, ∀ q, link.id = some q → byId q = some link) (hp : cur.parent = some p)
    (hseen : p ∈ seen) {link : Link α} {a : α} (h : Cites links link a)
    (hlink : ∃ q ∈ seen, link.parent = some q) : a ∈ seen := by
  induction h with
  | direct h =>
      obtain ⟨q, hq, hparent⟩ := hlink
      rw [h] at hparent
      rwa [Option.some.inj hparent]
  | through h hmem hid _ ih =>
      obtain ⟨q, hq, hparent⟩ := hlink
      rw [h] at hparent
      obtain rfl := Option.some.inj hparent
      apply ih
      rcases hw.closed _ hq _ (hbyId _ hmem _ hid) with rfl | hnext
      · exact ⟨p, hseen, hp⟩
      · exact hnext

/-- What the walk answers is whether an altered id is reached. -/
theorem walk_spec (hid : ∀ q link, byId q = some link → link ∈ links ∧ link.id = some q)
    (hbyId : ∀ link ∈ links, ∀ q, link.id = some q → byId q = some link) {fuel : ℕ} {seen : List α}
    {cur : Link α} (hw : Walked byId altered seen cur) {cites : Bool}
    (h : walk byId altered fuel seen cur = some cites) :
    cites = true ↔ ∃ a, altered a = true ∧ Cites links cur a := by
  induction fuel generalizing seen cur with
  | zero => cases h
  | succ fuel ih =>
      rw [walk] at h
      cases hp : cur.parent with
      | none =>
          rw [hp] at h
          obtain rfl := Option.some.inj h
          refine iff_of_false nofun ?_
          rintro ⟨a, -, hcites⟩
          cases hcites with
          | direct h => rw [hp] at h; cases h
          | through h => rw [hp] at h; cases h
      | some p =>
          rw [hp] at h
          dsimp only at h
          split_ifs at h with hseen haltered
          · -- back at an id that was seen: all that follows was seen
            obtain rfl := Option.some.inj h
            refine iff_of_false nofun ?_
            rintro ⟨a, ha, hcites⟩
            have hmem := hw.mem_seen hbyId hp hseen hcites ⟨p, hseen, hp⟩
            rw [hw.not_altered a hmem] at ha
            cases ha
          · obtain rfl := Option.some.inj h
            exact iff_of_true rfl ⟨p, haltered, .direct hp⟩
          · have hclean : altered p = false := Bool.eq_false_of_not_eq_true haltered
            cases hnext : byId p with
            | none =>
                rw [hnext] at h
                obtain rfl := Option.some.inj h
                refine iff_of_false nofun ?_
                rintro ⟨a, ha, hcites⟩
                cases hcites with
                | direct h =>
                    rw [hp] at h
                    rw [← Option.some.inj h, hclean] at ha
                    cases ha
                | through h hmem hq =>
                    rw [hp] at h
                    obtain rfl := Option.some.inj h
                    rw [hbyId _ hmem _ hq] at hnext
                    cases hnext
            | some next =>
                rw [hnext] at h
                refine (ih (hw.step hp hclean hnext) h).trans (exists_congr fun a => ?_)
                refine and_congr_right fun ha => ⟨fun hcites => ?_, fun hcites => ?_⟩
                · obtain ⟨hmem, hq⟩ := hid p next hnext
                  exact .through hp hmem hq hcites
                · cases hcites with
                  | direct h =>
                      rw [hp] at h
                      rw [← Option.some.inj h, hclean] at ha
                      cases ha
                  | through h hmem hq hrest =>
                      rw [hp] at h
                      obtain rfl := Option.some.inj h
                      rw [hbyId _ hmem _ hq] at hnext
                      rwa [← Option.some.inj hnext]

/-- Every step but the last sees one more id of a record. -/
theorem walk_isSome (hid : ∀ q link, byId q = some link → q ∈ ids links) {fuel : ℕ} {seen : List α}
    {cur : Link α} (hfuel : ((ids links).filter fun q => q ∉ seen).length < fuel) :
    (walk byId altered fuel seen cur).isSome := by
  induction fuel generalizing seen cur with
  | zero => omega
  | succ fuel ih =>
      rw [walk]
      cases hp : cur.parent with
      | none => rfl
      | some p =>
          dsimp only
          split_ifs with hseen haltered
          · rfl
          · rfl
          · cases hnext : byId p with
            | none => rfl
            | some next =>
                apply ih
                refine lt_of_lt_of_le ?_ (Nat.le_of_lt_succ hfuel)
                have hsplit : (ids links).filter (fun q => q ∉ p :: seen) =
                    ((ids links).filter fun q => q ∉ seen).filter fun q => q ≠ p := by
                  rw [List.filter_filter]
                  simp [not_or]
                rw [hsplit, List.length_filter_lt_length_iff_exists]
                refine ⟨p, List.mem_filter.mpr ⟨hid p next hnext, ?_⟩, ?_⟩
                · simpa using hseen
                · simp

/-- As many steps as there are records, and one more, are enough. -/
theorem walk_isSome_of_length (hid : ∀ q link, byId q = some link → q ∈ ids links) {fuel : ℕ}
    (hfuel : links.length < fuel) (cur : Link α) : (walk byId altered fuel [] cur).isSome := by
  refine walk_isSome hid (lt_of_le_of_lt ?_ hfuel)
  exact (List.length_filter_le _ _).trans (List.length_filterMap_le _ _)

/-- The walk answers whether a marked record is reached. -/
theorem walk_eq_some_iff_reaches {records : List (Link α × Bool)}
    (hid : ∀ q link, byId q = some link → link ∈ records.map Prod.fst ∧ link.id = some q)
    (hbyId : ∀ link ∈ records.map Prod.fst, ∀ q, link.id = some q → byId q = some link)
    (haltered : ∀ a, altered a = true ↔ ∃ r ∈ records, r.2 = true ∧ r.1.id = some a) {fuel : ℕ}
    {cur : Link α} {cites : Bool} (h : walk byId altered fuel [] cur = some cites) :
    cites = true ↔ Reaches records cur := by
  rw [walk_spec hid hbyId (.nil cur) h]
  constructor
  · rintro ⟨a, ha, hcites⟩
    obtain ⟨r, hr, hmarked, hra⟩ := (haltered a).mp ha
    exact ⟨r, hr, hmarked, a, hra, hcites⟩
  · rintro ⟨r, hr, hmarked, a, hra, hcites⟩
    exact ⟨a, (haltered a).mpr ⟨r, hr, hmarked, hra⟩, hcites⟩

end Walk

end Chain
