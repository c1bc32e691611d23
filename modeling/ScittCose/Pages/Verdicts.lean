import ScittCose.Pages.Ritual

/-!
# What the rituals of the pages say

An Integrity stage fails when some record it sees an id of is refuted or has an entry that disagrees
(`status_integrity_eq_fail_iff`). A Sequence stage passes when there are no gaps and at least as many records
declare a parent as there are links (`status_sequence_pass_iff`).
-/

namespace ScittCose.Pages

open Json (Tree)
open Aac (hex64 link RitualStage Status)

/-! ## Sequence -/

/-- What the items say of their places, as the pages unwrap them. -/
def links (items : List Tree) : List (Chain.Link String) := (items.map unwrapEnvelope).map link

theorem declaredCount_eq {caps : List Tree} {n : ℕ} (h : declaredCount caps = some n) :
    n = Chain.declared (caps.map link) := by
  obtain ⟨parents, hparents, h⟩ := Option.bind_eq_some_iff.mp h
  have hmap : parents.map id = caps.map fun cap => (link cap).parent :=
    Octets.map_eq_of_mapM hparents fun cap parent hparent => parentOf_eq cap parent hparent
  rw [List.map_id] at hmap
  rw [← Option.some.inj h, hmap, Chain.declared, List.countP_map, List.countP_map]
  rfl

theorem sequenceStage_spec {capsules : List Tree} {undeclared : Option Finding}
    {ofGap : Aac.ChainGap → Option Finding} {finding : Option Finding} {sequence : RitualStage × Option Finding}
    (h : sequenceStage capsules undeclared ofGap finding = some sequence) :
    sequence.1.name = .sequence ∧ (sequence.1.status = .pass ↔ 2 ≤ capsules.length ∧
      Chain.gaps (links capsules) = [] ∧ ¬ Chain.declared (links capsules) < capsules.length - 1) := by
  obtain ⟨declared, hdeclared, h⟩ := Option.bind_eq_some_iff.mp h
  obtain ⟨gaps, hgaps, h⟩ := Option.bind_eq_some_iff.mp h
  rw [links, ← declaredCount_eq hdeclared, ← List.map_eq_nil_iff, ← Aac.Reader.chainGaps_eq hgaps]
  rw [List.length_map] at h
  by_cases hsingle : capsules.length < 2
  · rw [if_pos hsingle] at h
    obtain rfl := Option.some.inj h
    exact ⟨rfl, iff_of_false nofun fun hpass => by omega⟩
  rw [if_neg hsingle] at h
  by_cases hnone : declared = 0
  · rw [if_pos hnone] at h
    obtain rfl := Option.some.inj h
    exact ⟨rfl, iff_of_false nofun fun hpass => by omega⟩
  rw [if_neg hnone] at h
  cases gaps with
  | nil =>
      by_cases hfew : declared < capsules.length - 1
      · rw [if_pos hfew] at h
        obtain rfl := Option.some.inj h
        exact ⟨rfl, iff_of_false nofun fun hpass => hpass.2.2 hfew⟩
      · rw [if_neg hfew] at h
        obtain rfl := Option.some.inj h
        exact ⟨rfl, iff_of_true rfl ⟨by omega, rfl, hfew⟩⟩
  | cons g gaps =>
      cases finding with
      | some finding =>
          obtain rfl := Option.some.inj h
          exact ⟨rfl, iff_of_false nofun fun hpass => nomatch hpass.2.1⟩
      | none =>
          obtain ⟨finding, -, h⟩ := Option.bind_eq_some_iff.mp h
          obtain rfl := Option.some.inj h
          exact ⟨rfl, iff_of_false nofun fun hpass => nomatch hpass.2.1⟩

/-! ## Integrity -/

/-- A record an Integrity stage counts as altered: it has an id there, and is refuted or has an entry that
disagrees. -/
def IsBad (idOf : Tree → Option (Option Tree)) (graphOf : Tree → String → Option Graph)
    (integrity : Option (List IdCheck)) (entry : Tree × ℕ) : Prop :=
  ∃ value id, idOf entry.1 = some value ∧ value.bind hex64 = some id ∧
    (isRefuted integrity entry.2 = true ∨
      ∃ g, graphOf entry.1 id = some g ∧ ∃ e ∈ g.privlog, e.matchOk = some false)

/-- A tally in which something is altered has a first mismatch. -/
def Tally.Valid (s : Tally) : Prop := s.altered ≠ [] → s.first.isSome

theorem Tally.valid_add (s : Tally) (id : String) (m : FirstMismatch) : (s.add id m).Valid := by
  intro _
  rw [Tally.add]
  cases s.first <;> rfl

@[simp] theorem Tally.altered_add (s : Tally) (id : String) (m : FirstMismatch) :
    (s.add id m).altered = s.altered ++ [id] := rfl

theorem Tally.refute_eq (s : Tally) (integrity : Option (List IdCheck)) (i : ℕ) (id : String) :
    (∃ check, s.refute integrity i id = s.add id (.body check) ∧ isRefuted integrity i = true) ∨
      (s.refute integrity i id = s ∧ isRefuted integrity i = false) := by
  unfold Tally.refute isRefuted
  cases integrity.bind fun checks => checks[i]? with
  | none => exact .inr ⟨rfl, rfl⟩
  | some check =>
      by_cases hok : check.ok = some false
      · exact .inl ⟨check, if_pos hok, by simpa using hok⟩
      · exact .inr ⟨if_neg hok, by simpa using hok⟩

section Tally

variable {idOf : Tree → Option (Option Tree)} {graphOf : Tree → String → Option Graph}
  {integrity : Option (List IdCheck)}

theorem tallyRound_spec {s s' : Tally} {entry : Tree × ℕ}
    (h : tallyRound idOf graphOf integrity s entry = some s') :
    (s.Valid → s'.Valid) ∧ (s'.altered ≠ [] ↔ s.altered ≠ [] ∨ IsBad idOf graphOf integrity entry) := by
  obtain ⟨value, hvalue, h⟩ := Option.bind_eq_some_iff.mp h
  have hbad : IsBad idOf graphOf integrity entry ↔ ∃ id, value.bind hex64 = some id ∧
      (isRefuted integrity entry.2 = true ∨
        ∃ g, graphOf entry.1 id = some g ∧ ∃ e ∈ g.privlog, e.matchOk = some false) := by
    constructor
    · rintro ⟨value', id, hvalue', hrest⟩
      rw [hvalue] at hvalue'
      obtain rfl := Option.some.inj hvalue'
      exact ⟨id, hrest⟩
    · rintro ⟨id, hrest⟩
      exact ⟨value, id, hvalue, hrest⟩
  rw [hbad]
  cases hid : value.bind hex64 with
  | none =>
      rw [hid] at h
      obtain rfl := Option.some.inj h
      simp
  | some id =>
      rw [hid] at h
      obtain ⟨g, hg, h⟩ := Option.bind_eq_some_iff.mp h
      have hentry : (∃ id', some id = some id' ∧ (isRefuted integrity entry.2 = true ∨
            ∃ g, graphOf entry.1 id' = some g ∧ ∃ e ∈ g.privlog, e.matchOk = some false)) ↔
          isRefuted integrity entry.2 = true ∨
            (g.privlog.filter fun e => e.matchOk = some false) ≠ [] := by
        simp [hg, List.filter_eq_nil_iff]
      rw [hentry]
      have hcount : (s.Valid → (s.refute integrity entry.2 id).Valid) ∧
          ((s.refute integrity entry.2 id).altered ≠ [] ↔
            s.altered ≠ [] ∨ isRefuted integrity entry.2 = true) := by
        rcases s.refute_eq integrity entry.2 id with ⟨check, heq, hrefuted⟩ | ⟨heq, hrefuted⟩
        · rw [heq]
          exact ⟨fun _ => s.valid_add id _, by simp [hrefuted]⟩
        · rw [heq]
          exact ⟨fun hs => hs, by simp [hrefuted]⟩
      cases hbads : g.privlog.filter fun e => e.matchOk = some false with
      | nil =>
          rw [hbads] at h
          obtain rfl := Option.some.inj h
          simpa using hcount
      | cons bad bads =>
          rw [hbads] at h
          obtain rfl := Option.some.inj h
          exact ⟨fun _ => Tally.valid_add _ id _, by simp⟩

theorem tally_spec {entries : List (Tree × ℕ)} {s s' : Tally}
    (h : entries.foldlM (tallyRound idOf graphOf integrity) s = some s') :
    (s.Valid → s'.Valid) ∧
      (s'.altered ≠ [] ↔ s.altered ≠ [] ∨ ∃ entry ∈ entries, IsBad idOf graphOf integrity entry) := by
  induction entries generalizing s with
  | nil =>
      obtain rfl := Option.some.inj h
      simp
  | cons entry entries ih =>
      rw [List.foldlM_cons] at h
      obtain ⟨next, hnext, hrest⟩ := Option.bind_eq_some_iff.mp h
      obtain ⟨hvalid, haltered⟩ := tallyRound_spec hnext
      obtain ⟨hvalid', haltered'⟩ := ih hrest
      refine ⟨fun hs => hvalid' (hvalid hs), ?_⟩
      simp only [haltered', haltered, List.mem_cons, exists_eq_or_imp, or_assoc]

end Tally

theorem integrityStage_spec {code : Code → Option Code} {s : Tally} {integrity : RitualStage × Option Finding}
    (h : integrityStage code s = some integrity) :
    integrity.1.name = .integrity ∧ (integrity.1.status = .fail ↔ s.altered ≠ []) ∧
      (s.altered ≠ [] → integrity.2.isSome) := by
  unfold integrityStage at h
  split at h
  · next hnil =>
      obtain rfl := Option.some.inj h
      simp [hnil]
  · next hcons _ =>
      obtain rfl := Option.some.inj h
      simp [hcons]
  · next hcons _ =>
      obtain rfl := Option.some.inj h
      simp [hcons]
  · cases h

theorem exists_integrityStage (code : Code → Option Code) {s : Tally} (hs : s.Valid) :
    ∃ integrity, integrityStage code s = some integrity := by
  unfold integrityStage
  split
  · exact ⟨_, rfl⟩
  · exact ⟨_, rfl⟩
  · exact ⟨_, rfl⟩
  · next hcons hnone =>
      have hsome := hs (by rw [hcons]; exact List.cons_ne_nil _ _)
      rw [hnone] at hsome
      cases hsome

theorem valid_empty : ({} : Tally).Valid := fun h => absurd rfl h

/-- Two stages at the head of a ritual give their statuses. -/
theorem statuses_of_stages {summary : RitualSummary} {integrity sequence : RitualStage}
    {rest : List RitualStage} (hstages : summary.stages = integrity :: sequence :: rest)
    (hintegrity : integrity.name = .integrity) (hsequence : sequence.name = .sequence) :
    summary.status .integrity = some integrity.status ∧ summary.status .sequence = some sequence.status := by
  rw [RitualSummary.status, RitualSummary.status, Aac.statusOf, Aac.statusOf, hstages]
  constructor
  · rw [List.find?_cons_of_pos (by simp [hintegrity])]
    rfl
  · rw [List.find?_cons_of_neg (by simp [hintegrity]), List.find?_cons_of_pos (by simp [hsequence])]
    rfl

/-! ## Ids -/

theorem bind_hex64_of_prop {cap : Tree} {value : Option Tree}
    (h : prop (some cap) "capsule_id" = some value) : value.bind hex64 = Aac.capsuleId cap :=
  idOf_eq cap _ (by rw [idOf, h]; rfl)

/-- What has an id is no `null`. -/
theorem exists_prop_of_capsuleId {cap : Tree} (h : (Aac.capsuleId cap).isSome) :
    ∃ value, prop (some cap) "capsule_id" = some value := by
  cases cap with
  | null => cases h
  | _ => exact ⟨_, rfl⟩

/-! ## The capsule page -/

section CapsulePage

variable {js : Js} {capsules : List Tree} {integrity : Option (List IdCheck)}
  {authenticity witness : Status × String} {summary : RitualSummary}

theorem stages_of_evaluateRitual (h : evaluateRitual js capsules integrity authenticity witness = some summary) :
    ∃ tally first second rest,
      capsules.zipIdx.foldlM (tallyRound unwrappedId (fun c _ => parseAac js c) integrity) {} = some tally ∧
      integrityStage some tally = some first ∧
      sequenceStage capsules (some (undeclaredFinding capsules.length)) (gapFinding js capsules) first.2 =
        some second ∧
      summary.stages = first.1 :: second.1 :: rest := by
  obtain ⟨tally, htally, h⟩ := Option.bind_eq_some_iff.mp h
  obtain ⟨first, hfirst, h⟩ := Option.bind_eq_some_iff.mp h
  obtain ⟨second, hsecond, h⟩ := Option.bind_eq_some_iff.mp h
  obtain rfl := Option.some.inj h
  exact ⟨tally, first, second, _, htally, hfirst, hsecond, rfl⟩

/-- The capsule page never compares a payload: only a refuted id makes a record altered. -/
theorem isBad_parseAac_iff {entry : Tree × ℕ} :
    IsBad unwrappedId (fun c _ => parseAac js c) integrity entry ↔
      isRefuted integrity entry.2 = true ∧ (Aac.capsuleId (unwrapEnvelope entry.1)).isSome := by
  constructor
  · rintro ⟨value, id, hvalue, hid, hbad⟩
    refine ⟨?_, ?_⟩
    · rcases hbad with hrefuted | ⟨g, hg, e, he, hfalse⟩
      · exact hrefuted
      · rw [matchOk_of_parseAac hg e he] at hfalse
        cases hfalse
    · rw [← bind_hex64_of_prop hvalue, hid]
      rfl
  · rintro ⟨hrefuted, hid⟩
    obtain ⟨value, hvalue⟩ := exists_prop_of_capsuleId hid
    obtain ⟨id, hid⟩ := Option.isSome_iff_exists.mp hid
    exact ⟨value, id, hvalue, (bind_hex64_of_prop hvalue).trans hid, .inl hrefuted⟩

theorem status_integrity_eq_fail_iff
    (h : evaluateRitual js capsules integrity authenticity witness = some summary) :
    summary.status .integrity = some .fail ↔ ∃ entry ∈ capsules.zipIdx,
      isRefuted integrity entry.2 = true ∧ (Aac.capsuleId (unwrapEnvelope entry.1)).isSome := by
  obtain ⟨tally, first, second, rest, htally, hfirst, hsecond, hstages⟩ := stages_of_evaluateRitual h
  obtain ⟨hname, hfail, -⟩ := integrityStage_spec hfirst
  rw [(statuses_of_stages hstages hname (sequenceStage_spec hsecond).1).1, Option.some.injEq, hfail,
    (tally_spec htally).2]
  simp only [isBad_parseAac_iff]
  exact or_iff_right fun hne => hne rfl

theorem status_sequence_pass_iff
    (h : evaluateRitual js capsules integrity authenticity witness = some summary) :
    summary.status .sequence = some .pass ↔ 2 ≤ capsules.length ∧ Chain.gaps (links capsules) = [] ∧
      ¬ Chain.declared (links capsules) < capsules.length - 1 := by
  obtain ⟨tally, first, second, rest, -, hfirst, hsecond, hstages⟩ := stages_of_evaluateRitual h
  obtain ⟨hname, hpass⟩ := sequenceStage_spec hsecond
  rw [(statuses_of_stages hstages (integrityStage_spec hfirst).1 hname).2, Option.some.injEq, hpass]

end CapsulePage

/-! ## The bundle page -/

section BundlePage

variable {env : Env} {records : List Tree} {completeness crossCheck : Status × String}
  {integrity : Option (List IdCheck)} {disclosures : Option Tree} {summary : RitualSummary}

theorem stages_of_evaluateBundleRitual
    (h : evaluateBundleRitual env records completeness crossCheck integrity disclosures = some summary) :
    ∃ tally first second rest,
      records.zipIdx.foldlM (tallyRound topLevelId (disclosedGraph env disclosures) integrity) {} = some tally ∧
      integrityStage (fun _ => none) tally = some first ∧
      sequenceStage records none bundleGapFinding first.2 = some second ∧
      summary.stages = first.1 :: second.1 :: rest := by
  obtain ⟨tally, htally, h⟩ := Option.bind_eq_some_iff.mp h
  obtain ⟨first, hfirst, h⟩ := Option.bind_eq_some_iff.mp h
  obtain ⟨second, hsecond, h⟩ := Option.bind_eq_some_iff.mp h
  obtain rfl := Option.some.inj h
  exact ⟨tally, first, second, _, htally, hfirst, hsecond, rfl⟩

theorem status_bundleIntegrity_eq_fail_iff
    (h : evaluateBundleRitual env records completeness crossCheck integrity disclosures = some summary) :
    summary.status .integrity = some .fail ↔
      ∃ entry ∈ records.zipIdx, IsBad topLevelId (disclosedGraph env disclosures) integrity entry := by
  obtain ⟨tally, first, second, rest, htally, hfirst, hsecond, hstages⟩ := stages_of_evaluateBundleRitual h
  obtain ⟨hname, hfail, -⟩ := integrityStage_spec hfirst
  rw [(statuses_of_stages hstages hname (sequenceStage_spec hsecond).1).1, Option.some.injEq, hfail,
    (tally_spec htally).2]
  exact or_iff_right fun hne => hne rfl

theorem status_bundleSequence_pass_iff
    (h : evaluateBundleRitual env records completeness crossCheck integrity disclosures = some summary) :
    summary.status .sequence = some .pass ↔ 2 ≤ records.length ∧ Chain.gaps (links records) = [] ∧
      ¬ Chain.declared (links records) < records.length - 1 := by
  obtain ⟨tally, first, second, rest, -, hfirst, hsecond, hstages⟩ := stages_of_evaluateBundleRitual h
  obtain ⟨hname, hpass⟩ := sequenceStage_spec hsecond
  rw [(statuses_of_stages hstages (integrityStage_spec hfirst).1 hname).2, Option.some.injEq, hpass]

/-- A record has an entry that disagrees once its payloads are hashed. -/
def Disagrees (env : Env) (disclosures : Option Tree) (record : Tree) (id : String) : Prop :=
  ∃ g, disclosedGraph env disclosures record id = some g ∧ ∃ e ∈ g.privlog, e.matchOk = some false

/-- The `verifyCapsuleId` results of the records, in order. -/
def checksOf (env : Env) (records : List Tree) : Option (List IdCheck) :=
  some (records.map (verifyCapsuleId env))

theorem isRefuted_checksOf {r : Tree} {i : ℕ} (hr : records[i]? = some r) :
    isRefuted (checksOf env records) i = true ↔ (verifyCapsuleId env r).ok = some false := by
  rw [isRefuted, checksOf, Option.bind_some, List.getElem?_map, hr]
  simp

/-- On the bundle page a record counts when its id is at the top level. -/
theorem exists_isBad_iff : (∃ entry ∈ records.zipIdx,
      IsBad topLevelId (disclosedGraph env disclosures) (checksOf env records) entry) ↔
    ∃ r ∈ records, ∃ id, Aac.capsuleId r = some id ∧
      ((verifyCapsuleId env r).ok = some false ∨ Disagrees env disclosures r id) := by
  constructor
  · rintro ⟨⟨r, i⟩, hentry, value, id, hvalue, hid, hbad⟩
    have hr : records[i]? = some r := List.mem_zipIdx_iff_getElem?.mp hentry
    refine ⟨r, List.mem_of_getElem? hr, id, (bind_hex64_of_prop hvalue).symm.trans hid, ?_⟩
    exact hbad.imp_left (isRefuted_checksOf hr).mp
  · rintro ⟨r, hmem, id, hid, hbad⟩
    obtain ⟨i, hr⟩ := List.mem_iff_getElem?.mp hmem
    have hsome : (Aac.capsuleId r).isSome := by rw [hid]; rfl
    obtain ⟨value, hvalue⟩ := exists_prop_of_capsuleId hsome
    exact ⟨(r, i), List.mem_zipIdx_iff_getElem?.mpr hr, value, id, hvalue,
      (bind_hex64_of_prop hvalue).trans hid, hbad.imp_left (isRefuted_checksOf hr).mpr⟩

/-- A refuted record fails the Integrity stage of the bundle page exactly when, if any is refuted, some record
with its id at the top level is refuted or disagrees with what the bundle discloses for it. -/
theorem bundleIntegrity_fails_iff
    (h : evaluateBundleRitual env records completeness crossCheck (checksOf env records) disclosures =
      some summary) :
    ((∃ r ∈ records, (verifyCapsuleId env r).ok = some false) →
      summary.status .integrity = some .fail) ↔
    ((∃ r ∈ records, (verifyCapsuleId env r).ok = some false) →
      ∃ r ∈ records, ∃ id, Aac.capsuleId r = some id ∧
        ((verifyCapsuleId env r).ok = some false ∨ Disagrees env disclosures r id)) := by
  rw [status_bundleIntegrity_eq_fail_iff h, exists_isBad_iff]

end BundlePage

/-- An id of sixty-four equal digits. -/
def sampleId (digit : Char) : String := String.ofList (List.replicate 64 digit)

/-- What the scripts run on for records without a `format_version`: their ids cannot be recomputed. -/
def sampleEnv : Env where
  js := ⟨fun n => toString n, fun _ => "", fun _ => none, fun s => s⟩
  subtle := true
  crypto := ⟨fun _ => some false, fun _ => none, fun _ _ => some [], fun _ => none⟩

/-- A record whose id was not recomputed from its body. -/
def sampleRecord : Tree := .obj [("capsule_id", .str (sampleId 'a')), ("action_type", .str "fyi")]

theorem bundleIntegrity_fails_bare :
    ∃ summary, evaluateBundleRitual sampleEnv [sampleRecord] (.skip, "") (.pass, "")
        (checksOf sampleEnv [sampleRecord]) none = some summary ∧
      ((∃ r ∈ [sampleRecord], (verifyCapsuleId sampleEnv r).ok = some false) →
        summary.status .integrity = some .fail) := by
  obtain ⟨summary, hsummary⟩ := Option.isSome_iff_exists.mp (show (evaluateBundleRitual sampleEnv [sampleRecord]
    (.skip, "") (.pass, "") (checksOf sampleEnv [sampleRecord]) none).isSome by decide +kernel)
  refine ⟨summary, hsummary, (bundleIntegrity_fails_iff hsummary).mpr fun _ => ?_⟩
  exact ⟨sampleRecord, List.mem_singleton_self _, sampleId 'a', by decide +kernel, .inl (by decide +kernel)⟩

/-- In an envelope the same record passes. -/
theorem bundleIntegrity_passes_wrapped :
    let records : List Tree := [.obj [("capsule", sampleRecord), ("disclosures", .obj [])]]
    (∃ r ∈ records, (verifyCapsuleId sampleEnv r).ok = some false) ∧
      (evaluateBundleRitual sampleEnv records (.skip, "") (.pass, "") (checksOf sampleEnv records) none).map
        (fun summary => summary.status .integrity) = some (some .pass) := by
  decide +kernel

/-! ## What a passing Sequence stage shows -/

/-- A record that names a parent. -/
def childRecord (id parent : Char) : Tree :=
  .obj [("capsule_id", .str (sampleId id)), ("chain", .obj [("parent_capsule_id", .str (sampleId parent))])]

end ScittCose.Pages
