import ScittCose.Receipt.Rust
import ScittCose.Receipt.Go
import ScittCose.Receipt.Soundness

/-!
# The order of the inclusion proofs

The inclusion proofs are not signed: who carries a receipt may list them in any order. A `Carrier` is a
receipt with a place for the array of its proofs. Each of the three verifiers reads an array of proofs
entry by entry and then looks for an entry whose root the signature verifies over, so neither `ok` nor
`failed_at` depends on the order of the entries (`verdict_of_perm`).
-/

namespace ScittCose.Receipt

open Cbor
open EncodingRule (Plain Grammar)

/-! ## Items of one shape -/

/-- Two items that the encoding rule and the size limit cannot tell apart. -/
structure Alike (x y : Item) : Prop where
  plain : Plain x ↔ Plain y
  encodable : x.Encodable ↔ y.Encodable
  depth : x.depth = y.depth
  length : (encode x).length = (encode y).length

section Alike

variable {x y : Item}

theorem depthList_eq_of_perm {xs ys : List Item} (h : xs.Perm ys) : depthList xs = depthList ys := by
  have hle : ∀ {xs ys : List Item}, xs.Perm ys → depthList xs ≤ depthList ys := by
    intro xs ys h
    rw [depthList_le_iff]
    intro x hx
    exact depthList_le_iff.mp le_rfl x (h.mem_iff.mp hx)
  exact le_antisymm (hle h) (hle h.symm)

/-- The members of an array in another order. -/
theorem Alike.of_perm {xs ys : List Item} (h : xs.Perm ys) : Alike (.array xs) (.array ys) where
  plain := by
    simp only [Plain, EncodingRule.plainList_iff, h.length_eq, h.mem_iff]
  encodable := by
    simp only [Item.Encodable, encodableList_iff, h.length_eq, h.mem_iff]
  depth := depthList_eq_of_perm h
  length := by
    rw [encode, encode, encodeList_eq_flatMap, encodeList_eq_flatMap, List.length_append,
      List.length_append, h.length_eq, (h.flatMap_right encode).length_eq]

/-- A member of an array in the place of another. -/
theorem Alike.member (h : Alike x y) (xs ys : List Item) :
    Alike (.array (xs ++ x :: ys)) (.array (xs ++ y :: ys)) where
  plain := by
    simp only [Plain, EncodingRule.plainList_iff, List.forall_mem_append, List.forall_mem_cons, h.plain,
      List.length_append, List.length_cons]
  encodable := by
    simp only [Item.Encodable, encodableList_iff, List.forall_mem_append, List.forall_mem_cons,
      h.encodable, List.length_append, List.length_cons]
  depth := by
    have hle : ∀ d, depthList (xs ++ x :: ys) ≤ d ↔ depthList (xs ++ y :: ys) ≤ d := by
      intro d
      simp only [depthList_le_iff, List.forall_mem_append, List.forall_mem_cons, h.depth]
    exact le_antisymm ((hle _).mpr le_rfl) ((hle _).mp le_rfl)
  length := by
    simp only [encode, encodeList_eq_flatMap, List.flatMap_append, List.flatMap_cons,
      List.length_append, List.length_cons, h.length]

/-- A value of a map in the place of another. -/
theorem Alike.value (h : Alike x y) (key : Item) (before after : Dict) :
    Alike (.map (before ++ (key, x) :: after)) (.map (before ++ (key, y) :: after)) where
  plain := by
    simp only [Plain, EncodingRule.plainPairs_iff, List.forall_mem_append, List.forall_mem_cons, h.plain,
      List.length_append, List.length_cons, List.map_append, List.map_cons]
  encodable := by
    simp only [Item.Encodable, encodablePairs_iff, List.forall_mem_append, List.forall_mem_cons,
      h.encodable, List.length_append, List.length_cons]
  depth := by
    have hle : ∀ d, depthPairs (before ++ (key, x) :: after) ≤ d ↔
        depthPairs (before ++ (key, y) :: after) ≤ d := by
      intro d
      simp only [depthPairs_le_iff, List.forall_mem_append, List.forall_mem_cons, h.depth]
    exact le_antisymm ((hle _).mpr le_rfl) ((hle _).mp le_rfl)
  length := by
    simp only [encode, encodePairs_eq_flatMap, List.flatMap_append, List.flatMap_cons,
      List.length_append, List.length_cons, h.length]

/-- The rule admits both under the outer tag, or neither. -/
theorem Alike.grammar (h : Alike x y) :
    Grammar true (.tag EncodingRule.coseSign1Tag x) ↔ Grammar true (.tag EncodingRule.coseSign1Tag y) := by
  simp only [Grammar, h.plain, h.depth]

theorem Alike.encodable_tag (h : Alike x y) (n : ℕ) :
    (Item.tag n x).Encodable ↔ (Item.tag n y).Encodable := by
  simp only [Item.Encodable, h.encodable]

theorem Alike.length_tag (h : Alike x y) (n : ℕ) :
    (encode (.tag n x)).length = (encode (.tag n y)).length := by
  simp only [encode, List.length_append, h.length]

end Alike

/-! ## A receipt around its proofs -/

/-- A receipt without its inclusion proofs: what surrounds the array of the proofs. -/
structure Carrier where
  protectedBstr : Octets
  /-- The unprotected header before and after its verifiable data proofs. -/
  before : Dict
  after : Dict
  /-- The verifiable data proofs before and after the inclusion proofs. -/
  vdpBefore : Dict
  vdpAfter : Dict
  payload : Item
  signature : Item
  get_before : before.get (.int hdrVdp) = none
  get_vdpBefore : vdpBefore.get (.int vdpInclusionProofs) = none

namespace Carrier

variable (c : Carrier) (ps : List Item)

/-- The verifiable data proofs with these inclusion proofs. -/
def vdp : Dict := c.vdpBefore ++ (.int vdpInclusionProofs, .array ps) :: c.vdpAfter

/-- The unprotected header. -/
def unprotected : Dict := c.before ++ (.int hdrVdp, .map (c.vdp ps)) :: c.after

/-- The message. -/
def item : Item :=
  .tag EncodingRule.coseSign1Tag
    (.array [.bytes c.protectedBstr, .map (c.unprotected ps), c.payload, c.signature])

/-- The receipt with these inclusion proofs. -/
def receipt : Octets := encode (c.item ps)

/-- What can be read of the receipt, when its protected header is `d`. -/
def envelope (d : Dict) : Envelope where
  protectedBstr := c.protectedBstr
  protectedHeader := d
  unprotected := .map (c.unprotected ps)
  signature := c.signature

/-- The protected header, where it can be read, is one of an RFC 9162 receipt. -/
def Rfc9162 : Prop :=
  ∀ d, readHeader c.protectedBstr = some d → d.get (.int hdrVds) = some (.int vdsRfc9162Sha256)

variable {c ps} {ps' : List Item} {d : Dict} {e : Envelope}

theorem vds_envelope (h : c.Rfc9162) (hd : readHeader c.protectedBstr = some d) :
    (c.envelope ps d).vds = some vdsRfc9162Sha256 := by
  rw [Headers.vds, envelope, h d hd]

theorem lookup_append {xs ys : Dict} {key value : Item} (h : xs.get key = none) :
    Dict.get (xs ++ (key, value) :: ys) key = some value := by
  rw [Dict.get] at h ⊢
  rw [List.lookup_append, h, Option.none_or, List.lookup_cons_self]

theorem get_unprotected : (c.unprotected ps).get (.int hdrVdp) = some (.map (c.vdp ps)) :=
  lookup_append c.get_before

theorem proofSlot_vdp : proofSlot (c.vdp ps) = some (.array ps) :=
  lookup_append c.get_vdpBefore

theorem go_proofSlot_vdp : Go.proofSlot (c.vdp ps) = some (.array ps) := by
  rw [Go.proofSlot_eq, proofSlot_vdp, Option.some_or]

/-- What can be read of a receipt is its envelope. -/
theorem exists_of_read (hitem : (c.item ps).Encodable) (he : Envelope.read (c.receipt ps) = some e) :
    ∃ d, readHeader c.protectedBstr = some d ∧ e = c.envelope ps d := by
  obtain ⟨-, hg, henc, hd⟩ := Envelope.read_eq_some_iff.mp he
  have hinj := encode_inj hg.encodable hitem henc
  simp only [Envelope.item, item, Item.tag.injEq, Item.array.injEq, List.cons.injEq,
    Item.bytes.injEq] at hinj
  obtain ⟨-, hprot, hunprot, -, hsig, -⟩ := hinj
  refine ⟨e.protectedHeader, hprot ▸ hd, ?_⟩
  obtain ⟨⟨protectedBstr, protectedHeader, unprotected⟩, signature⟩ := e
  simp only at hprot hunprot hsig
  subst hprot hunprot hsig
  rfl

/-- The message with its proofs in another order. -/
theorem alike (h : ps.Perm ps') :
    Alike (.array [.bytes c.protectedBstr, .map (c.unprotected ps), c.payload, c.signature])
      (.array [.bytes c.protectedBstr, .map (c.unprotected ps'), c.payload, c.signature]) :=
  (((Alike.of_perm h).value _ _ _).value _ _ _).member [.bytes c.protectedBstr]
    [c.payload, c.signature]

theorem length_receipt (h : ps.Perm ps') : (c.receipt ps).length = (c.receipt ps').length :=
  (alike h).length_tag _

theorem encodable_item (h : ps.Perm ps') (hitem : (c.item ps).Encodable) : (c.item ps').Encodable :=
  ((alike h).encodable_tag _).mp hitem

/-- A receipt that can be read can be read with its proofs in another order. -/
theorem read_of_perm (h : ps.Perm ps') (hitem : (c.item ps).Encodable)
    (hread : Envelope.read (c.receipt ps) = some (c.envelope ps d)) :
    Envelope.read (c.receipt ps') = some (c.envelope ps' d) := by
  obtain ⟨hlen, hg, henc, hd⟩ := Envelope.read_eq_some_iff.mp hread
  have hinj := encode_inj hg.encodable hitem henc
  have hpayload : c.payload = .null := by
    simp only [Envelope.item, item, envelope, Item.tag.injEq, Item.array.injEq, List.cons.injEq] at hinj
    exact hinj.2.2.2.1.symm
  have hitem' : (c.envelope ps' d).item = c.item ps' := by
    rw [item, hpayload]
    rfl
  apply Envelope.read_eq_some_iff.mpr
  rw [hitem', ← length_receipt h]
  refine ⟨hlen, ?_, rfl, hd⟩
  rw [hinj] at hg
  exact (alike h).grammar.mp hg

/-- Both receipts can be read, or neither. -/
theorem read_cases (h : ps.Perm ps') (hitem : (c.item ps).Encodable) :
    (Envelope.read (c.receipt ps) = none ∧ Envelope.read (c.receipt ps') = none) ∨
      ∃ d, readHeader c.protectedBstr = some d ∧
        Envelope.read (c.receipt ps) = some (c.envelope ps d) ∧
          Envelope.read (c.receipt ps') = some (c.envelope ps' d) := by
  cases hread : Envelope.read (c.receipt ps) with
  | some e =>
      obtain ⟨d, hd, rfl⟩ := exists_of_read hitem hread
      exact .inr ⟨d, hd, rfl, read_of_perm h hitem hread⟩
  | none =>
      cases hread' : Envelope.read (c.receipt ps') with
      | none => exact .inl ⟨rfl, rfl⟩
      | some e =>
          obtain ⟨d, hd, rfl⟩ := exists_of_read (encodable_item h hitem) hread'
          rw [read_of_perm h.symm (encodable_item h hitem) hread'] at hread
          cases hread

/-- The candidates of a receipt that can be read. -/
theorem candidates_envelope {slot : Dict → Option Item} (hslot : slot (c.vdp ps) = some (.array ps))
    (hcap : ps.length ≤ maxInclusionProofs) (node : Item → Option Octets) (hne : ps ≠ []) :
    (c.envelope ps d).candidates slot node = ps.mapM (readEntry node) := by
  have hentries : (c.envelope ps d).entries slot = some ps := by
    obtain ⟨p, ps, rfl⟩ := List.exists_cons_of_ne_nil hne
    simp only [Headers.entries, envelope, get_unprotected, hslot]
  rw [Headers.candidates_eq_entries, hentries, Option.filter_some, if_pos (by simpa using hcap),
    Option.bind_some]

/-- An entry is no longer than the receipt. -/
theorem length_lt_of_mem (hread : Envelope.read (c.receipt ps) = some (c.envelope ps d)) {b : Octets}
    (hb : .bytes b ∈ ps) : b.length < 2 ^ 63 := by
  obtain ⟨hlen, -, henc, -⟩ := Envelope.read_eq_some_iff.mp hread
  have h1 := length_le_encode_bytes b
  have h2 := length_encode_le_of_mem hb
  have h3 := @length_encode_le_of_mem_map (.int vdpInclusionProofs, .array ps) (c.vdp ps)
    (by simp [vdp])
  have h4 := @length_encode_le_of_mem_map (.int hdrVdp, .map (c.vdp ps)) (c.unprotected ps)
    (by simp [unprotected])
  have h5 := (c.envelope ps d).length_encode_le (x := .map (c.unprotected ps)) (by simp [envelope])
  rw [henc] at h5
  rw [maxMessageBytes] at hlen
  simp only at h3 h4
  omega

end Carrier

/-! ## The verdict over the entries -/

section Entries

variable (H : Hash) (leafEntry : Octets) (verifies : Octets → Bool) {read : Item → Option Candidate}
  {ps ps' : List Item}

theorem outcome_ok (cs : List Candidate) :
    (outcome H leafEntry verifies cs).ok = cs.any fun c => verifies (c.root H leafEntry) := by
  rw [outcome.eq_def]
  split
  · next c hfind =>
      have hv := List.find?_some hfind
      exact (List.any_eq_true.mpr ⟨c, List.mem_of_find?_eq_some hfind, hv⟩).symm
  · next hfind =>
      have hany : (cs.any fun c => verifies (c.root H leafEntry)) = false := by
        rw [List.any_eq_false]
        exact List.find?_eq_none.mp hfind
      rw [hany]
      cases cs <;> rfl

theorem outcome_failedAt (cs : List Candidate) :
    (outcome H leafEntry verifies cs).failedAt =
      if (cs.any fun c => verifies (c.root H leafEntry)) then none
      else if cs = [] then some .structural else some .signature := by
  rw [← outcome_ok, outcome.eq_def]
  cases cs.find? fun c => verifies (c.root H leafEntry) with
  | some c => rfl
  | none => cases cs <;> rfl

/-- Neither `ok` nor `failed_at` depends on the order of the entries. -/
theorem verdictOver_perm (h : ps.Perm ps') :
    (verdictOver H leafEntry verifies (ps'.mapM read)).ok =
        (verdictOver H leafEntry verifies (ps.mapM read)).ok ∧
      (verdictOver H leafEntry verifies (ps'.mapM read)).failedAt =
        (verdictOver H leafEntry verifies (ps.mapM read)).failedAt := by
  rw [Octets.mapM_eq_ite, Octets.mapM_eq_ite]
  simp only [h.mem_iff]
  split_ifs
  · have hcs := h.filterMap read
    have hnil : ps.filterMap read = [] ↔ ps'.filterMap read = [] := by
      constructor
      · intro hn
        exact List.perm_nil.mp (hn ▸ hcs.symm)
      · intro hn
        exact List.perm_nil.mp (hn ▸ hcs)
    simp only [verdictOver, outcome_ok, outcome_failedAt, hcs.any_eq, hnil, and_self]
  · exact ⟨rfl, rfl⟩

theorem verdictOver_ok_iff :
    (verdictOver H leafEntry verifies (ps.mapM read)).ok = true ↔
      (∀ p ∈ ps, ∃ c, read p = some c) ∧
        ∃ p ∈ ps, ∃ c, read p = some c ∧ verifies (c.root H leafEntry) = true := by
  have hsome : (∀ p ∈ ps, (read p).isSome) ↔ ∀ p ∈ ps, ∃ c, read p = some c := by
    simp only [Option.isSome_iff_exists]
  rw [Octets.mapM_eq_ite, ← hsome]
  split_ifs with hall
  · simp only [verdictOver, outcome_ok, List.any_eq_true, List.mem_filterMap, and_iff_right hall]
    constructor
    · rintro ⟨c, ⟨p, hp, hc⟩, hv⟩
      exact ⟨p, hp, c, hc, hv⟩
    · rintro ⟨p, hp, c, hc, hv⟩
      exact ⟨c, ⟨p, hp, hc⟩, hv⟩
  · exact iff_of_false Bool.false_ne_true fun h => hall h.1

end Entries

/-! ## One verifier -/

/-- The header checks pass, every entry is a well-formed proof, and one of them folds the leaf to a root
that the signature verifies over. -/
def Supported {α : Type} (receipt : Octets) (admitted : Envelope → Prop)
    (decodes : Item → α → Prop) (folds : α → Octets → Prop) (verifies : Envelope → Octets → Bool)
    (ps : List Item) : Prop :=
  ∃ e, Envelope.read receipt = some e ∧ admitted e ∧ (∀ p ∈ ps, ∃ q, decodes p q) ∧
    ∃ p ∈ ps, ∃ q root, decodes p q ∧ folds q root ∧ verifies e root = true

/-- A verifier that reads a receipt through its candidates does not depend on their order. -/
theorem Carrier.verdict_perm {α : Type} {c : Carrier} (h9162 : c.Rfc9162) {H : Hash}
    {leafEntry : Octets} (slot : Dict → Option Item) (node : Item → Option Octets)
    {admitted : Envelope → Prop} [DecidablePred admitted] {verifies : Envelope → Octets → Bool}
    (V : List Item → Verdict) {decodes : Item → α → Prop} (folds : α → Octets → Prop)
    (parts : Candidate → α)
    (hslot : ∀ ps, slot (c.vdp ps) = some (.array ps))
    (hadmitted : ∀ ps ps' d, admitted (c.envelope ps d) ↔ admitted (c.envelope ps' d))
    (hverifies : ∀ ps ps' d, verifies (c.envelope ps d) = verifies (c.envelope ps' d))
    (hnone : ∀ ps, Envelope.read (c.receipt ps) = none → V ps = .malformed)
    (hsome : ∀ ps e, Envelope.read (c.receipt ps) = some e → e.vds = some vdsRfc9162Sha256 →
      V ps = verdictOver H leafEntry (verifies e)
        (if admitted e then e.candidates slot node else none))
    (hdecodes : ∀ p, (∀ b, p = .bytes b → b.length < 2 ^ 63) → ∀ q, decodes p q ↔
      ∃ k, readEntry node p = some k ∧ parts k = q)
    (hfolds : ∀ k root, folds (parts k) root ↔ k.root H leafEntry = root)
    {ps ps' : List Item} (hperm : ps.Perm ps') (hcap : ps.length ≤ maxInclusionProofs)
    (hitem : (c.item ps).Encodable) :
    (V ps').ok = (V ps).ok ∧ (V ps').failedAt = (V ps).failedAt ∧
      ((V ps).ok = true ↔ Supported (c.receipt ps) admitted decodes folds verifies ps) := by
  rcases Carrier.read_cases hperm hitem with ⟨hread, hread'⟩ | ⟨d, hd, hread, hread'⟩
  · rw [hnone ps hread, hnone ps' hread']
    refine ⟨rfl, rfl, iff_of_false Bool.false_ne_true ?_⟩
    rintro ⟨e, he, -⟩
    rw [hread] at he
    cases he
  have hV := hsome ps _ hread (Carrier.vds_envelope h9162 hd)
  have hV' := hsome ps' _ hread' (Carrier.vds_envelope h9162 hd)
  have hsupported : Supported (c.receipt ps) admitted decodes folds verifies ps ↔
      admitted (c.envelope ps d) ∧ (∀ p ∈ ps, ∃ k, readEntry node p = some k) ∧
        ∃ p ∈ ps, ∃ k, readEntry node p = some k ∧
          verifies (c.envelope ps d) (k.root H leafEntry) = true := by
    have hdec : ∀ p ∈ ps, ∀ q, decodes p q ↔ ∃ k, readEntry node p = some k ∧ parts k = q := by
      intro p hp
      apply hdecodes p
      rintro b rfl
      exact Carrier.length_lt_of_mem hread hp
    constructor
    · rintro ⟨e, he, hadm, hall, p, hp, q, root, hq, hroot, hv⟩
      rw [hread] at he
      obtain rfl := Option.some.inj he
      obtain ⟨k, hk, rfl⟩ := (hdec p hp q).mp hq
      obtain rfl := (hfolds k root).mp hroot
      refine ⟨hadm, fun p hp => ?_, p, hp, k, hk, hv⟩
      obtain ⟨q, hq⟩ := hall p hp
      obtain ⟨k, hk, -⟩ := (hdec p hp q).mp hq
      exact ⟨k, hk⟩
    · rintro ⟨hadm, hall, p, hp, k, hk, hv⟩
      refine ⟨_, hread, hadm, fun p hp => ?_, p, hp, parts k, k.root H leafEntry,
        (hdec p hp _).mpr ⟨k, hk, rfl⟩, (hfolds k _).mpr rfl, hv⟩
      obtain ⟨k, hk⟩ := hall p hp
      exact ⟨parts k, (hdec p hp _).mpr ⟨k, hk, rfl⟩⟩
  rw [hsupported, hV, hV', ← hverifies ps ps' d]
  by_cases hadm : admitted (c.envelope ps d)
  · rw [if_pos hadm, if_pos ((hadmitted ps ps' d).mp hadm)]
    by_cases hne : ps = []
    · -- no receipt without proofs is accepted
      subst hne
      obtain rfl := List.perm_nil.mp hperm.symm
      refine ⟨rfl, rfl, iff_of_false ?_ (by simp)⟩
      simp [Headers.candidates_eq_entries, Headers.entries, Carrier.envelope, Carrier.get_unprotected,
        hslot, verdictOver, Verdict.malformed]
    · have hne' : ps' ≠ [] := fun h => hne (List.perm_nil.mp (h ▸ hperm))
      rw [Carrier.candidates_envelope (hslot ps) hcap node hne,
        Carrier.candidates_envelope (hslot ps') (hperm.length_eq ▸ hcap) node hne']
      obtain ⟨hok, hfailed⟩ := @verdictOver_perm H leafEntry (verifies (c.envelope ps d))
        (readEntry node) ps ps' hperm
      refine ⟨hok, hfailed, ?_⟩
      rw [verdictOver_ok_iff, and_iff_right hadm]
  · rw [if_neg hadm, if_neg fun h => hadm ((hadmitted ps ps' d).mpr h)]
    exact ⟨rfl, rfl, iff_of_false Bool.false_ne_true fun h => hadm h.1⟩

/-! ## The three verifiers -/

variable {L : Libraries}

/-- The Python verifier reads these numbers and this path from an entry. -/
def Decodes (L : Libraries) (entry : Item) (q : ℤ × ℤ × List String) : Prop :=
  ∃ blob, checkProofs [entry] = .ok [blob] ∧ decodeInclusionProof L blob = .ok q

theorem decodes_iff (entry : Item) (q : ℤ × ℤ × List String) :
    Decodes L entry q ↔ ∃ k, readEntry asBytes entry = some k ∧ k.hex = q := by
  have hcheck := checkProofs_toOption [entry]
  have hone : [entry].mapM readProof = (readProof entry).map fun i => [i] := by
    rw [List.mapM_cons, List.mapM_nil]
    cases readProof entry <;> rfl
  rw [hone] at hcheck
  rw [Decodes, readEntry]
  cases hproof : readProof entry with
  | none =>
      rw [hproof] at hcheck
      refine iff_of_false ?_ nofun
      rintro ⟨blob, hblob, -⟩
      rw [hblob] at hcheck
      cases hcheck
  | some i =>
      rw [hproof] at hcheck
      have hok := Octets.eq_ok_of_toOption hcheck
      obtain ⟨b, -, hread⟩ := Option.bind_eq_some_iff.mp hproof
      have hdecode := decodeInclusionProof_toOption (L := L) (EncodingRule.read_eq_some_iff.mp hread).1
      rw [hok, Option.bind_some]
      constructor
      · rintro ⟨blob, hblob, hq⟩
        obtain rfl : encode i = blob := by simpa using hblob
        rw [hq] at hdecode
        exact Option.map_eq_some_iff.mp hdecode.symm
      · rintro ⟨k, hk, rfl⟩
        rw [hk] at hdecode
        exact ⟨encode i, rfl, Octets.eq_ok_of_toOption hdecode⟩

/-- The Rust verifier reads these numbers and this path from an entry. -/
def Rust.Decodes (L : Libraries) (entry : Item) (q : ℕ × ℕ × List Octets) : Prop :=
  Rust.readCandidate L entry = .ok q

/-- The Rust verifier folds the leaf to this root. -/
def Rust.Folds (L : Libraries) (leafEntry : Octets) (q : ℕ × ℕ × List Octets) (root : Octets) : Prop :=
  Merkle.Rust.rootFromInclusionProof L.hash leafEntry q.2.1 q.1 q.2.2 = .ok (some root)

theorem Rust.decodes_iff {entry : Item} (hlen : ∀ b, entry = .bytes b → b.length < 2 ^ 63)
    (q : ℕ × ℕ × List Octets) :
    Rust.Decodes L entry q ↔ ∃ k, readEntry asBytes entry = some k ∧ k.parts = q := by
  rw [Rust.Decodes, (Rust.readCandidate_gives hlen).eq_ok_iff q, Option.map_eq_some_iff]
  rfl

/-- The Go verifier reads these numbers and this path from an entry. -/
def Go.Decodes (L : Libraries) (entry : Item) (q : ℤ × ℤ × List Octets) : Prop :=
  ∃ blob, Go.checkEntry entry = .ok blob ∧ Go.decodeInclusionProof L blob = .ok q

/-- The Go verifier folds the leaf to this root. -/
def Go.Folds (L : Libraries) (leafEntry : Octets) (q : ℤ × ℤ × List Octets) (root : Octets) : Prop :=
  Merkle.Go.rootFromInclusionProof L.hash leafEntry q.2.1 q.1 q.2.2 = .ok (some root)

theorem Go.decodes_iff {entry : Item} (hlen : ∀ b, entry = .bytes b → b.length < 2 ^ 63)
    (q : ℤ × ℤ × List Octets) :
    Go.Decodes L entry q ↔ ∃ k, readEntry goBytes entry = some k ∧ Go.goParts k = q := by
  have hcheck := Go.checkEntry_gives hlen
  rw [Go.Decodes, readEntry]
  cases hproof : readProof entry with
  | none =>
      rw [hproof] at hcheck
      obtain ⟨text, htext⟩ := hcheck.exists_refused
      rw [htext]
      exact iff_of_false (fun ⟨_, h, _⟩ => by cases h) nofun
  | some i =>
      rw [hproof] at hcheck
      obtain ⟨b, -, hread⟩ := Option.bind_eq_some_iff.mp hproof
      have hdecode := Go.decodeInclusionProof_gives (L := L) (EncodingRule.read_eq_some_iff.mp hread).1
      rw [hcheck.eq_ok, Option.bind_some, ← Option.map_eq_some_iff, ← hdecode.eq_ok_iff q]
      constructor
      · rintro ⟨blob, hblob, hq⟩
        obtain rfl := Except.ok.inj hblob
        exact hq
      · intro hq
        exact ⟨_, rfl, hq⟩

/-- The Python verifier folds the leaf to this root. -/
def Folds (L : Libraries) (leafEntryHex : String) (q : ℤ × ℤ × List String) (root : Octets) : Prop :=
  Merkle.rootFromInclusionProof L.hash leafEntryHex q.2.1 q.1 q.2.2 = .ok (some (Octets.toHex root))

/-- `ok` and `failed_at` of the Python verifier. -/
def report (L : Libraries) (receipt : Octets) (leafEntryHex logPublicKeyPem : String) :
    Bool × Option FailedAt :=
  let r := verifyReceipt L receipt leafEntryHex logPublicKeyPem
  (r.ok, r.failedAt)

/-- `ok` and `failed_at` of the Rust verifier. -/
def Rust.report (L : Libraries) (receipt leafEntry : Octets) (logPublicKeyPem : String) :
    Checked (Bool × Option FailedAt) :=
  (Rust.verifyReceipt L receipt leafEntry logPublicKeyPem).map fun r => (r.ok, r.failedAt)

/-- `ok` and `failed_at` of the Go verifier; a refusal is the end of the process. -/
def Go.report (L : Libraries) (receipt : Octets) (leafEntryHex logPubkey : String) :
    Checked (Bool × Option FailedAt) :=
  (Go.verifyReceipt L receipt logPubkey leafEntryHex).map fun r => (r.ok, r.failedAt)

section Verifiers

variable {c : Carrier} {ps ps' : List Item} {leafEntry : Octets} {leafEntryHex logPublicKeyPem : String}

theorem report_of_perm (h9162 : c.Rfc9162) (hperm : ps.Perm ps') (hcap : ps.length ≤ maxInclusionProofs)
    (hitem : (c.item ps).Encodable) (hleaf : Octets.fromHex leafEntryHex = some leafEntry) :
    report L (c.receipt ps') leafEntryHex logPublicKeyPem =
        report L (c.receipt ps) leafEntryHex logPublicKeyPem ∧
      ((report L (c.receipt ps) leafEntryHex logPublicKeyPem).1 = true ↔
        Supported (c.receipt ps) (fun e => e.Headed receiptUnderstood) (Decodes L)
          (Folds L leafEntryHex) (Envelope.verifies L.crypto logPublicKeyPem) ps) := by
  have hfolds : ∀ (k : Candidate) root,
      Folds L leafEntryHex k.hex root ↔ k.root L.hash leafEntry = root := by
    intro k root
    rw [Folds, Candidate.hex, Merkle.rootFromInclusionProof_eq_ok hleaf
      (Octets.mapM_fromHex_toHex k.auditPath), k.rootOfProof_eq, Option.map_some, Except.ok.injEq,
      Option.some.injEq, Octets.toHex_inj]
  obtain ⟨hok, hfailed, hiff⟩ := Carrier.verdict_perm h9162 proofSlot asBytes
    (fun ps => (verifyReceipt L (c.receipt ps) leafEntryHex logPublicKeyPem).verdict)
    (Folds L leafEntryHex) Candidate.hex (fun _ => Carrier.proofSlot_vdp) (fun _ _ _ => Iff.rfl)
    (fun _ _ _ => rfl) (fun _ h => verdict_of_read_none h)
    (fun _ _ he hvds => verdict_of_rfc9162 he hleaf hvds) (fun p _ q => decodes_iff p q) hfolds hperm
    hcap hitem
  exact ⟨Prod.ext hok hfailed, hiff⟩

/-- The verdict the Rust verifier reports. -/
theorem Rust.exists_verdict (L : Libraries) (receipt leafEntry : Octets) (logPublicKeyPem : String) :
    ∃ v : Verdict, Rust.report L receipt leafEntry logPublicKeyPem = .ok (v.ok, v.failedAt) ∧
      (Envelope.read receipt = none → v = .malformed) ∧
      ∀ e, Envelope.read receipt = some e → v = verdictOver L.hash leafEntry
        (Rust.verifies L.crypto logPublicKeyPem e)
        (if Rust.Admitted e then e.candidates proofSlot asBytes else none) := by
  cases he : Envelope.read receipt with
  | none =>
      obtain ⟨r, hr, hv, -⟩ := Rust.verifyReceipt_of_read_none (L := L) he leafEntry logPublicKeyPem
      refine ⟨r.verdict, ?_, fun _ => hv, nofun⟩
      rw [Rust.report, hr]
      rfl
  | some e =>
      obtain ⟨r, hr, hv, -⟩ := Rust.verifyReceipt_of_read (L := L) he leafEntry logPublicKeyPem
      refine ⟨r.verdict, ?_, nofun, ?_⟩
      · rw [Rust.report, hr]
        rfl
      · intro e' he'
        obtain rfl := Option.some.inj he'
        exact hv

theorem Rust.report_of_perm (h9162 : c.Rfc9162) (hperm : ps.Perm ps')
    (hcap : ps.length ≤ maxInclusionProofs) (hitem : (c.item ps).Encodable) :
    Rust.report L (c.receipt ps') leafEntry logPublicKeyPem =
        Rust.report L (c.receipt ps) leafEntry logPublicKeyPem ∧
      ((∃ failedAt, Rust.report L (c.receipt ps) leafEntry logPublicKeyPem = .ok (true, failedAt)) ↔
        Supported (c.receipt ps) Rust.Admitted (Rust.Decodes L) (Rust.Folds L leafEntry)
          (Rust.verifies L.crypto logPublicKeyPem) ps) := by
  have hfolds : ∀ (k : Candidate) root,
      Rust.Folds L leafEntry k.parts root ↔ k.root L.hash leafEntry = root := by
    intro k root
    rw [Rust.Folds, Candidate.parts, Merkle.Rust.rootFromInclusionProof_eq, k.rootOfProof_eq,
      Except.ok.injEq, Option.some.injEq]
  choose V hV hnone hsome using fun ps =>
    Rust.exists_verdict L (c.receipt ps) leafEntry logPublicKeyPem
  obtain ⟨hok, hfailed, hiff⟩ := Carrier.verdict_perm h9162 proofSlot asBytes V
    (Rust.Folds L leafEntry) Candidate.parts (fun _ => Carrier.proofSlot_vdp)
    (fun _ _ _ => Iff.rfl) (fun _ _ _ => rfl) hnone (fun ps e he _ => hsome ps e he)
    (fun _ hlen q => Rust.decodes_iff hlen q) hfolds hperm hcap hitem
  rw [hV, hV, hok, hfailed, ← hiff]
  simp

theorem Go.exists_verdict {key : L.crypto.PublicKey} (receipt : Octets)
    (hkey : L.crypto.loadPublicKey logPublicKeyPem = .ok key)
    (hleaf : Octets.fromHexStrict leafEntryHex = some leafEntry) :
    ∃ v : Verdict, Go.report L receipt leafEntryHex logPublicKeyPem = .ok (v.ok, v.failedAt) ∧
      (Envelope.read receipt = none → v = .malformed) ∧
      ∀ e, Envelope.read receipt = some e → e.vds = some vdsRfc9162Sha256 →
        v = verdictOver L.hash leafEntry (Envelope.verifies L.crypto logPublicKeyPem e)
          (if Go.Admitted vdsRfc9162Sha256 e then e.candidates Go.proofSlot goBytes else none) := by
  have hreport : ∀ {v}, Go.Returns L receipt logPublicKeyPem leafEntryHex v →
      Go.report L receipt leafEntryHex logPublicKeyPem = .ok (v.ok, v.failedAt) := by
    rintro v ⟨r, hr, rfl⟩
    rw [Go.report, hr]
    rfl
  cases he : Envelope.read receipt with
  | none => exact ⟨_, hreport (Go.returns_of_read_none hkey he), fun _ => rfl, nofun⟩
  | some e =>
      by_cases hvds : e.vds = some vdsRfc9162Sha256
      · refine ⟨_, hreport (Go.verdict_of_rfc9162 he hkey hleaf hvds), nofun, ?_⟩
        intro e' he' _
        obtain rfl := Option.some.inj he'
        rfl
      · -- a receipt of another structure returns too; which verdict is of no concern here
        by_cases hccf : e.vds = some vdsCcfLedgerSha256
        · exact ⟨_, hreport (Go.verdict_of_ccf he hkey hleaf hccf), nofun,
            fun e' he' h => absurd h (Option.some.inj he' ▸ hvds)⟩
        · exact ⟨_, hreport (Go.verdict_of_vds he hkey hvds hccf), nofun,
            fun e' he' h => absurd h (Option.some.inj he' ▸ hvds)⟩

theorem Go.report_of_perm (h9162 : c.Rfc9162) (hperm : ps.Perm ps')
    (hcap : ps.length ≤ maxInclusionProofs) (hitem : (c.item ps).Encodable)
    (hleaf : Octets.fromHexStrict leafEntryHex = some leafEntry) :
    Go.report L (c.receipt ps') leafEntryHex logPublicKeyPem =
        Go.report L (c.receipt ps) leafEntryHex logPublicKeyPem ∧
      ((∃ failedAt, Go.report L (c.receipt ps) leafEntryHex logPublicKeyPem = .ok (true, failedAt)) ↔
        Supported (c.receipt ps) (Go.Admitted vdsRfc9162Sha256) (Go.Decodes L)
          (Go.Folds L leafEntry) (Envelope.verifies L.crypto logPublicKeyPem) ps) := by
  cases hkey : L.crypto.loadPublicKey logPublicKeyPem with
  | error text =>
      -- the process ends, or refuses the size, before it reads a proof
      have hlen := Carrier.length_receipt (c := c) hperm
      have hne : c.receipt ps ≠ [] := encode_ne_nil hitem
      have hne' : c.receipt ps' ≠ [] := encode_ne_nil (Carrier.encodable_item hperm hitem)
      constructor
      · rw [Go.report, Go.report, Go.verifyReceipt, Go.verifyReceipt, hkey, ← hlen]
        by_cases hlong : Go.maxReceiptOctets < (c.receipt ps).length
        · rw [if_pos (.inr hlong), if_pos (.inr hlong)]
        · rw [if_neg (not_or.mpr ⟨hne', hlong⟩), if_neg (not_or.mpr ⟨hne, hlong⟩)]
      · refine iff_of_false ?_ ?_
        · rintro ⟨failedAt, h⟩
          rw [Go.report, Go.verifyReceipt, hkey] at h
          split_ifs at h
          · cases h
          · cases h
        · rintro ⟨e, -, -, -, p, -, q, root, -, -, hv⟩
          obtain ⟨key, hload⟩ := Envelope.exists_key_of_verifies hv
          rw [hkey] at hload
          cases hload
  | ok key =>
      have hfolds : ∀ (k : Candidate) root,
          Go.Folds L leafEntry (Go.goParts k) root ↔ k.root L.hash leafEntry = root := by
        intro k root
        rw [Go.Folds, Go.goParts, Merkle.Go.rootFromInclusionProof_eq, k.rootOfProof_eq,
          Except.ok.injEq, Option.some.injEq]
      choose V hV hnone hsome using fun ps => Go.exists_verdict (c.receipt ps) hkey hleaf
      obtain ⟨hok, hfailed, hiff⟩ := Carrier.verdict_perm h9162 Go.proofSlot goBytes V
        (Go.Folds L leafEntry) Go.goParts (fun _ => Carrier.go_proofSlot_vdp)
        (fun _ _ _ => Iff.rfl) (fun _ _ _ => rfl) hnone hsome
        (fun _ hlen q => Go.decodes_iff hlen q) hfolds hperm hcap hitem
      rw [hV, hV, hok, hfailed, ← hiff]
      simp

end Verifiers

/-- The verdict of each verifier is the same for every order of the inclusion proofs, and a receipt is
accepted exactly when its headers pass, every entry is a well-formed proof and one of them folds the leaf
to a root that the signature verifies over. -/
theorem verdict_of_perm (L : Libraries) (c : Carrier) (h9162 : c.Rfc9162) {ps ps' : List Item}
    (hperm : ps.Perm ps') (hcap : ps.length ≤ maxInclusionProofs) (hitem : (c.item ps).Encodable)
    (leafEntry : Octets) (logPublicKeyPem : String) :
    (∀ leafEntryHex, Octets.fromHex leafEntryHex = some leafEntry →
      report L (c.receipt ps') leafEntryHex logPublicKeyPem =
          report L (c.receipt ps) leafEntryHex logPublicKeyPem ∧
        ((report L (c.receipt ps) leafEntryHex logPublicKeyPem).1 = true ↔
          Supported (c.receipt ps) (fun e => e.Headed receiptUnderstood) (Decodes L)
            (Folds L leafEntryHex) (Envelope.verifies L.crypto logPublicKeyPem) ps)) ∧
    (Rust.report L (c.receipt ps') leafEntry logPublicKeyPem =
          Rust.report L (c.receipt ps) leafEntry logPublicKeyPem ∧
        ((∃ failedAt, Rust.report L (c.receipt ps) leafEntry logPublicKeyPem = .ok (true, failedAt)) ↔
          Supported (c.receipt ps) Rust.Admitted (Rust.Decodes L) (Rust.Folds L leafEntry)
            (Rust.verifies L.crypto logPublicKeyPem) ps)) ∧
    (∀ leafEntryHex, Octets.fromHexStrict leafEntryHex = some leafEntry →
      Go.report L (c.receipt ps') leafEntryHex logPublicKeyPem =
          Go.report L (c.receipt ps) leafEntryHex logPublicKeyPem ∧
        ((∃ failedAt,
            Go.report L (c.receipt ps) leafEntryHex logPublicKeyPem = .ok (true, failedAt)) ↔
          Supported (c.receipt ps) (Go.Admitted vdsRfc9162Sha256) (Go.Decodes L)
            (Go.Folds L leafEntry) (Envelope.verifies L.crypto logPublicKeyPem) ps)) :=
  ⟨fun _ hleaf => report_of_perm h9162 hperm hcap hitem hleaf,
    Rust.report_of_perm h9162 hperm hcap hitem,
    fun _ hleaf => Go.report_of_perm h9162 hperm hcap hitem hleaf⟩

/-! ## The receipt of the test vectors beside a donated proof -/

/-- The inclusion proof of the vector. -/
def vectorProof : Item := .bytes (Octets.ofNat 72
  0x83040182582096a296d224f285c67bee93c30f8a309157f0daa35dc5b87e410b78630a09cfc7582052c56b473e5246933e7852989cd9feba3b38f078742b93afff1e65ed46797825)

/-- A proof in a tree of one leaf. -/
def donatedProof : Item := .bytes [0x83, 0x01, 0x00, 0x80]

/-- The receipt of the vector around its proof. -/
def vectorCarrier : Carrier where
  protectedBstr := vectorProtected
  before := []
  after := []
  vdpBefore := []
  vdpAfter := []
  payload := .null
  signature := .bytes vectorSignature
  get_before := rfl
  get_vdpBefore := rfl

theorem rfc9162_vectorCarrier : vectorCarrier.Rfc9162 := by
  have hread : readHeader vectorProtected = some
      [(.int 395, .int 1), (.int 15, .map [(.int 6, .int 1700000900)]), (.int 1, .int (-8))] := by
    decide +kernel
  intro d hd
  rw [show vectorCarrier.protectedBstr = vectorProtected from rfl, hread] at hd
  obtain rfl := Option.some.inj hd
  rfl

set_option maxRecDepth 100000 in
/-- The vector verifies with the donated proof before its own, as it does the other way round. -/
theorem verdict_of_perm_vector :
    report vectorLibraries (vectorCarrier.receipt [donatedProof, vectorProof]) "01" vectorPem =
      (true, none) := by
  have hitem : (vectorCarrier.item [vectorProof, donatedProof]).Encodable := by
    simp [Carrier.item, Carrier.unprotected, Carrier.vdp, vectorCarrier, vectorProof, donatedProof,
      Item.Encodable, EncodableList, EncodablePairs, vectorProtected, vectorSignature, hdrVdp,
      vdpInclusionProofs, EncodingRule.coseSign1Tag]
  have hswap := ((verdict_of_perm vectorLibraries vectorCarrier rfc9162_vectorCarrier
    (List.Perm.swap donatedProof vectorProof []) (by decide) hitem [1] vectorPem).1 "01" (by decide)).1
  rw [hswap]
  decide +kernel

end ScittCose.Receipt
