import ScittCose.CoseSign1
import ScittCose.Merkle.Machine

/-!
# What a receipt says

The abstract receipt all verifiers read. An octet string that meets the size limit and the encoding
rule carries at most one `Envelope`: the protected header with its octets, the unprotected header and
the signature item of a detached tag-18 COSE_Sign1. A `Candidate` is an inclusion proof with a shape
a tree can have. `outcome` is the verdict over a list of candidates.
-/

namespace ScittCose.Receipt

open Cbor
open EncodingRule (IsKey Plain Grammar)
open Merkle (leafHashBytes fold expectedInclusionPathLen rootOfProof)

/-! ## Labels (`scitt_cose/receipt.py`) -/

/-- `HDR_VDS` -/
def hdrVds : ℤ := 395

/-- `HDR_VDP` -/
def hdrVdp : ℤ := 396

/-- `VDS_RFC9162_SHA256` -/
def vdsRfc9162Sha256 : ℤ := 1

/-- `VDS_CCF_LEDGER_SHA256` -/
def vdsCcfLedgerSha256 : ℤ := 2

/-- `VDP_INCLUSION_PROOFS` -/
def vdpInclusionProofs : ℤ := -1

/-- `_MAX_INCLUSION_PROOFS` -/
def maxInclusionProofs : ℕ := 16

/-- `_MAX_AUDIT_PATH` -/
def maxAuditPath : ℕ := 64

/-! ## The message -/

/-- The headers of a message: the octets of the protected header, its labels and the unprotected
header. -/
structure Headers where
  protectedBstr : Octets
  protectedHeader : Dict
  unprotected : Item

/-- A receipt that can be read at all. -/
structure Envelope extends Headers where
  signature : Item

/-- The message of an envelope: a tag-18 COSE_Sign1 with a detached payload. -/
def Envelope.item (e : Envelope) : Item :=
  .tag EncodingRule.coseSign1Tag
    (.array [.bytes e.protectedBstr, e.unprotected, .null, e.signature])

/-- The protected header of its octets; no octets are an empty header. -/
def readHeader (protectedBstr : Octets) : Option Dict :=
  if protectedBstr = [] then some []
  else
    match EncodingRule.read false protectedBstr with
    | some (.map header) => some header
    | _ => none

/-- The envelope of a receipt. -/
def Envelope.read (receipt : Octets) : Option Envelope :=
  if maxMessageBytes < receipt.length then none
  else
    match EncodingRule.read true receipt with
    | some (.tag _ (.array [.bytes protectedBstr, unprotected, .null, signature])) =>
      (readHeader protectedBstr).map fun header =>
        { protectedBstr := protectedBstr, protectedHeader := header, unprotected := unprotected,
          signature := signature }
    | _ => none

theorem readHeader_eq_some_iff {b : Octets} {d : Dict} :
    readHeader b = some d ↔ b = [] ∧ d = [] ∨ Grammar false (.map d) ∧ encode (.map d) = b := by
  rw [readHeader]
  split_ifs with hb
  · subst hb
    constructor
    · intro h
      cases h
      exact .inl ⟨rfl, rfl⟩
    · rintro (⟨-, rfl⟩ | ⟨hd, henc⟩)
      · rfl
      · exact absurd henc (encode_ne_nil hd.encodable)
  · rw [or_iff_right fun h => hb h.1]
    split
    · next header h =>
        obtain ⟨hg, henc⟩ := EncodingRule.read_eq_some_iff.mp h
        constructor
        · intro hd
          cases hd
          exact ⟨hg, henc⟩
        · rintro ⟨hg', henc'⟩
          have := encode_inj hg.encodable hg'.encodable (henc.trans henc'.symm)
          rw [Item.map.inj this]
    · next hne =>
        refine ⟨fun h => (by cases h), fun h => ?_⟩
        exact absurd (EncodingRule.read_eq_some_iff.mpr h) (hne d)

/-- The keys of a protected header are integers and text. -/
theorem isKey_of_readHeader {b : Octets} {d : Dict} (h : readHeader b = some d) :
    ∀ p ∈ d, IsKey p.1 := by
  rcases readHeader_eq_some_iff.mp h with ⟨-, rfl⟩ | ⟨hd, -⟩
  · simp
  · exact fun p hp => (EncodingRule.plainPairs_iff.mp hd.1.2.2 p hp).1

theorem Envelope.read_eq_some_iff {receipt : Octets} {e : Envelope} :
    Envelope.read receipt = some e ↔
      receipt.length ≤ maxMessageBytes ∧ Grammar true e.item ∧ encode e.item = receipt ∧
        readHeader e.protectedBstr = some e.protectedHeader := by
  rw [Envelope.read]
  split_ifs with hlen
  · simp only [false_iff]
    omega
  · rw [and_iff_right (not_lt.mp hlen)]
    constructor
    · intro h
      split at h
      · next n b u s hread =>
          obtain ⟨hg, henc⟩ := EncodingRule.read_eq_some_iff.mp hread
          obtain ⟨d, hd, rfl⟩ := Option.map_eq_some_iff.mp h
          obtain rfl : n = 18 := hg.2.1
          exact ⟨hg, henc, hd⟩
      · cases h
    · rintro ⟨hg, henc, hd⟩
      have hread := EncodingRule.read_eq_some_iff.mpr ⟨hg, henc⟩
      rw [hread]
      simp only [Envelope.item]
      rw [hd]
      rfl

theorem Envelope.read_item {receipt : Octets} {e : Envelope} (h : Envelope.read receipt = some e) :
    EncodingRule.read true receipt = some e.item := by
  obtain ⟨-, hg, henc, -⟩ := Envelope.read_eq_some_iff.mp h
  exact EncodingRule.read_eq_some_iff.mpr ⟨hg, henc⟩

/-- The items of a message are no longer than it is. -/
theorem Envelope.length_encode_le (e : Envelope) {x : Item}
    (hx : x ∈ [Item.bytes e.protectedBstr, e.unprotected, .null, e.signature]) :
    (encode x).length ≤ (encode e.item).length :=
  (length_encode_le_of_mem hx).trans (length_le_encode_tag _ _)

/-- Octets that are no item of the rule carry no envelope. -/
theorem Envelope.read_eq_none {receipt : Octets} (h : EncodingRule.read true receipt = none) :
    Envelope.read receipt = none := by
  cases he : Envelope.read receipt with
  | none => rfl
  | some e => rw [Envelope.read_item he] at h; cases h

/-! ## Proofs -/

/-- An inclusion proof with a shape a tree can have. -/
structure Candidate where
  treeSize : ℕ
  leafIndex : ℕ
  auditPath : List Octets
  leafIndex_lt : leafIndex < treeSize
  treeSize_le : treeSize ≤ 2 ^ 62
  length_auditPath : auditPath.length = expectedInclusionPathLen treeSize leafIndex
  length_node : ∀ node ∈ auditPath, node.length = 32

/-- An item that is a byte string. -/
def asBytes : Item → Option Octets
  | .bytes b => some b
  | _ => none

/-- An item that is an integer. -/
def asInteger : Item → Option ℤ
  | .int n => some n
  | _ => none

/-- An item that is a text string. -/
def asText : Item → Option String
  | .text s => some s
  | _ => none

/-- An item that is an array. -/
def asArray : Item → Option (List Item)
  | .array xs => some xs
  | _ => none

/-- An item that is a map. -/
def asMap : Item → Option Dict
  | .map d => some d
  | _ => none

/-- The shape of an inclusion proof, on the integers a proof carries. -/
abbrev Candidate.Shape (treeSize leafIndex : ℤ) (auditPath : List Octets) : Prop :=
  0 ≤ leafIndex ∧ leafIndex < treeSize ∧ treeSize ≤ 2 ^ 62 ∧
    auditPath.length = expectedInclusionPathLen treeSize.toNat leafIndex.toNat ∧
    ∀ b ∈ auditPath, b.length = 32

section Shape

variable {treeSize leafIndex : ℤ} {auditPath : List Octets}

theorem Candidate.Shape.lt (h : Candidate.Shape treeSize leafIndex auditPath) :
    leafIndex.toNat < treeSize.toNat := by
  obtain ⟨h0, h1, -⟩ := h
  omega

theorem Candidate.Shape.le (h : Candidate.Shape treeSize leafIndex auditPath) :
    treeSize.toNat ≤ 2 ^ 62 := by
  obtain ⟨-, -, h2, -⟩ := h
  omega

theorem Candidate.Shape.length (h : Candidate.Shape treeSize leafIndex auditPath) :
    auditPath.length = expectedInclusionPathLen treeSize.toNat leafIndex.toNat :=
  h.2.2.2.1

theorem Candidate.Shape.node (h : Candidate.Shape treeSize leafIndex auditPath) :
    ∀ b ∈ auditPath, b.length = 32 :=
  h.2.2.2.2

end Shape

/-- The candidate `[tree_size, leaf_index, [nodes]]` of an item; `node` reads a node. -/
def Candidate.read (node : Item → Option Octets) : Item → Option Candidate
  | .array [.int treeSize, .int leafIndex, .array path] =>
    (path.mapM node).bind fun auditPath =>
      if h : Candidate.Shape treeSize leafIndex auditPath then
        some {
          treeSize := treeSize.toNat
          leafIndex := leafIndex.toNat
          auditPath := auditPath
          leafIndex_lt := h.lt
          treeSize_le := h.le
          length_auditPath := h.length
          length_node := h.node }
      else none
  | _ => none

/-- The numbers and the path of a candidate. -/
def Candidate.parts (c : Candidate) : ℕ × ℕ × List Octets := (c.treeSize, c.leafIndex, c.auditPath)

/-- A proof entry: a byte string that meets the encoding rule. -/
def readProof (entry : Item) : Option Item := (asBytes entry).bind (EncodingRule.read false)

/-- The candidate of a proof entry. -/
def readEntry (node : Item → Option Octets) (entry : Item) : Option Candidate :=
  (readProof entry).bind (Candidate.read node)

/-- The proofs under `slot` of the verifiable-data-proofs map: a non-empty array of byte strings
that meet the encoding rule. -/
def Headers.proofs (slot : Dict → Option Item) (h : Headers) : Option (List Item) :=
  match h.unprotected with
  | .map u =>
    match Dict.get u (.int hdrVdp) with
    | some (.map vdp) =>
      match slot vdp with
      | some (.array (p :: ps)) =>
        (p :: ps).mapM readProof
      | _ => none
    | _ => none
  | _ => none

/-- The entries of the array under `slot` of the verifiable-data-proofs map, when it is not empty. -/
def Headers.entries (slot : Dict → Option Item) (h : Headers) : Option (List Item) :=
  match h.unprotected with
  | .map u =>
    match Dict.get u (.int hdrVdp) with
    | some (.map vdp) =>
      match slot vdp with
      | some (.array (p :: ps)) => some (p :: ps)
      | _ => none
    | _ => none
  | _ => none

/-- The entries are no longer than the header they stand in. -/
theorem Headers.length_encode_le_of_entries {slot : Dict → Option Item}
    (hslot : ∀ vdp v, slot vdp = some v → ∃ k, (k, v) ∈ vdp) {h : Headers} {ps : List Item}
    (hps : h.entries slot = some ps) {p : Item} (hp : p ∈ ps) :
    (encode p).length ≤ (encode h.unprotected).length := by
  rw [Headers.entries] at hps
  split at hps
  · next u hu =>
      split at hps
      · next vdp hvdp =>
          split at hps
          · next q qs hq =>
              obtain rfl := Option.some.inj hps
              obtain ⟨k, hk⟩ := hslot _ _ hq
              calc (encode p).length ≤ (encode (.array (q :: qs))).length := length_encode_le_of_mem hp
                _ ≤ (encode (.map vdp)).length := length_encode_le_of_mem_map hk
                _ ≤ (encode (.map u)).length := length_encode_le_of_mem_map (Dict.mem_of_get hvdp)
                _ = (encode h.unprotected).length := by rw [hu]
          · cases hps
      · cases hps
  · cases hps

theorem Headers.ne_nil_of_entries {slot : Dict → Option Item} {h : Headers} {ps : List Item}
    (hps : h.entries slot = some ps) : ps ≠ [] := by
  rw [Headers.entries] at hps
  repeat' split at hps
  all_goals cases hps
  exact List.cons_ne_nil _ _

theorem Headers.proofs_eq_entries (slot : Dict → Option Item) (h : Headers) :
    h.proofs slot = (h.entries slot).bind fun ps => ps.mapM readProof := by
  rw [Headers.proofs, Headers.entries]
  repeat' split
  all_goals rfl

/-- No message has an empty list of proofs. -/
theorem Headers.ne_nil_of_proofs {slot : Dict → Option Item} {h : Headers} {items : List Item}
    (hp : h.proofs slot = some items) : items ≠ [] := by
  rw [h.proofs_eq_entries, Option.bind_eq_some_iff] at hp
  obtain ⟨ps, hps, hitems⟩ := hp
  rintro rfl
  have hlen := Octets.length_of_mapM hitems
  exact Headers.ne_nil_of_entries hps (List.length_eq_zero_iff.mp hlen.symm)

/-- The candidates of a message: at most 16 proofs, each with the shape of one. -/
def Headers.candidates (slot : Dict → Option Item) (node : Item → Option Octets) (h : Headers) :
    Option (List Candidate) :=
  (h.proofs slot).bind fun items =>
    if items.length ≤ maxInclusionProofs then items.mapM (Candidate.read node) else none

/-- The candidates of a message, read entry by entry. -/
theorem Headers.candidates_eq_entries (slot : Dict → Option Item) (node : Item → Option Octets)
    (h : Headers) :
    h.candidates slot node =
      ((h.entries slot).filter fun ps => ps.length ≤ maxInclusionProofs).bind fun ps =>
        ps.mapM (readEntry node) := by
  rw [Headers.candidates, h.proofs_eq_entries]
  cases h.entries slot with
  | none => rfl
  | some ps =>
      have hread : ps.mapM (readEntry node) =
          (ps.mapM readProof).bind fun items => items.mapM (Candidate.read node) :=
        (Octets.mapM_bind_mapM _ _ ps).symm
      rw [Option.bind_some, Option.filter_some]
      by_cases hlen : ps.length ≤ maxInclusionProofs
      · rw [if_pos (by simpa using hlen), Option.bind_some, hread]
        cases hps : ps.mapM readProof with
        | none => rfl
        | some items =>
            rw [Option.bind_some, Octets.length_of_mapM hps, if_pos hlen]
            rfl
      · rw [if_neg (by simpa using hlen), Option.bind_none]
        cases hps : ps.mapM readProof with
        | none => rfl
        | some items => rw [Option.bind_some, Octets.length_of_mapM hps, if_neg hlen]

/-- The label the proofs stand under. -/
def proofSlot (vdp : Dict) : Option Item := vdp.get (.int vdpInclusionProofs)

/-- The verifiable data structure of a protected header, when it is an integer. -/
def Headers.vds (h : Headers) : Option ℤ :=
  match h.protectedHeader.get (.int hdrVds) with
  | some (.int n) => some n
  | _ => none

/-- The algorithm of a protected header, when it is an integer. -/
def Headers.alg (h : Headers) : Option ℤ :=
  match h.protectedHeader.get (.int hdrAlg) with
  | some (.int n) => some n
  | _ => none

/-- The critical labels of a protected header: a non-empty array of labels, each present and
understood. -/
def Headers.Critical (understood : List Item) (h : Headers) : Prop :=
  match h.protectedHeader.get (.int hdrCrit) with
  | none => True
  | some (.array labels) => labels ≠ [] ∧
      ∀ label ∈ labels, (h.protectedHeader.get label).isSome ∧ label ∈ understood
  | some _ => False

instance (understood : List Item) (h : Headers) : Decidable (h.Critical understood) := by
  unfold Headers.Critical
  split <;> infer_instance

/-- A check of the critical labels one by one decides whether they are critical to this message. -/
theorem Headers.critical_gives {understood : List Item} {h : Headers} {loop : List Item → Checked Unit}
    (message : String) (hloop : ∀ labels, Checked.Gives (loop labels)
      (if ∀ label ∈ labels, (h.protectedHeader.get label).isSome ∧ label ∈ understood then some ()
        else none)) :
    Checked.Gives (match h.protectedHeader.get (.int hdrCrit) with
      | none => .ok ()
      | some crit =>
        match asArray crit with
        | some (label :: labels) => loop (label :: labels)
        | _ => .error (.refused message))
      (if h.Critical understood then some () else none) := by
  cases hget : h.protectedHeader.get (.int hdrCrit) with
  | none =>
      have hcrit : h.Critical understood := by
        rw [Headers.Critical, hget]
        trivial
      rw [if_pos hcrit]
      exact .ok ()
  | some crit =>
      cases crit with
      | array labels =>
          have hcrit : h.Critical understood ↔ labels ≠ [] ∧ ∀ label ∈ labels,
              (h.protectedHeader.get label).isSome ∧ label ∈ understood := by
            rw [Headers.Critical, hget]
          cases labels with
          | nil =>
              rw [if_neg fun h => (hcrit.mp h).1 rfl]
              exact .refused _
          | cons label labels =>
              have hlabels := hloop (label :: labels)
              by_cases hc : h.Critical understood
              · rw [if_pos (hcrit.mp hc).2] at hlabels
                rw [if_pos hc]
                exact hlabels
              · rw [if_neg fun hall => hc (hcrit.mpr ⟨by simp, hall⟩)] at hlabels
                rw [if_neg hc]
                exact hlabels
      | _ =>
          rw [if_neg fun h => by rw [Headers.Critical, hget] at h; exact h]
          exact .refused _

section Root

variable (H : Hash) (leafEntry : Octets)

/-- The root a candidate rebuilds. -/
def Candidate.root (c : Candidate) : Octets :=
  (rootOfProof H leafEntry c.leafIndex c.treeSize c.auditPath).getD []

/-- A candidate always rebuilds a root: its path is consumed whole. -/
theorem Candidate.rootOfProof_eq (c : Candidate) :
    rootOfProof H leafEntry c.leafIndex c.treeSize c.auditPath = some (c.root H leafEntry) := by
  obtain ⟨root, hroot⟩ : ∃ root,
      fold H (leafHashBytes H leafEntry) c.auditPath.reverse c.treeSize c.leafIndex =
        some (root, []) := by
    apply Merkle.exists_fold_of_length
    · exact c.leafIndex_lt
    · rw [List.length_reverse, c.length_auditPath, Merkle.expectedInclusionPathLen_eq]
  have h : rootOfProof H leafEntry c.leafIndex c.treeSize c.auditPath = some root := by
    rw [rootOfProof, if_pos ⟨c.leafIndex_lt, c.treeSize_le, c.length_auditPath⟩, hroot]
  rw [Candidate.root, h]
  rfl

theorem Candidate.length_root (c : Candidate) : (c.root H leafEntry).length = 32 := by
  have h := c.rootOfProof_eq H leafEntry
  rw [rootOfProof] at h
  split_ifs at h
  split at h
  · next computed hfold =>
      obtain rfl := Option.some.inj h
      exact Merkle.length_of_fold (Merkle.length_leafHashBytes leafEntry) hfold
  · cases h

/-- A root is never written as an empty text. -/
theorem Candidate.toHex_root_ne (c : Candidate) : Octets.toHex (c.root H leafEntry) ≠ "" := by
  apply Octets.toHex_ne_empty
  rw [c.length_root]
  decide

end Root

/-! ## Signatures -/

/-- The signature of an envelope verifies over a root under a key. -/
def Envelope.verifies (C : Crypto) (publicKeyPem : String) (e : Envelope) (root : Octets) : Bool :=
  match e.signature, e.alg.bind Alg.ofCode, C.loadPublicKey publicKeyPem with
  | .bytes signature, some alg, .ok key =>
    C.verify alg key (encode (sigItem e.protectedBstr root)) signature
  | _, _, _ => false

/-- A signature only verifies under a key that can be loaded. -/
theorem Envelope.exists_key_of_verifies {C : Crypto} {publicKeyPem : String} {e : Envelope}
    {root : Octets} (h : e.verifies C publicKeyPem root = true) :
    ∃ key, C.loadPublicKey publicKeyPem = .ok key := by
  rw [Envelope.verifies.eq_def] at h
  split at h
  · next key _ _ hkey => exact ⟨key, hkey⟩
  · cases h

/-! ## The verdict -/

/-- `failed_at` -/
inductive FailedAt where
  | structural
  | signature
deriving DecidableEq

/-- What the three verifiers report alike. -/
structure Verdict where
  ok : Bool
  failedAt : Option FailedAt
  root : Option String
  treeSize : Option ℤ
  leafIndex : Option ℤ
deriving DecidableEq

/-- A failure before the signature step. -/
def Verdict.malformed : Verdict := ⟨false, some .structural, none, none, none⟩

/-- The verdict on a candidate. -/
def Candidate.verdict (H : Hash) (leafEntry : Octets) (ok : Bool) (c : Candidate) : Verdict :=
  ⟨ok, if ok then none else some .signature, some (Octets.toHex (c.root H leafEntry)),
    some c.treeSize, some c.leafIndex⟩

/-- The verdict over all candidates: the first whose root the signature verifies over, or a failed
signature with the first candidate as a diagnostic. -/
def outcome (H : Hash) (leafEntry : Octets) (verifies : Octets → Bool) (cs : List Candidate) :
    Verdict :=
  match cs.find? fun c => verifies (c.root H leafEntry) with
  | some c => c.verdict H leafEntry true
  | none =>
    match cs with
    | c :: _ => c.verdict H leafEntry false
    | [] => .malformed

/-- The verdict over the candidates of a message, when it has any. -/
def verdictOver (H : Hash) (leafEntry : Octets) (verifies : Octets → Bool) :
    Option (List Candidate) → Verdict
  | some cs => outcome H leafEntry verifies cs
  | none => .malformed

/-! ## CCF proofs -/

/-- A CCF proof with the shape of one. -/
structure CcfProof where
  writeSetDigest : Octets
  ceString : String
  claimDigest : Octets
  path : List Item
  length_writeSetDigest : writeSetDigest.length = 32
  length_claimDigest : claimDigest.length = 32

/-- The CCF proof of an item; without key 2 the path is empty. -/
def CcfProof.read : Item → Option CcfProof
  | .map proof =>
    match Dict.get proof (.int 1), (Dict.get proof (.int 2)).getD (.array []) with
    | some (.array [.bytes writeSetDigest, .text ceString, .bytes claimDigest]), .array path =>
      if h : writeSetDigest.length = 32 ∧ claimDigest.length = 32 then
        some {
          writeSetDigest := writeSetDigest
          ceString := ceString
          claimDigest := claimDigest
          path := path
          length_writeSetDigest := h.1
          length_claimDigest := h.2 }
      else none
    | _, _ => none
  | _ => none

/-- One step up a CCF path: a flag and a sibling of 32 octets. -/
def ccfUp (H : Hash) (accumulator : Octets) : Item → Option Octets
  | .array [.bool left, .bytes sibling] =>
    if sibling.length = 32 then
      some (H.digest (if left then sibling ++ accumulator else accumulator ++ sibling))
    else none
  | _ => none

/-- The leaf hash of a CCF proof. -/
def CcfProof.leaf (H : Hash) (p : CcfProof) : Octets :=
  H.digest (p.writeSetDigest ++ H.digest (Utf8.encode p.ceString) ++ p.claimDigest)

/-- The root a CCF proof rebuilds for a claim. -/
def CcfProof.root (H : Hash) (claim : Octets) (p : CcfProof) : Option Octets :=
  if p.claimDigest = claim then p.path.foldlM (ccfUp H) (p.leaf H) else none

theorem length_of_ccfUp {H : Hash} {accumulator up : Octets} {step : Item}
    (h : ccfUp H accumulator step = some up) : up.length = 32 := by
  rw [ccfUp.eq_def] at h
  split at h
  · next left sibling =>
      by_cases h32 : sibling.length = 32
      · rw [if_pos h32] at h
        obtain rfl := Option.some.inj h
        exact H.length_digest _
      · rw [if_neg h32] at h
        cases h
  · cases h

theorem length_of_foldlM_ccfUp {H : Hash} {path : List Item} {accumulator root : Octets}
    (hacc : accumulator.length = 32) (h : path.foldlM (ccfUp H) accumulator = some root) :
    root.length = 32 := by
  induction path generalizing accumulator with
  | nil =>
      obtain rfl := Option.some.inj h
      exact hacc
  | cons step path ih =>
      rw [List.foldlM_cons] at h
      obtain ⟨up, hup, hpath⟩ := Option.bind_eq_some_iff.mp h
      exact ih (length_of_ccfUp hup) hpath

/-- The root of a CCF proof is a digest. -/
theorem CcfProof.length_of_root {H : Hash} {claim root : Octets} {p : CcfProof}
    (h : p.root H claim = some root) : root.length = 32 := by
  rw [CcfProof.root] at h
  split_ifs at h
  exact length_of_foldlM_ccfUp (H.length_digest _) h

/-- The root of a map whose key 1 holds the elements of a leaf. -/
theorem CcfProof.root_read (H : Hash) (claim : Octets) {proof : Dict} {w k : Octets} {c : String}
    (hleaf : proof.get (.int 1) = some (.array [.bytes w, .text c, .bytes k])) :
    (CcfProof.read (.map proof)).bind (CcfProof.root H claim) =
      if w.length = 32 ∧ k.length = 32 ∧ k = claim then
        (asArray ((proof.get (.int 2)).getD (.array []))).bind fun path =>
          path.foldlM (ccfUp H) (H.digest (w ++ H.digest (Utf8.encode c) ++ k))
      else none := by
  rw [CcfProof.read, hleaf]
  cases (proof.get (.int 2)).getD (.array []) with
  | array path =>
      simp only [asArray, Option.bind_some]
      by_cases hlen : w.length = 32 ∧ k.length = 32
      · rw [dif_pos hlen, Option.bind_some, CcfProof.root]
        by_cases hclaim : k = claim
        · rw [if_pos hclaim, if_pos ⟨hlen.1, hlen.2, hclaim⟩]
          rfl
        · rw [if_neg hclaim, if_neg fun h => hclaim h.2.2]
      · rw [dif_neg hlen, if_neg fun h => hlen ⟨h.1, h.2.1⟩]
        rfl
  | _ => split_ifs <;> rfl

/-- Only a byte string, a text and a byte string are the elements of a leaf. -/
theorem CcfProof.read_eq_none {proof : Dict}
    (h : ∀ w c k, proof.get (.int 1) ≠ some (.array [.bytes w, .text c, .bytes k])) :
    CcfProof.read (.map proof) = none := by
  rw [CcfProof.read.eq_def]
  simp only
  split
  · next hleaf hpath => exact absurd hleaf (h _ _ _)
  · rfl

/-- The root the first proof rebuilds for a claim, when it is a CCF proof that `allowed` admits. -/
def firstCcfRoot (H : Hash) (claim : Octets) (allowed : CcfProof → Bool) (proofs : List Item) :
    Option Octets :=
  ((proofs.head?.bind CcfProof.read).filter allowed).bind (CcfProof.root H claim)

/-- The verdict on the root of a CCF proof. -/
def ccfVerdict (verifies : Octets → Bool) : Option Octets → Verdict
  | some root => ⟨verifies root, if verifies root then none else some .signature,
      some (Octets.toHex root), none, none⟩
  | none => .malformed

end ScittCose.Receipt
