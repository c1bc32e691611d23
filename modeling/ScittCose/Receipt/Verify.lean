import ScittCose.Receipt.Envelope

/-!
# The Python verifier (`scitt_cose/receipt.py`)

`_verify_receipt` in three parts: what it reads before a proof blob (`readHeaders`, `readProofs`),
the RFC 9162 candidates and the CCF proof. A part that fails returns the text the source appends to
`errors`.

`verifyReceipt_rfc9162` and `verifyReceipt_ccf` say what the verifier returns for the envelope of a
receipt, and `verifyReceipt_malformed` for octets that carry none.
-/

namespace ScittCose.Receipt

open Cbor
open EncodingRule (IsKey Plain Grammar)
open Merkle (expectedInclusionPathLen rootFromInclusionProof rootOfProof)

/-! ## Constants -/

/-- `HDR_CWT_CLAIMS` -/
def hdrCwtClaims : ℤ := 15

/-- `CWT_CLAIM_IAT` -/
def cwtClaimIat : ℤ := 6

/-- `CWT_CLAIM_ISS` -/
def cwtClaimIss : ℤ := 1

/-- `CWT_CLAIM_SUB` -/
def cwtClaimSub : ℤ := 2

/-- `HDR_KID` -/
def hdrKid : ℤ := 4

/-- `HDR_GRADE` -/
def hdrGrade : ℤ := -65537

/-- `_RECEIPT_UNDERSTOOD` -/
def receiptUnderstood : List Item := [.int hdrAlg, .int hdrCrit, .int hdrVds, .int hdrCwtClaims]

/-- `_CCF_RECEIPT_UNDERSTOOD` -/
def ccfReceiptUnderstood : List Item := receiptUnderstood ++ [.int 4, .text "ccf.v1"]

/-- `_KNOWN_PROTECTED` -/
def knownProtected : List Item := [.int hdrAlg, .int hdrCrit, .int hdrVds, .int hdrCwtClaims]

/-- `_CLAIMS_WITHHELD` -/
def claimsWithheld : String :=
  "protected header claims withheld (iat/iss/sub/protected_header_ext): " ++
    "receipt signature did not verify"

/-- `ReceiptResult` -/
structure ReceiptResult where
  ok : Bool := false
  root : Option String := none
  treeSize : Option ℤ := none
  leafIndex : Option ℤ := none
  errors : List String := []
  iat : Option ℤ := none
  issuer : Option String := none
  subject : Option String := none
  protectedHeaderExt : Dict := []
  failedAt : Option FailedAt := none
deriving DecidableEq

/-- What the other verifiers report too. -/
def ReceiptResult.verdict (r : ReceiptResult) : Verdict :=
  ⟨r.ok, r.failedAt, r.root, r.treeSize, r.leafIndex⟩

section Source

variable (L : Libraries)

/-! ## Headers and proof blobs -/

/-- `_verify_receipt`, up to the decoded protected header. -/
def readHeaders (receipt : Octets) : Except String Headers :=
  match strictDecode L receipt with
  | .error e => .error s!"receipt rejected: {e}"
  | .ok (.tag 18 (.array [protectedBstr, unprotected, payloadSlot, _])) =>
    if payloadSlot ≠ .null then
      .error "receipt payload is attached; a receipt's payload must be detached"
    else
      match EncodingRule.check receipt "the receipt" true with
      | .error e => .error s!"receipt rejected: {e}"
      | .ok () =>
        match protectedBstr with
        | .bytes bstr =>
          if bstr = [] then
            .ok { protectedBstr := bstr, protectedHeader := [], unprotected := unprotected }
          else
            match EncodingRule.check bstr "the protected header" false with
            | .error e => .error s!"receipt rejected: {e}"
            | .ok () =>
              match L.cbor2.loads bstr with
              | .error e => .error s!"protected header is not valid CBOR ({e})"
              | .ok (.map d) =>
                .ok { protectedBstr := bstr, protectedHeader := d, unprotected := unprotected }
              | .ok _ => .error "protected header is not a map"
        | _ => .error "protected header is not a byte string"
  | .ok _ => .error "receipt is not a COSE_Sign1 message"

/-- The labels the layer understands. -/
def understoodLabels (vds : Option ℤ) : List Item :=
  if vds = some vdsCcfLedgerSha256 then ccfReceiptUnderstood else receiptUnderstood

/-- The loop over the proof entries: each is a byte string that meets the encoding rule. -/
def checkProofs : List Item → Except String (List Octets)
  | [] => .ok []
  | .bytes proof :: proofs =>
    match EncodingRule.check proof "an inclusion proof" false with
    | .error e => .error s!"receipt rejected: {e}"
    | .ok () => (checkProofs proofs).map (proof :: ·)
  | _ => .error "inclusion proof entry is not a byte string"

/-- `_verify_receipt`, from the decoded headers to the proof blobs. -/
def readProofs (h : Headers) : Except String (List Octets) :=
  match checkCriticalHeaders L h.protectedHeader (understoodLabels h.vds) with
  | .error e => .error e
  | .ok () =>
    if (h.protectedHeader.get (.int hdrAlg)).isNone then
      .error "protected header missing alg (label 1)"
    else
      match h.unprotected with
      | .map unprotected =>
        match Dict.get unprotected (.int hdrVdp) with
        | some (.map vdp) =>
          match Dict.get vdp (.int vdpInclusionProofs) with
          | some (.array (proof :: proofs)) =>
            if maxInclusionProofs < (proof :: proofs).length then
              .error (s!"too many inclusion proofs ({(proof :: proofs).length} > " ++
                s!"{maxInclusionProofs})")
            else checkProofs (proof :: proofs)
          | _ => .error "vdp has no inclusion proofs (key -1)"
        | _ => .error "unprotected vdp (label 396) missing or not a map"
      | _ => .error "unprotected header is not a map"

/-! ## RFC 9162 -/

/-- `_decode_inclusion_proof`: tree size, leaf index and the path in hexadecimal text. -/
def decodeInclusionProof (blob : Octets) : Except String (ℤ × ℤ × List String) :=
  match L.cbor2.decode blob with
  | .error e => .error s!"inclusion proof is not valid CBOR: {e}"
  | .ok (arr, rest) =>
    if rest ≠ [] then .error "inclusion proof contains trailing CBOR bytes"
    else
      match arr with
      | .array [.int treeSize, .int leafIndex, .array path] =>
        if maxAuditPath < path.length then
          .error s!"inclusion proof path too long ({path.length} > {maxAuditPath})"
        else
          match path.mapM asBytes with
          | none => .error "inclusion proof path element is not a byte string"
          | some nodes =>
            if ¬ (0 ≤ leafIndex ∧ leafIndex < treeSize) ∨ Merkle.maxTreeSize < treeSize then
              .error "invalid tree size or leaf index"
            else if path.length ≠ expectedInclusionPathLen treeSize.toNat leafIndex.toNat then
              .error "invalid inclusion proof path length"
            else if nodes.any fun node => node.length ≠ 32 then
              .error "inclusion proof path node must be 32 bytes"
            else .ok (treeSize, leafIndex, nodes.map Octets.toHex)
      | .array [.int _, .int _, _] => .error "inclusion proof path must be an array"
      | .array [.int _, _, _] => .error "inclusion proof leaf_index must be an int"
      | .array [_, _, _] => .error "inclusion proof tree_size must be an int"
      | _ => .error "inclusion proof must be [tree_size, leaf_index, [path]]"

/-- How the loop over the candidates ends. -/
inductive Attempt where
  /-- The signature verified over this candidate's root. -/
  | verified (treeSize leafIndex : ℤ) (root : String)
  /-- It verified over none; the first candidate that rebuilt a root, and the last error. -/
  | exhausted (diagnostic : Option (ℤ × ℤ × String)) (lastError : Option String)
  /-- A root could not be computed. -/
  | raised (exception : String)

/-- The loop over the candidates. -/
def tryCandidates (receipt : Octets) (leafEntryHex logPublicKeyPem : String) :
    List (ℤ × ℤ × List String) → Option (ℤ × ℤ × String) → Option String → Attempt
  | [], diagnostic, lastError => .exhausted diagnostic lastError
  | (treeSize, leafIndex, auditPathHex) :: candidates, diagnostic, lastError =>
    match rootFromInclusionProof L.hash leafEntryHex leafIndex treeSize auditPathHex with
    | .error exception => .raised exception
    | .ok none =>
      tryCandidates receipt leafEntryHex logPublicKeyPem candidates diagnostic lastError
    | .ok (some reconstructed) =>
      let diagnostic := diagnostic.or (some (treeSize, leafIndex, reconstructed))
      -- the text of a root always reads back
      let detachedPayload := (Octets.fromHex reconstructed).getD []
      match verifySign1 L receipt logPublicKeyPem (some detachedPayload) receiptUnderstood with
      | .error e =>
        tryCandidates receipt leafEntryHex logPublicKeyPem candidates diagnostic (some e)
      | .ok _ => .verified treeSize leafIndex reconstructed

/-! ## CCF -/

/-- One step of the walk up a CCF path. -/
def ccfStep (accumulator : Octets) : Item → Except String Octets
  | .array [.bool left, .bytes sibling] =>
    if sibling.length ≠ 32 then .error "CCF proof path sibling must be 32 bytes"
    else if left then .ok (L.hash.digest (sibling ++ accumulator))
    else .ok (L.hash.digest (accumulator ++ sibling))
  | .array [.bool _, _] => .error "CCF proof path sibling must be 32 bytes"
  | .array [_, _] => .error "CCF proof path step left must be a bool"
  | _ => .error "CCF proof path step must be [left: bool, hash: bytes]"

/-- The leaf of a CCF proof: the write-set digest, the commit evidence and the claim digest. -/
def ccfLeaf (claimDigest : Octets) : Option Item → Except String Octets
  | some (.array [writeSetDigest, ceString, proofClaimDigest]) =>
    match writeSetDigest with
    | .bytes writeSetDigest =>
      if writeSetDigest.length ≠ 32 then .error "CCF proof write_set_digest must be 32 bytes"
      else
        match ceString with
        | .text ceString =>
          match proofClaimDigest with
          | .bytes proofClaimDigest =>
            if proofClaimDigest.length ≠ 32 then .error "CCF proof claim_digest must be 32 bytes"
            else if proofClaimDigest ≠ claimDigest then
              .error "CCF proof claim_digest does not match the supplied leaf_entry_hex"
            else
              .ok (L.hash.digest
                (writeSetDigest ++ L.hash.digest (Utf8.encode ceString) ++ proofClaimDigest))
          | _ => .error "CCF proof claim_digest must be 32 bytes"
        | _ => .error "CCF proof ce_string must be a text string"
    | _ => .error "CCF proof write_set_digest must be 32 bytes"
  | _ => .error "CCF proof leaf (key 1) must be a 3-element array"

/-- `_verify_ccf_v1_proof` -/
def verifyCcfV1Proof (proofBlob claimDigest : Octets) : Except String Octets :=
  match L.cbor2.loads proofBlob with
  | .error e => .error s!"CCF proof is not valid CBOR: {e}"
  | .ok (.map proof) =>
    match ccfLeaf L claimDigest (Dict.get proof (.int 1)) with
    | .error e => .error e
    | .ok accumulator =>
      match (Dict.get proof (.int 2)).getD (.array []) with
      | .array path =>
        if maxAuditPath < path.length then
          .error s!"CCF proof path too long ({path.length} > {maxAuditPath})"
        else path.foldlM (ccfStep L) accumulator
      | _ => .error "CCF proof path (key 2) must be an array"
  | .ok _ => .error "CCF proof must be a CBOR map (keys 1 and 2)"

/-! ## The verifier -/

/-- The CWT claims of a protected header; what is not a map counts as no claims. -/
def cwtClaims (protectedHeader : Dict) : Dict :=
  match protectedHeader.get (.int hdrCwtClaims) with
  | some (.map claims) => claims
  | _ => []

/-- `iat`, within int64 only. -/
def iatClaim (claims : Dict) : Option ℤ :=
  match claims.get (.int cwtClaimIat) with
  | some (.int n) => if -2 ^ 63 ≤ n ∧ n < 2 ^ 63 then some n else none
  | _ => none

/-- `iss` or `sub`. -/
def textClaim (label : ℤ) (claims : Dict) : Option String :=
  match claims.get (.int label) with
  | some (.text s) => some s
  | _ => none

/-- The claims of a verified protected header, and its labels the verifier does not process. -/
def surfaceClaims (protectedHeader : Dict) (result : ReceiptResult) : ReceiptResult :=
  { result with
    iat := iatClaim (cwtClaims protectedHeader)
    issuer := textClaim cwtClaimIss (cwtClaims protectedHeader)
    subject := textClaim cwtClaimSub (cwtClaims protectedHeader)
    protectedHeaderExt := protectedHeader.filter fun p => p.1 ∉ knownProtected
    ok := true }

/-- The branch of `_verify_receipt` for `vds = 1`. -/
def verifyRfc9162 (receipt : Octets) (leafEntryHex logPublicKeyPem : String)
    (protectedHeader : Dict) (inclusionProofs : List Octets) : ReceiptResult :=
  match inclusionProofs.mapM (decodeInclusionProof L) with
  | .error e => { errors := [e] }
  | .ok candidates =>
    match tryCandidates L receipt leafEntryHex logPublicKeyPem candidates none none with
    | .raised exception =>
      { errors := [s!"inclusion proof could not be evaluated: {exception}"] }
    | .exhausted diagnostic lastError =>
      let lastText := lastError.getD "None"
      { treeSize := diagnostic.map fun d => d.1
        leafIndex := diagnostic.map fun d => d.2.1
        root := diagnostic.map fun d => d.2.2
        failedAt := diagnostic.map fun _ => .signature
        errors := [s!"receipt signature did not verify: {lastText}", claimsWithheld] }
    | .verified treeSize leafIndex root =>
      surfaceClaims protectedHeader
        { treeSize := some treeSize, leafIndex := some leafIndex, root := some root }

/-- The branch of `_verify_receipt` for `vds = 2`. The text of the `ValueError` of a leaf that is not
hexadecimal is left out. -/
def verifyCcf (receipt : Octets) (leafEntryHex logPublicKeyPem : String)
    (protectedHeader : Dict) (firstProof : Octets) : ReceiptResult :=
  match Octets.fromHex leafEntryHex with
  | none => { errors := ["leaf_entry_hex is not valid hex"] }
  | some claimDigest =>
    match verifyCcfV1Proof L firstProof claimDigest with
    | .error e => { errors := [e] }
    | .ok root =>
      match verifySign1 L receipt logPublicKeyPem (some root) ccfReceiptUnderstood with
      | .error e =>
        { root := some (Octets.toHex root)
          failedAt := some .signature
          errors := [s!"receipt signature did not verify: {e}", claimsWithheld] }
      | .ok _ => surfaceClaims protectedHeader { root := some (Octets.toHex root) }

/-- `_verify_receipt` -/
def verifyReceiptSteps (receipt : Octets) (leafEntryHex logPublicKeyPem : String) :
    ReceiptResult :=
  match readHeaders L receipt with
  | .error e => { errors := [e] }
  | .ok h =>
    match readProofs L h with
    | .error e => { errors := [e] }
    | .ok inclusionProofs =>
      if h.vds = some vdsRfc9162Sha256 then
        verifyRfc9162 L receipt leafEntryHex logPublicKeyPem h.protectedHeader inclusionProofs
      else if h.vds = some vdsCcfLedgerSha256 then
        verifyCcf L receipt leafEntryHex logPublicKeyPem h.protectedHeader
          (inclusionProofs.headD [])
      else
        { errors := ["unsupported verifiable data structure (protected label 395); " ++
            "expected RFC9162_SHA256 (vds=1) or CCF_LEDGER_SHA256 (vds=2)"] }

/-- `verify_receipt` -/
def verifyReceipt (receipt : Octets) (leafEntryHex logPublicKeyPem : String) : ReceiptResult :=
  let result := verifyReceiptSteps L receipt leafEntryHex logPublicKeyPem
  if ¬ result.ok ∧ result.failedAt = none then { result with failedAt := some .structural }
  else result

end Source

/-! ## What the parts return -/

variable {L : Libraries}

/-- The strict decode of a receipt that can be read is its message. -/
theorem strictDecode_of_read {receipt : Octets} {e : Envelope}
    (he : Envelope.read receipt = some e) : strictDecode L receipt = .ok e.item := by
  obtain ⟨hlen, hg, rfl, hd⟩ := Envelope.read_eq_some_iff.mp he
  refine strictDecode_encode hg hlen fun prot u p s hx => ?_
  simp only [Item.array.injEq, List.cons.injEq, Item.bytes.injEq, and_true] at hx
  obtain ⟨rfl, -, -, -⟩ := hx
  rcases readHeader_eq_some_iff.mp hd with ⟨h, -⟩ | ⟨hd, henc⟩
  · exact .inl h
  · exact .inr ⟨_, hd.outer, henc⟩

theorem readHeaders_of_read {receipt : Octets} {e : Envelope}
    (he : Envelope.read receipt = some e) : readHeaders L receipt = .ok e.toHeaders := by
  obtain ⟨hlen, hg, henc, hd⟩ := Envelope.read_eq_some_iff.mp he
  have hcheck : EncodingRule.check receipt "the receipt" true = .ok () :=
    EncodingRule.check_ok_iff.mpr ⟨_, hg, henc⟩
  rw [readHeaders, strictDecode_of_read he]
  simp only [Envelope.item, EncodingRule.coseSign1Tag, ne_eq, not_true_eq_false, if_false, hcheck]
  rcases readHeader_eq_some_iff.mp hd with ⟨hb, hnil⟩ | ⟨hmap, hb⟩
  · rw [if_pos hb]
    exact congrArg (fun d => Except.ok { e.toHeaders with protectedHeader := d }) hnil.symm
  · have hne : e.protectedBstr ≠ [] := by
      rw [← hb]
      exact encode_ne_nil hmap.encodable
    have hcheck' : EncodingRule.check e.protectedBstr "the protected header" false = .ok () :=
      EncodingRule.check_ok_iff.mpr ⟨_, hmap, hb⟩
    have hloads : L.cbor2.loads e.protectedBstr = .ok (.map e.protectedHeader) := by
      rw [Cbor2.loads, ← hb, L.cbor2.decode_encode hmap.outer]
      rfl
    rw [if_neg hne, hcheck', hloads]

theorem read_of_readHeaders {receipt : Octets} {h : Headers} (hh : readHeaders L receipt = .ok h) :
    ∃ e, Envelope.read receipt = some e ∧ h = e.toHeaders := by
  rw [readHeaders] at hh
  split at hh
  · cases hh
  · next protectedBstr unprotected payloadSlot signature hdecode =>
      split_ifs at hh with hnull
      rw [not_not] at hnull
      subst hnull
      split at hh
      · cases hh
      next hcheck =>
      obtain ⟨i, hg, rfl⟩ := EncodingRule.check_ok_iff.mp hcheck
      obtain ⟨hlen, rfl⟩ := eq_of_strictDecode hg hdecode
      cases protectedBstr with
      | bytes bstr =>
          simp only at hh
          obtain ⟨d, hd, rfl⟩ : ∃ d, readHeader bstr = some d ∧ h =
              { protectedBstr := bstr, protectedHeader := d, unprotected := unprotected } := by
            split_ifs at hh with hb
            · exact ⟨[], by rw [readHeader, if_pos hb], (Except.ok.inj hh).symm⟩
            · split at hh
              · cases hh
              next hcheck' =>
              obtain ⟨j, hj, rfl⟩ := EncodingRule.check_ok_iff.mp hcheck'
              rw [Cbor2.loads, L.cbor2.decode_encode hj.outer] at hh
              cases j with
              | map d =>
                  exact ⟨d, readHeader_eq_some_iff.mpr (.inr ⟨hj, rfl⟩), (Except.ok.inj hh).symm⟩
              | _ => cases hh
          exact ⟨⟨⟨bstr, d, unprotected⟩, signature⟩,
            Envelope.read_eq_some_iff.mpr ⟨hlen, hg, rfl, hd⟩, rfl⟩
      | _ => cases hh
  · cases hh

/-- The headers are read when the octets carry an envelope. -/
theorem exists_readHeaders_error {receipt : Octets} (h : Envelope.read receipt = none) :
    ∃ error, readHeaders L receipt = .error error := by
  cases hh : readHeaders L receipt with
  | error error => exact ⟨error, rfl⟩
  | ok headers =>
      obtain ⟨e, he, -⟩ := read_of_readHeaders hh
      rw [h] at he
      cases he

/-! ## Headers and proofs -/

/-- The critical-header check, for labels that are integers or text. -/
theorem checkCriticalLabels_ok_iff {d : Dict} (hkeys : ∀ p ∈ d, IsKey p.1)
    {understood labels : List Item} :
    checkCriticalLabels L d understood labels = .ok () ↔
      ∀ label ∈ labels, (d.get label).isSome ∧ label ∈ understood := by
  induction labels with
  | nil => simp [checkCriticalLabels]
  | cons label labels ih =>
      rw [checkCriticalLabels, List.forall_mem_cons, ← ih]
      cases hget : d.get label with
      | none =>
          simp only [Option.isNone_none, if_true]
          split_ifs <;> simp
      | some value =>
          have hkey : IsKey label := hkeys _ (Dict.mem_of_get hget)
          by_cases hmem : label ∈ understood <;> simp [hkey, hmem]

theorem checkCriticalHeaders_ok_iff {h : Headers} (hkeys : ∀ p ∈ h.protectedHeader, IsKey p.1)
    {understood : List Item} :
    checkCriticalHeaders L h.protectedHeader understood = .ok () ↔ h.Critical understood := by
  rw [checkCriticalHeaders, Headers.Critical]
  cases h.protectedHeader.get (.int hdrCrit) with
  | none => simp
  | some value =>
      cases value with
      | array labels =>
          cases labels with
          | nil => simp
          | cons label labels => simp [checkCriticalLabels_ok_iff hkeys]
      | _ => simp

/-- The checked proof blobs are the encodings of the proofs. -/
theorem checkProofs_toOption (entries : List Item) :
    (checkProofs entries).toOption = (entries.mapM readProof).map (List.map encode) := by
  induction entries with
  | nil => rfl
  | cons entry entries ih =>
      rw [List.mapM_cons]
      cases entry with
      | bytes proof =>
          rw [checkProofs]
          have hread : readProof (.bytes proof) = EncodingRule.read false proof := rfl
          rw [hread]
          cases h : EncodingRule.read false proof with
          | none =>
              obtain ⟨error, herror⟩ := EncodingRule.exists_check_error h "an inclusion proof"
              rw [herror]
              rfl
          | some i =>
              rw [EncodingRule.check_of_read h]
              have henc := (EncodingRule.read_eq_some_iff.mp h).2
              cases hrest : entries.mapM readProof with
              | none =>
                  rw [hrest] at ih
                  cases hc : checkProofs entries with
                  | error error => rfl
                  | ok blobs => rw [hc] at ih; cases ih
              | some items =>
                  rw [hrest] at ih
                  cases hc : checkProofs entries with
                  | error error => rw [hc] at ih; cases ih
                  | ok blobs =>
                      rw [hc] at ih
                      cases ih
                      simp [Except.map, Except.toOption, henc]
      | _ => rfl

/-- Every proof of an envelope is an item of the rule. -/
theorem grammar_of_proofs {h : Headers} {slot : Dict → Option Item} {items : List Item}
    (hp : h.proofs slot = some items) : ∀ i ∈ items, Grammar false i := by
  rw [Headers.proofs] at hp
  repeat' split at hp
  all_goals first | cases hp | skip
  intro i hi
  rw [Octets.mapM_eq_some_iff] at hp
  have hmem : some i ∈ items.map some := List.mem_map_of_mem hi
  rw [← hp, List.mem_map] at hmem
  obtain ⟨entry, -, hread⟩ := hmem
  obtain ⟨b, -, hread⟩ := Option.bind_eq_some_iff.mp hread
  exact (EncodingRule.read_eq_some_iff.mp hread).1

/-- The checks on the protected header that come before the proofs. -/
def Headers.Headed (h : Headers) (understood : List Item) : Prop :=
  h.Critical understood ∧ (h.protectedHeader.get (.int hdrAlg)).isSome

instance (h : Headers) (understood : List Item) : Decidable (h.Headed understood) :=
  inferInstanceAs (Decidable (_ ∧ _))

/-- The proofs of a message, when there are at most 16. -/
def Headers.cappedProofs (h : Headers) : Option (List Item) :=
  (h.proofs proofSlot).filter fun items => items.length ≤ maxInclusionProofs

/-- The cap on the number of entries is one on the number of proofs. -/
theorem cappedBlobs_toOption (entries : List Item) :
    (if maxInclusionProofs < entries.length then
        (.error (s!"too many inclusion proofs ({entries.length} > " ++ s!"{maxInclusionProofs})"))
      else checkProofs entries).toOption =
      ((entries.mapM readProof).filter fun items => items.length ≤ maxInclusionProofs).map
        (List.map encode) := by
  cases hitems : entries.mapM readProof with
  | none =>
      split_ifs
      · rfl
      · rw [checkProofs_toOption, hitems]
        rfl
  | some items =>
      rw [← Octets.length_of_mapM hitems, Option.filter_some]
      split_ifs with hcap hcap' hcap'
      · simp only [decide_eq_true_eq] at hcap'
        omega
      · rfl
      · rw [checkProofs_toOption, hitems]
      · simp only [decide_eq_true_eq] at hcap'
        omega

/-- The proof blobs the verifier goes on with. -/
theorem readProofs_toOption {h : Headers} (hkeys : ∀ p ∈ h.protectedHeader, IsKey p.1) :
    (readProofs L h).toOption =
      if h.Headed (understoodLabels h.vds) then h.cappedProofs.map (List.map encode) else none := by
  have hcrit : checkCriticalHeaders L h.protectedHeader (understoodLabels h.vds) = .ok () ↔ _ :=
    checkCriticalHeaders_ok_iff hkeys
  rw [readProofs]
  split
  · next error herror =>
      rw [if_neg]
      · rfl
      · rintro ⟨hc, -⟩
        rw [hcrit.mpr hc] at herror
        cases herror
  · next hok =>
      by_cases halg : (h.protectedHeader.get (.int hdrAlg)).isSome
      · have hnone : ¬ (h.protectedHeader.get (.int hdrAlg)).isNone = true := by
          simpa [← Option.isSome_iff_ne_none] using halg
        rw [if_neg hnone, if_pos ⟨hcrit.mp hok, halg⟩, Headers.cappedProofs,
          Headers.proofs]
        cases h.unprotected with
        | map u =>
            simp only
            cases Dict.get u (.int hdrVdp) with
            | none => rfl
            | some vdp =>
                cases vdp with
                | map vdp =>
                    simp only [proofSlot]
                    cases Dict.get vdp (.int vdpInclusionProofs) with
                    | none => rfl
                    | some entries =>
                        cases entries with
                        | array entries =>
                            cases entries with
                            | nil => rfl
                            | cons entry entries => exact cappedBlobs_toOption _
                        | _ => rfl
                | _ => rfl
        | _ => rfl
      · rw [if_pos (by simpa using halg), if_neg fun hh => halg hh.2]
        rfl

end ScittCose.Receipt
