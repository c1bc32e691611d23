import ScittCose.Receipt.Soundness

/-!
# The failure contract of `verify_receipt`

A result is one of three kinds (`verifyReceipt_cases`): refused for structure, refused for the
signature with the rebuilt root as a diagnostic, or accepted with the claims of the protected
header. So claims are withheld until the signature verifies, and they depend on the octets of the
protected header alone (`verifyReceipt_contract`).
-/

namespace ScittCose.Receipt

open Cbor
open Merkle (rootFromInclusionProof)

/-- What a result that is not `ok` shows. -/
structure ReceiptResult.Withheld (r : ReceiptResult) : Prop where
  iat : r.iat = none
  issuer : r.issuer = none
  subject : r.subject = none
  protectedHeaderExt : r.protectedHeaderExt = []
  failedAt : r.failedAt = some .structural ∨ r.failedAt = some .signature
  root : r.root.isSome ↔ r.failedAt = some .signature

/-- The signature of a receipt verifies over a root, under its protected header's octets. -/
def SignatureVerifies (L : Libraries) (receipt : Octets) (logPublicKeyPem : String)
    (root : Octets) : Prop :=
  ∃ protectedBstr unprotected signature alg key,
    strictDecode L receipt =
      .ok (.tag 18 (.array [.bytes protectedBstr, unprotected, .null, .bytes signature])) ∧
    (∃ header, decodeProtected L protectedBstr = .ok header ∧
      header.get (.int hdrAlg) = some (.int (Alg.code alg))) ∧
    L.crypto.loadPublicKey logPublicKeyPem = .ok key ∧
    L.crypto.verify alg key (sigStructure L protectedBstr root) signature = true

/-- What a result that is `ok` shows. -/
structure ReceiptResult.Vouched (r : ReceiptResult) (L : Libraries) (receipt : Octets)
    (logPublicKeyPem : String) : Prop where
  failedAt : r.failedAt = none
  root : ∃ root, r.root = some (Octets.toHex root) ∧
    SignatureVerifies L receipt logPublicKeyPem root

/-- The octets of the protected header of a message. -/
def protectedOf (L : Libraries) (receipt : Octets) : Option Octets :=
  match strictDecode L receipt with
  | .ok (.tag _ (.array [.bytes protectedBstr, _, _, _])) => some protectedBstr
  | _ => none

variable {L : Libraries} {receipt : Octets} {e : Envelope} {leafEntryHex logPublicKeyPem : String}

/-! ## The signature -/

/-- The protected header `verify_sign1` decodes is the envelope's. -/
theorem decodeProtected_of_read (he : Envelope.read receipt = some e) :
    decodeProtected L e.protectedBstr = .ok e.protectedHeader := by
  obtain ⟨-, -, -, hd⟩ := Envelope.read_eq_some_iff.mp he
  have hkeys := isKey_of_readHeader hd
  rw [decodeProtected]
  rcases readHeader_eq_some_iff.mp hd with ⟨hb, hnil⟩ | ⟨hmap, hb⟩
  · rw [if_pos hb, hnil]
  · have hne : e.protectedBstr ≠ [] := by
      rw [← hb]
      exact encode_ne_nil hmap.encodable
    rw [if_neg hne, Cbor2.loads, ← hb, L.cbor2.decode_encode hmap.outer]
    simp only [Except.map]
    rw [if_neg]
    simpa using hkeys

theorem sigStructure_eq (protectedBstr root : Octets) :
    sigStructure L protectedBstr root = encode (sigItem protectedBstr root) :=
  L.cbor2.dumps_eq (by simp [sigItem, Writable, WritableList])

/-- The signature of a message is the one of its envelope. -/
theorem signatureVerifies_of_verifies (he : Envelope.read receipt = some e) {root : Octets}
    (h : e.verifies L.crypto logPublicKeyPem root = true) :
    SignatureVerifies L receipt logPublicKeyPem root := by
  rw [Envelope.verifies] at h
  split at h
  · next signature alg key hsignature halg hkey =>
      obtain ⟨code, hcode, hof⟩ := Option.bind_eq_some_iff.mp halg
      rw [Alg.ofCode_eq_some_iff] at hof
      subst hof
      refine ⟨e.protectedBstr, e.unprotected, signature, alg, key, ?_,
        ⟨e.protectedHeader, decodeProtected_of_read he, ?_⟩, hkey, ?_⟩
      · rw [strictDecode_of_read he, Envelope.item, hsignature, EncodingRule.coseSign1Tag]
      · rw [Headers.alg] at hcode
        split at hcode
        · next n hn => rw [hn, Option.some.inj hcode]
        · cases hcode
      · rw [sigStructure_eq]
        exact h
  · cases h

theorem protectedOf_of_read (he : Envelope.read receipt = some e) :
    protectedOf L receipt = some e.protectedBstr := by
  rw [protectedOf, strictDecode_of_read he]
  rfl

/-! ## The three kinds of result -/

/-- The candidate the loop stops at has a root the message verifies over. -/
theorem exists_root_of_tryCandidates {candidates : List (ℤ × ℤ × List String)}
    {diagnostic : Option (ℤ × ℤ × String)} {lastError : Option String} {treeSize leafIndex : ℤ}
    {rootHex : String}
    (h : tryCandidates L receipt leafEntryHex logPublicKeyPem candidates diagnostic lastError =
      .verified treeSize leafIndex rootHex) :
    ∃ root, rootHex = Octets.toHex root ∧
      (verifySign1 L receipt logPublicKeyPem (some root) receiptUnderstood).isOk = true := by
  induction candidates generalizing diagnostic lastError with
  | nil => cases h
  | cons candidate candidates ih =>
      obtain ⟨size, index, auditPathHex⟩ := candidate
      rw [tryCandidates] at h
      split at h
      · cases h
      · exact ih h
      · next reconstructed hroot =>
          obtain ⟨root, rfl⟩ := Merkle.exists_toHex_of_root _ hroot
          simp only [Octets.fromHex_toHex, Option.getD_some] at h
          split at h
          · exact ih h
          · next sign1 hsign1 =>
              cases h
              exact ⟨root, rfl, by rw [hsign1]; rfl⟩

/-- What a branch of the verifier may return: a refusal before the signature, the diagnostic of a
signature that did not verify, or the claims of a header the message verifies under. -/
def BranchResult (L : Libraries) (receipt : Octets) (logPublicKeyPem : String)
    (understood : List Item) (protectedHeader : Dict) (r : ReceiptResult) : Prop :=
  (∃ errors, r = { errors := errors }) ∨
  (∃ errors root treeSize leafIndex,
    r = { errors := errors, root := some root, treeSize := treeSize, leafIndex := leafIndex,
          failedAt := some .signature }) ∨
  ∃ root treeSize leafIndex,
    (verifySign1 L receipt logPublicKeyPem (some root) understood).isOk = true ∧
    r = surfaceClaims protectedHeader
      { root := some (Octets.toHex root), treeSize := treeSize, leafIndex := leafIndex }

theorem verifyRfc9162_cases (protectedHeader : Dict) (inclusionProofs : List Octets) :
    BranchResult L receipt logPublicKeyPem receiptUnderstood protectedHeader
      (verifyRfc9162 L receipt leafEntryHex logPublicKeyPem protectedHeader inclusionProofs) := by
  rw [verifyRfc9162]
  cases inclusionProofs.mapM (decodeInclusionProof L) with
  | error error => exact .inl ⟨_, rfl⟩
  | ok candidates =>
      simp only
      cases ht : tryCandidates L receipt leafEntryHex logPublicKeyPem candidates none none with
      | raised exception => exact .inl ⟨_, rfl⟩
      | exhausted diagnostic lastError =>
          cases diagnostic with
          | none => exact .inl ⟨_, rfl⟩
          | some d => exact .inr (.inl ⟨_, _, _, _, rfl⟩)
      | verified treeSize leafIndex rootHex =>
          obtain ⟨root, rfl, hok⟩ := exists_root_of_tryCandidates ht
          exact .inr (.inr ⟨root, _, _, hok, rfl⟩)

theorem verifyCcf_cases (protectedHeader : Dict) (firstProof : Octets) :
    BranchResult L receipt logPublicKeyPem ccfReceiptUnderstood protectedHeader
      (verifyCcf L receipt leafEntryHex logPublicKeyPem protectedHeader firstProof) := by
  rw [verifyCcf]
  cases Octets.fromHex leafEntryHex with
  | none => exact .inl ⟨_, rfl⟩
  | some claimDigest =>
      simp only
      cases verifyCcfV1Proof L firstProof claimDigest with
      | error error => exact .inl ⟨_, rfl⟩
      | ok root =>
          simp only
          cases hs : verifySign1 L receipt logPublicKeyPem (some root) ccfReceiptUnderstood with
          | error error => exact .inr (.inl ⟨_, _, none, none, rfl⟩)
          | ok sign1 => exact .inr (.inr ⟨root, none, none, by rw [hs]; rfl, rfl⟩)

/-- The result on a receipt whose proofs can be read is one of a branch. -/
theorem verifyReceiptSteps_cases (he : Envelope.read receipt = some e) {blobs : List Octets}
    (hp : readProofs L e.toHeaders = .ok blobs) :
    BranchResult L receipt logPublicKeyPem (understoodLabels e.vds) e.protectedHeader
      (verifyReceiptSteps L receipt leafEntryHex logPublicKeyPem) := by
  simp only [verifyReceiptSteps, readHeaders_of_read he, hp]
  by_cases h1 : e.vds = some vdsRfc9162Sha256
  · have hund : understoodLabels e.vds = receiptUnderstood := by rw [h1]; rfl
    rw [if_pos h1, hund]
    exact verifyRfc9162_cases _ _
  by_cases h2 : e.vds = some vdsCcfLedgerSha256
  · rw [if_neg h1, if_pos h2, understoodLabels, if_pos h2]
    exact verifyCcf_cases _ _
  · rw [if_neg h1, if_neg h2]
    exact .inl ⟨_, rfl⟩

/-- A result is refused for structure, refused for the signature, or accepted. -/
theorem verifyReceipt_cases (L : Libraries) (receipt : Octets)
    (leafEntryHex logPublicKeyPem : String) :
    (∃ errors, verifyReceipt L receipt leafEntryHex logPublicKeyPem =
      { errors := errors, failedAt := some .structural }) ∨
    (∃ errors root treeSize leafIndex, verifyReceipt L receipt leafEntryHex logPublicKeyPem =
      { errors := errors, root := some root, treeSize := treeSize, leafIndex := leafIndex,
        failedAt := some .signature }) ∨
    ∃ e root treeSize leafIndex, Envelope.read receipt = some e ∧
      e.verifies L.crypto logPublicKeyPem root = true ∧
      verifyReceipt L receipt leafEntryHex logPublicKeyPem =
        surfaceClaims e.protectedHeader
          { root := some (Octets.toHex root), treeSize := treeSize, leafIndex := leafIndex } := by
  have herrors : ∀ errors, verifyReceiptSteps L receipt leafEntryHex logPublicKeyPem =
      { errors := errors } → verifyReceipt L receipt leafEntryHex logPublicKeyPem =
        { errors := errors, failedAt := some .structural } := by
    intro errors h
    simp only [verifyReceipt, h]
    rfl
  cases he : Envelope.read receipt with
  | none =>
      obtain ⟨error, herror⟩ := exists_readHeaders_error (L := L) he
      exact .inl ⟨[error], herrors _ (by rw [verifyReceiptSteps, herror])⟩
  | some e =>
      cases hp : readProofs L e.toHeaders with
      | error error =>
          refine .inl ⟨[error], herrors _ ?_⟩
          simp only [verifyReceiptSteps, readHeaders_of_read he, hp]
      | ok blobs =>
          obtain ⟨-, -, -, hd⟩ := Envelope.read_eq_some_iff.mp he
          have hproofs := readProofs_toOption (L := L) (isKey_of_readHeader hd)
          rw [hp] at hproofs
          split_ifs at hproofs with hheaded
          · obtain ⟨items, hitems, -⟩ := Option.map_eq_some_iff.mp hproofs.symm
            have hsteps := @verifyReceiptSteps_cases L _ _ leafEntryHex logPublicKeyPem he _ hp
            rcases hsteps with ⟨errors, h⟩ | ⟨errors, root, treeSize, leafIndex, h⟩ |
              ⟨root, treeSize, leafIndex, hok, h⟩
            · exact .inl ⟨errors, herrors errors h⟩
            · refine .inr (.inl ⟨errors, root, treeSize, leafIndex, ?_⟩)
              simp only [verifyReceipt, h]
              rfl
            · refine .inr (.inr ⟨e, root, treeSize, leafIndex, rfl, ?_, verifyReceipt_of_ok h rfl⟩)
              rw [← hok]
              exact (verifySign1_isOk he (exists_map_of_cappedProofs hitems) hheaded.1 root).symm
          · cases hproofs

/-- An accepted result is the claims of its envelope. -/
theorem exists_surface_of_ok
    (hok : (verifyReceipt L receipt leafEntryHex logPublicKeyPem).ok = true) :
    ∃ e root treeSize leafIndex, Envelope.read receipt = some e ∧
      e.verifies L.crypto logPublicKeyPem root = true ∧
      verifyReceipt L receipt leafEntryHex logPublicKeyPem =
        surfaceClaims e.protectedHeader
          { root := some (Octets.toHex root), treeSize := treeSize, leafIndex := leafIndex } := by
  rcases verifyReceipt_cases L receipt leafEntryHex logPublicKeyPem with
    ⟨errors, h⟩ | ⟨errors, root, treeSize, leafIndex, h⟩ | h
  · rw [h] at hok
    cases hok
  · rw [h] at hok
    cases hok
  · exact h

theorem withheld_of_not_ok
    (hok : (verifyReceipt L receipt leafEntryHex logPublicKeyPem).ok = false) :
    (verifyReceipt L receipt leafEntryHex logPublicKeyPem).Withheld := by
  rcases verifyReceipt_cases L receipt leafEntryHex logPublicKeyPem with
    ⟨errors, h⟩ | ⟨errors, root, treeSize, leafIndex, h⟩ | ⟨e, root, treeSize, leafIndex, -, -, h⟩
  · rw [h]
    exact ⟨rfl, rfl, rfl, rfl, .inl rfl, by simp⟩
  · rw [h]
    exact ⟨rfl, rfl, rfl, rfl, .inr rfl, by simp⟩
  · rw [h] at hok
    cases hok

theorem vouched_of_ok (hok : (verifyReceipt L receipt leafEntryHex logPublicKeyPem).ok = true) :
    (verifyReceipt L receipt leafEntryHex logPublicKeyPem).Vouched L receipt logPublicKeyPem := by
  obtain ⟨e, root, treeSize, leafIndex, he, hv, h⟩ := exists_surface_of_ok hok
  rw [h]
  exact ⟨rfl, root, rfl, signatureVerifies_of_verifies he hv⟩

/-- The octets of a protected header carry one header. -/
theorem protectedHeader_eq {receipt' : Octets} {e' : Envelope}
    (he : Envelope.read receipt = some e) (he' : Envelope.read receipt' = some e')
    (h : e.protectedBstr = e'.protectedBstr) : e.protectedHeader = e'.protectedHeader := by
  obtain ⟨-, -, -, hd⟩ := Envelope.read_eq_some_iff.mp he
  obtain ⟨-, -, -, hd'⟩ := Envelope.read_eq_some_iff.mp he'
  rw [h, hd'] at hd
  exact (Option.some.inj hd).symm

/-- Claims are withheld until the signature verifies, and what an accepted receipt surfaces is
determined by the octets of its protected header. -/
theorem verifyReceipt_contract (L : Libraries) (receipt : Octets)
    (leafEntryHex logPublicKeyPem : String) :
    ((verifyReceipt L receipt leafEntryHex logPublicKeyPem).ok = false →
      (verifyReceipt L receipt leafEntryHex logPublicKeyPem).Withheld) ∧
    ((verifyReceipt L receipt leafEntryHex logPublicKeyPem).ok = true →
      (verifyReceipt L receipt leafEntryHex logPublicKeyPem).Vouched L receipt logPublicKeyPem) ∧
    ∀ receipt' leafEntryHex' logPublicKeyPem',
      (verifyReceipt L receipt leafEntryHex logPublicKeyPem).ok = true →
      (verifyReceipt L receipt' leafEntryHex' logPublicKeyPem').ok = true →
      protectedOf L receipt = protectedOf L receipt' →
      let r := verifyReceipt L receipt leafEntryHex logPublicKeyPem
      let r' := verifyReceipt L receipt' leafEntryHex' logPublicKeyPem'
      r.iat = r'.iat ∧ r.issuer = r'.issuer ∧ r.subject = r'.subject ∧
        r.protectedHeaderExt = r'.protectedHeaderExt := by
  refine ⟨withheld_of_not_ok, vouched_of_ok,
    fun receipt' leafEntryHex' logPublicKeyPem' hok hok' hprot => ?_⟩
  obtain ⟨e, root, treeSize, leafIndex, he, -, h⟩ := exists_surface_of_ok hok
  obtain ⟨e', root', treeSize', leafIndex', he', -, h'⟩ := exists_surface_of_ok hok'
  rw [protectedOf_of_read he, protectedOf_of_read he', Option.some.injEq] at hprot
  simp only [h, h', surfaceClaims, protectedHeader_eq he he' hprot, and_self]

end ScittCose.Receipt
