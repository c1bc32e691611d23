import ScittCose.Receipt.Verify

/-!
# The verdict of the Python verifier

`verifyReceipt` as a function of the envelope a receipt carries: the outcome over its candidates for
`vds = 1` (`verdict_of_rfc9162`), the verdict on its first CCF proof for `vds = 2`
(`verdict_of_ccf`), and malformed otherwise.
-/

namespace ScittCose.Receipt

open Cbor
open EncodingRule (IsKey Plain Grammar)
open Merkle (expectedInclusionPathLen rootFromInclusionProof rootOfProof)

variable {L : Libraries} {receipt : Octets} {e : Envelope} {leafEntryHex logPublicKeyPem : String}
  {leafEntry : Octets}

/-! ## Inclusion proofs -/

/-- A candidate as the source carries it. -/
def Candidate.hex (c : Candidate) : ℤ × ℤ × List String :=
  (c.treeSize, c.leafIndex, c.auditPath.map Octets.toHex)

theorem Candidate.length_auditPath_le (c : Candidate) : c.auditPath.length ≤ 62 := by
  rw [c.length_auditPath, Merkle.expectedInclusionPathLen_eq]
  exact Merkle.length_turns_le c.leafIndex_lt c.treeSize_le

theorem Candidate.read_eq_none {node : Item → Option Octets} {i : Item}
    (h : ∀ treeSize leafIndex path, i ≠ .array [.int treeSize, .int leafIndex, .array path]) :
    Candidate.read node i = none := by
  rw [Candidate.read.eq_def]
  split
  · exact absurd rfl (h _ _ _)
  · rfl

/-- The decoder's checks of a proof's numbers and nodes. -/
theorem decodeInclusionProof_toOption_array {treeSize leafIndex : ℤ} {path : List Item}
    (hi : Grammar false (.array [.int treeSize, .int leafIndex, .array path])) :
    (decodeInclusionProof L (encode (.array [.int treeSize, .int leafIndex, .array path]))).toOption =
      (Candidate.read asBytes (.array [.int treeSize, .int leafIndex, .array path])).map
        Candidate.hex := by
  rw [decodeInclusionProof, L.cbor2.decode_encode hi.outer, Candidate.read]
  simp only [ne_eq, not_true_eq_false, if_false]
  cases hpath : path.mapM asBytes with
  | none => split_ifs <;> rfl
  | some nodes =>
      simp only
      rw [Option.bind_some, ← Octets.length_of_mapM hpath, Merkle.maxTreeSize]
      by_cases hshape : 0 ≤ leafIndex ∧ leafIndex < treeSize ∧ treeSize ≤ 2 ^ 62 ∧
          nodes.length = expectedInclusionPathLen treeSize.toNat leafIndex.toNat ∧
          ∀ b ∈ nodes, b.length = 32
      · have hcap : nodes.length ≤ 62 := Candidate.length_auditPath_le ⟨treeSize.toNat,
          leafIndex.toNat, nodes, by omega, by omega, hshape.2.2.2.1, hshape.2.2.2.2⟩
        have h32 : ¬ (nodes.any fun node => ¬ node.length = 32) = true := by
          simpa using hshape.2.2.2.2
        have hsize : ((treeSize.toNat : ℕ) : ℤ) = treeSize := by omega
        have hindex : ((leafIndex.toNat : ℕ) : ℤ) = leafIndex := by omega
        rw [dif_pos hshape, if_neg (by simp only [maxAuditPath]; omega), if_neg (by omega),
          if_neg (not_not.mpr hshape.2.2.2.1), if_neg h32]
        simp only [Except.toOption, Option.map_some, Candidate.hex, hsize, hindex]
      · rw [dif_neg hshape]
        split_ifs with hcap hrange hcount h32
        · rfl
        · rfl
        · rfl
        · refine absurd ⟨by omega, by omega, by omega, hcount, ?_⟩ hshape
          simpa using h32
        · rfl

/-- The decoder accepts the proofs with the shape of one. -/
theorem decodeInclusionProof_toOption {i : Item} (hi : Grammar false i) :
    (decodeInclusionProof L (encode i)).toOption = (Candidate.read asBytes i).map Candidate.hex := by
  by_cases hshape : ∃ treeSize leafIndex path,
      i = .array [.int treeSize, .int leafIndex, .array path]
  · obtain ⟨treeSize, leafIndex, path, rfl⟩ := hshape
    exact decodeInclusionProof_toOption_array hi
  · have hne : ∀ treeSize leafIndex path,
        i ≠ .array [.int treeSize, .int leafIndex, .array path] :=
      fun treeSize leafIndex path h => hshape ⟨treeSize, leafIndex, path, h⟩
    rw [Candidate.read_eq_none hne, decodeInclusionProof, L.cbor2.decode_encode hi.outer]
    simp only [ne_eq, not_true_eq_false, if_false]
    split
    · exact absurd rfl (hne _ _ _)
    all_goals rfl

/-! ## The signature -/

/-- Verifying the message is verifying the signature of its envelope. -/
theorem verifySign1_isOk (he : Envelope.read receipt = some e)
    (hu : ∃ u, e.unprotected = .map u) {understood : List Item} (hcrit : e.Critical understood)
    (root : Octets) :
    (verifySign1 L receipt logPublicKeyPem (some root) understood).isOk =
      e.verifies L.crypto logPublicKeyPem root := by
  obtain ⟨u, hu⟩ := hu
  obtain ⟨-, -, -, hd⟩ := Envelope.read_eq_some_iff.mp he
  have hkeys := isKey_of_readHeader hd
  have henvelope : decodeEnvelope L receipt =
      .ok (.bytes e.protectedBstr, .map u, .null, e.signature) := by
    rw [decodeEnvelope, strictDecode_of_read he, Envelope.item, hu]
    rfl
  have hheader : decodeProtected L e.protectedBstr = .ok e.protectedHeader := by
    rw [decodeProtected]
    rcases readHeader_eq_some_iff.mp hd with ⟨hb, hnil⟩ | ⟨hmap, hb⟩
    · rw [if_pos hb, hnil]
    · have hne : e.protectedBstr ≠ [] := by
        rw [← hb]
        exact encode_ne_nil hmap.encodable
      rw [if_neg hne, Cbor2.loads, ← hb, L.cbor2.decode_encode hmap.outer]
      simp only [Except.map]
      rw [if_neg]
      simpa using hkeys
  have htbs : sigStructure L e.protectedBstr root = encode (sigItem e.protectedBstr root) := by
    refine L.cbor2.dumps_eq ?_
    simp [sigItem, Writable, WritableList]
  rw [verifySign1, henvelope]
  simp only [bind, Except.bind, hheader, htbs, checkCriticalHeaders_ok_iff hkeys |>.mpr hcrit]
  rw [Envelope.verifies, Headers.alg]
  cases e.signature with
  | bytes signature =>
      simp only
      cases e.protectedHeader.get (.int hdrAlg) with
      | none => rfl
      | some alg =>
          cases alg with
          | int code =>
              simp only [Option.bind_some]
              cases L.crypto.loadPublicKey logPublicKeyPem with
              | error error => cases Alg.ofCode code <;> rfl
              | ok key =>
                  have h := checkSignature_isOk (L := L) code key
                    (encode (sigItem e.protectedBstr root)) signature
                  simp only
                  cases hc : checkSignature L code key
                      (encode (sigItem e.protectedBstr root)) signature with
                  | error error =>
                      rw [hc] at h
                      cases halg : Alg.ofCode code <;> (rw [halg] at h; exact h)
                  | ok u =>
                      rw [hc] at h
                      cases halg : Alg.ofCode code <;> (rw [halg] at h; exact h)
          | _ => rfl
  | _ => rfl

/-! ## The candidates -/

/-- The loop stops at the first candidate whose root the signature verifies over. -/
theorem tryCandidates_verified (hleaf : Octets.fromHex leafEntryHex = some leafEntry)
    {v : Octets → Bool} (hv : ∀ root, (verifySign1 L receipt logPublicKeyPem (some root)
      receiptUnderstood).isOk = v root) {cs : List Candidate} {c : Candidate}
    (hfind : cs.find? (fun c => v (c.root L.hash leafEntry)) = some c)
    (diagnostic : Option (ℤ × ℤ × String)) (lastError : Option String) :
    tryCandidates L receipt leafEntryHex logPublicKeyPem (cs.map Candidate.hex) diagnostic
        lastError =
      .verified c.treeSize c.leafIndex (Octets.toHex (c.root L.hash leafEntry)) := by
  induction cs generalizing diagnostic lastError with
  | nil => cases hfind
  | cons first cs ih =>
      rw [List.map_cons, Candidate.hex, tryCandidates,
        Merkle.rootFromInclusionProof_eq_ok hleaf (Octets.mapM_fromHex_toHex _), first.rootOfProof_eq]
      have hok := hv (first.root L.hash leafEntry)
      simp only [Option.map_some, Octets.fromHex_toHex, Option.getD_some]
      rw [List.find?_cons] at hfind
      cases hsig : verifySign1 L receipt logPublicKeyPem (some (first.root L.hash leafEntry))
          receiptUnderstood with
      | error error =>
          rw [hsig] at hok
          rw [← hok] at hfind
          exact ih hfind _ _
      | ok sign1 =>
          rw [hsig] at hok
          rw [← hok] at hfind
          obtain rfl := Option.some.inj hfind
          rfl

/-- Without such a candidate the first one is the diagnostic. -/
theorem tryCandidates_exhausted (hleaf : Octets.fromHex leafEntryHex = some leafEntry)
    {v : Octets → Bool} (hv : ∀ root, (verifySign1 L receipt logPublicKeyPem (some root)
      receiptUnderstood).isOk = v root) {cs : List Candidate}
    (hfind : cs.find? (fun c => v (c.root L.hash leafEntry)) = none)
    (diagnostic : Option (ℤ × ℤ × String)) (lastError : Option String) :
    ∃ error, tryCandidates L receipt leafEntryHex logPublicKeyPem (cs.map Candidate.hex) diagnostic
        lastError =
      .exhausted (diagnostic.or (cs.head?.map fun c =>
        (c.treeSize, c.leafIndex, Octets.toHex (c.root L.hash leafEntry)))) error := by
  induction cs generalizing diagnostic lastError with
  | nil => exact ⟨lastError, by simp [tryCandidates]⟩
  | cons first cs ih =>
      rw [List.map_cons, Candidate.hex, tryCandidates,
        Merkle.rootFromInclusionProof_eq_ok hleaf (Octets.mapM_fromHex_toHex _), first.rootOfProof_eq]
      have hok := hv (first.root L.hash leafEntry)
      simp only [Option.map_some, Octets.fromHex_toHex, Option.getD_some]
      rw [List.find?_cons] at hfind
      cases hsig : verifySign1 L receipt logPublicKeyPem (some (first.root L.hash leafEntry))
          receiptUnderstood with
      | error error =>
          rw [hsig] at hok
          rw [← hok] at hfind
          obtain ⟨last, hlast⟩ := ih hfind (diagnostic.or (some (first.treeSize, first.leafIndex,
            Octets.toHex (first.root L.hash leafEntry)))) (some error)
          refine ⟨last, ?_⟩
          simp only
          rw [hlast, Option.or_assoc]
          rfl
      | ok sign1 =>
          rw [hsig] at hok
          rw [← hok] at hfind
          cases hfind

/-! ## The verifier -/

/-- The default of `failed_at` leaves an accepted result alone. -/
theorem verifyReceipt_of_ok {result : ReceiptResult}
    (h : verifyReceiptSteps L receipt leafEntryHex logPublicKeyPem = result)
    (hok : result.ok = true) :
    verifyReceipt L receipt leafEntryHex logPublicKeyPem = result := by
  simp [verifyReceipt, h, hok]

/-- A refusal without a step is one for structure. -/
theorem verdict_of_errors {errors : List String}
    (h : verifyReceiptSteps L receipt leafEntryHex logPublicKeyPem = { errors := errors }) :
    (verifyReceipt L receipt leafEntryHex logPublicKeyPem).verdict = .malformed := by
  simp only [verifyReceipt, h]
  rfl

/-- Octets that carry no envelope are malformed. -/
theorem verdict_of_read_none (h : Envelope.read receipt = none) :
    (verifyReceipt L receipt leafEntryHex logPublicKeyPem).verdict = .malformed := by
  obtain ⟨error, herror⟩ := exists_readHeaders_error (L := L) h
  exact verdict_of_errors (by rw [verifyReceiptSteps, herror])

/-- A receipt whose headers or proofs are refused is malformed. -/
theorem verdict_of_readProofs_none (he : Envelope.read receipt = some e)
    (h : (readProofs L e.toHeaders).toOption = none) :
    (verifyReceipt L receipt leafEntryHex logPublicKeyPem).verdict = .malformed := by
  cases hproofs : readProofs L e.toHeaders with
  | ok blobs => rw [hproofs] at h; cases h
  | error error =>
      refine @verdict_of_errors _ _ _ _ [error] ?_
      simp only [verifyReceiptSteps, readHeaders_of_read he, hproofs]

/-- The candidates of a message as its capped proofs read one by one. -/
theorem candidates_eq_cappedProofs (h : Headers) :
    h.candidates proofSlot asBytes =
      h.cappedProofs.bind fun items => items.mapM (Candidate.read asBytes) := by
  rw [Headers.candidates, Headers.cappedProofs]
  cases h.proofs proofSlot with
  | none => rfl
  | some items =>
      rw [Option.bind_some, Option.filter_some]
      by_cases hlen : items.length ≤ maxInclusionProofs <;> simp [hlen]

/-- Decoding the blobs of a message gives its candidates. -/
theorem mapM_decodeInclusionProof {items : List Item} (hg : ∀ i ∈ items, Grammar false i) :
    ((items.map encode).mapM (decodeInclusionProof L)).toOption =
      (items.mapM (Candidate.read asBytes)).map (List.map Candidate.hex) := by
  rw [Octets.toOption_mapM]
  induction items with
  | nil => rfl
  | cons i items ih =>
      rw [List.map_cons, List.mapM_cons, List.mapM_cons,
        decodeInclusionProof_toOption (hg i (by simp)), ih fun j hj => hg j (by simp [hj])]
      cases Candidate.read asBytes i with
      | none => rfl
      | some c => cases items.mapM (Candidate.read asBytes) <;> rfl

/-- The unprotected header of a message with proofs is a map. -/
theorem exists_map_of_cappedProofs {h : Headers} {items : List Item}
    (hp : h.cappedProofs = some items) : ∃ u, h.unprotected = .map u := by
  rw [Headers.cappedProofs, Option.filter_eq_some_iff, Headers.proofs] at hp
  split at hp
  · next u hu => exact ⟨u, hu⟩
  · cases hp.1

theorem grammar_of_cappedProofs {h : Headers} {items : List Item}
    (hp : h.cappedProofs = some items) : ∀ i ∈ items, Grammar false i :=
  grammar_of_proofs (Option.filter_eq_some_iff.mp hp).1

/-- The proof blobs of a receipt whose protected header passes its checks. -/
theorem readProofs_of_headed (he : Envelope.read receipt = some e)
    (hheaded : e.Headed (understoodLabels e.vds)) {items : List Item}
    (hitems : e.cappedProofs = some items) :
    readProofs L e.toHeaders = .ok (items.map encode) := by
  obtain ⟨-, -, -, hd⟩ := Envelope.read_eq_some_iff.mp he
  have h := readProofs_toOption (L := L) (isKey_of_readHeader hd)
  rw [if_pos hheaded, hitems] at h
  cases hproofs : readProofs L e.toHeaders with
  | error error => rw [hproofs] at h; cases h
  | ok blobs =>
      rw [hproofs] at h
      exact congrArg Except.ok (Option.some.inj h)

/-- An accepted RFC 9162 receipt: the proof the signature verified under, and the claims of the
protected header. -/
theorem verifyReceipt_of_find (he : Envelope.read receipt = some e)
    (hleaf : Octets.fromHex leafEntryHex = some leafEntry)
    (hvds : e.vds = some vdsRfc9162Sha256) (hheaded : e.Headed receiptUnderstood)
    {cs : List Candidate} (hcs : e.candidates proofSlot asBytes = some cs) {c : Candidate}
    (hfind : cs.find? (fun c => e.verifies L.crypto logPublicKeyPem (c.root L.hash leafEntry)) =
      some c) :
    verifyReceipt L receipt leafEntryHex logPublicKeyPem =
      surfaceClaims e.protectedHeader
        { treeSize := some c.treeSize, leafIndex := some c.leafIndex,
          root := some (Octets.toHex (c.root L.hash leafEntry)) } := by
  have hund : understoodLabels e.vds = receiptUnderstood := by rw [hvds]; rfl
  rw [candidates_eq_cappedProofs, Option.bind_eq_some_iff] at hcs
  obtain ⟨items, hitems, hread⟩ := hcs
  have hdecode := mapM_decodeInclusionProof (L := L) (grammar_of_cappedProofs hitems)
  rw [hread] at hdecode
  refine verifyReceipt_of_ok ?_ rfl
  rw [verifyReceiptSteps, readHeaders_of_read he]
  simp only
  rw [readProofs_of_headed he (hund ▸ hheaded) hitems]
  simp only
  rw [if_pos hvds, verifyRfc9162]
  cases hm : (items.map encode).mapM (decodeInclusionProof L) with
  | error error => rw [hm] at hdecode; cases hdecode
  | ok candidates =>
      rw [hm] at hdecode
      obtain rfl := Option.some.inj hdecode
      simp only
      rw [tryCandidates_verified hleaf
        (verifySign1_isOk he (exists_map_of_cappedProofs hitems) hheaded.1) hfind]

/-- The verdict on an RFC 9162 receipt is the outcome over its candidates. -/
theorem verdict_of_rfc9162 (he : Envelope.read receipt = some e)
    (hleaf : Octets.fromHex leafEntryHex = some leafEntry)
    (hvds : e.vds = some vdsRfc9162Sha256) :
    (verifyReceipt L receipt leafEntryHex logPublicKeyPem).verdict =
      verdictOver L.hash leafEntry (e.verifies L.crypto logPublicKeyPem)
        (if e.Headed receiptUnderstood then e.candidates proofSlot asBytes else none) := by
  have hund : understoodLabels e.vds = receiptUnderstood := by rw [hvds]; rfl
  obtain ⟨-, -, -, hd⟩ := Envelope.read_eq_some_iff.mp he
  have hblobs := readProofs_toOption (L := L) (isKey_of_readHeader hd)
  rw [hund] at hblobs
  split_ifs at hblobs ⊢ with hheaded
  · cases hitems : e.cappedProofs with
    | none =>
        rw [hitems] at hblobs
        rw [verdict_of_readProofs_none he hblobs, candidates_eq_cappedProofs, hitems]
        rfl
    | some items =>
        have hcs : e.candidates proofSlot asBytes = items.mapM (Candidate.read asBytes) := by
          rw [candidates_eq_cappedProofs, hitems, Option.bind_some]
        have hdecode := mapM_decodeInclusionProof (L := L) (grammar_of_cappedProofs hitems)
        cases hread : items.mapM (Candidate.read asBytes) with
        | none =>
            rw [hread] at hdecode hcs
            rw [hcs]
            cases hm : (items.map encode).mapM (decodeInclusionProof L) with
            | ok candidates => rw [hm] at hdecode; cases hdecode
            | error error =>
                refine @verdict_of_errors _ _ _ _ [error] ?_
                rw [verifyReceiptSteps, readHeaders_of_read he]
                simp only
                rw [readProofs_of_headed he (hund ▸ hheaded) hitems]
                simp only
                rw [if_pos hvds, verifyRfc9162, hm]
        | some cs =>
            rw [hread] at hdecode hcs
            rw [hcs, verdictOver, outcome.eq_def]
            cases hfind : cs.find? fun c =>
                e.verifies L.crypto logPublicKeyPem (c.root L.hash leafEntry) with
            | some c =>
                rw [verifyReceipt_of_find he hleaf hvds hheaded hcs hfind]
                rfl
            | none =>
                cases hm : (items.map encode).mapM (decodeInclusionProof L) with
                | error error => rw [hm] at hdecode; cases hdecode
                | ok candidates =>
                    rw [hm] at hdecode
                    obtain rfl := Option.some.inj hdecode
                    obtain ⟨last, hlast⟩ := tryCandidates_exhausted hleaf
                      (verifySign1_isOk he (exists_map_of_cappedProofs hitems) hheaded.1) hfind
                      none none
                    have hsteps : verifyReceiptSteps L receipt leafEntryHex logPublicKeyPem =
                        verifyRfc9162 L receipt leafEntryHex logPublicKeyPem e.protectedHeader
                          (items.map encode) := by
                      rw [verifyReceiptSteps, readHeaders_of_read he]
                      simp only
                      rw [readProofs_of_headed he (hund ▸ hheaded) hitems]
                      simp only
                      rw [if_pos hvds]
                    rw [verifyReceipt, hsteps, verifyRfc9162, hm]
                    simp only [hlast]
                    cases cs <;> rfl
  · rw [verdict_of_readProofs_none he hblobs]
    rfl

/-! ## CCF receipts -/

theorem ccfStep_toOption (accumulator : Octets) (step : Item) :
    (ccfStep L accumulator step).toOption = ccfUp L.hash accumulator step := by
  rw [ccfUp.eq_def]
  split
  · next left sibling =>
      rw [ccfStep]
      cases left <;> split_ifs <;> first | rfl | contradiction
  · next hne =>
      rw [ccfStep.eq_def]
      split
      · next left sibling => exact absurd rfl (hne left sibling)
      all_goals rfl

/-- The leaf of a CCF proof is the leaf hash of a proof for the claim. -/
theorem ccfLeaf_toOption (claim w k : Octets) (c : String) :
    (ccfLeaf L claim (some (.array [.bytes w, .text c, .bytes k]))).toOption =
      if w.length = 32 ∧ k.length = 32 ∧ k = claim then
        some (L.hash.digest (w ++ L.hash.digest (Utf8.encode c) ++ k))
      else none := by
  simp only [ccfLeaf]
  by_cases hw : w.length = 32
  · rw [if_neg (not_not.mpr hw)]
    by_cases hk : k.length = 32
    · rw [if_neg (not_not.mpr hk)]
      by_cases hclaim : k = claim
      · rw [if_neg (not_not.mpr hclaim), if_pos ⟨hw, hk, hclaim⟩]
        rfl
      · rw [if_pos hclaim, if_neg fun h => hclaim h.2.2]
        rfl
    · rw [if_pos hk, if_neg fun h => hk h.2.1]
      rfl
  · rw [if_pos hw, if_neg fun h => hw h.1]
    rfl

/-- Only an array of a byte string, a text and a byte string is a leaf. -/
theorem exists_of_ccfLeaf {claim accumulator : Octets} {leaf : Option Item}
    (h : ccfLeaf L claim leaf = .ok accumulator) :
    ∃ w c k, leaf = some (.array [.bytes w, .text c, .bytes k]) := by
  rw [ccfLeaf.eq_def] at h
  split at h
  · next w c k =>
      cases w with
      | bytes w =>
          simp only at h
          split_ifs at h
          cases c with
          | text c =>
              cases k with
              | bytes k => exact ⟨w, c, k, rfl⟩
              | _ => cases h
          | _ => cases h
      | _ => cases h
  · cases h

/-- The CCF proof is evaluated when its path has at most 64 steps. -/
theorem verifyCcfV1Proof_toOption {i : Item} (hi : Grammar false i) (claim : Octets) :
    (verifyCcfV1Proof L (encode i) claim).toOption =
      ((CcfProof.read i).filter fun p => p.path.length ≤ maxAuditPath).bind
        (CcfProof.root L.hash claim) := by
  rw [verifyCcfV1Proof, Cbor2.loads, L.cbor2.decode_encode hi.outer]
  simp only [Except.map]
  cases i with
  | map proof =>
      simp only [CcfProof.read]
      by_cases hleaf : ∃ w c k,
          Dict.get proof (.int 1) = some (.array [.bytes w, .text c, .bytes k])
      · obtain ⟨w, c, k, hleaf⟩ := hleaf
        have hacc := ccfLeaf_toOption (L := L) claim w k c
        rw [hleaf]
        cases hpath : (Dict.get proof (.int 2)).getD (.array []) with
        | array path =>
            simp only
            by_cases hlen : w.length = 32 ∧ k.length = 32
            · rw [dif_pos hlen, Option.filter_some]
              by_cases hclaim : k = claim
              · rw [if_pos ⟨hlen.1, hlen.2, hclaim⟩] at hacc
                cases hc : ccfLeaf L claim (some (.array [.bytes w, .text c, .bytes k])) with
                | error error => rw [hc] at hacc; cases hacc
                | ok accumulator =>
                    rw [hc] at hacc
                    obtain rfl := Option.some.inj hacc
                    simp only
                    by_cases hcap : path.length ≤ maxAuditPath
                    · rw [if_neg (not_lt.mpr hcap), if_pos (by simpa using hcap), Option.bind_some,
                        CcfProof.root, if_pos hclaim, Octets.toOption_foldlM ccfStep_toOption]
                      rfl
                    · rw [if_pos (not_le.mp hcap), if_neg (by simpa using hcap)]
                      rfl
              · rw [if_neg fun h => hclaim h.2.2] at hacc
                cases hc : ccfLeaf L claim (some (.array [.bytes w, .text c, .bytes k])) with
                | ok accumulator => rw [hc] at hacc; cases hacc
                | error error =>
                    change none = _
                    split_ifs
                    · rw [Option.bind_some, CcfProof.root, if_neg hclaim]
                    · rfl
            · rw [dif_neg hlen]
              rw [if_neg fun h => hlen ⟨h.1, h.2.1⟩] at hacc
              cases hc : ccfLeaf L claim (some (.array [.bytes w, .text c, .bytes k])) with
              | ok accumulator => rw [hc] at hacc; cases hacc
              | error error => rfl
        | _ => cases ccfLeaf L claim (some (.array [.bytes w, .text c, .bytes k])) <;> rfl
      · cases hc : ccfLeaf L claim (Dict.get proof (.int 1)) with
        | ok accumulator => exact absurd (exists_of_ccfLeaf hc) hleaf
        | error error =>
            simp only
            split
            · next w c k path hl hp => exact absurd ⟨w, c, k, hl⟩ hleaf
            · rfl
  | _ => rfl

/-- The first proof blob is the encoding of the first proof. -/
theorem verifyCcfV1Proof_headD {items : List Item} (hg : ∀ i ∈ items, Grammar false i)
    (hne : items ≠ []) (claim : Octets) :
    (verifyCcfV1Proof L ((items.map encode).headD []) claim).toOption =
      firstCcfRoot L.hash claim (fun p => p.path.length ≤ maxAuditPath) items := by
  cases items with
  | nil => exact absurd rfl hne
  | cons i items => exact verifyCcfV1Proof_toOption (hg i (by simp)) claim

/-- A message has no empty list of proofs. -/
theorem ne_nil_of_cappedProofs {h : Headers} {items : List Item}
    (hp : h.cappedProofs = some items) : items ≠ [] := by
  rw [Headers.cappedProofs, Option.filter_eq_some_iff] at hp
  exact Headers.ne_nil_of_proofs hp.1

/-- The verdict on a CCF receipt is the one on its first proof. -/
theorem verdict_of_ccf (he : Envelope.read receipt = some e)
    (hleaf : Octets.fromHex leafEntryHex = some leafEntry)
    (hvds : e.vds = some vdsCcfLedgerSha256) :
    (verifyReceipt L receipt leafEntryHex logPublicKeyPem).verdict =
      ccfVerdict (e.verifies L.crypto logPublicKeyPem)
        (if e.Headed ccfReceiptUnderstood then
          e.cappedProofs.bind
            (firstCcfRoot L.hash leafEntry fun p => p.path.length ≤ maxAuditPath)
        else none) := by
  have hund : understoodLabels e.vds = ccfReceiptUnderstood := by rw [hvds]; rfl
  have hne : e.vds ≠ some vdsRfc9162Sha256 := by rw [hvds]; decide
  obtain ⟨-, -, -, hd⟩ := Envelope.read_eq_some_iff.mp he
  have hblobs := readProofs_toOption (L := L) (isKey_of_readHeader hd)
  rw [hund] at hblobs
  split_ifs at hblobs ⊢ with hheaded
  · cases hitems : e.cappedProofs with
    | none =>
        rw [hitems] at hblobs
        exact verdict_of_readProofs_none he hblobs
    | some items =>
        have hroot := verifyCcfV1Proof_headD (L := L) (grammar_of_cappedProofs hitems)
          (ne_nil_of_cappedProofs hitems) leafEntry
        have hsteps : verifyReceiptSteps L receipt leafEntryHex logPublicKeyPem =
            verifyCcf L receipt leafEntryHex logPublicKeyPem e.protectedHeader
              ((items.map encode).headD []) := by
          rw [verifyReceiptSteps, readHeaders_of_read he]
          simp only
          rw [readProofs_of_headed he (hund ▸ hheaded) hitems]
          simp only
          rw [if_neg hne, if_pos hvds]
        rw [Option.bind_some, ← hroot]
        cases hp : verifyCcfV1Proof L ((items.map encode).headD []) leafEntry with
        | error error =>
            refine @verdict_of_errors _ _ _ _ [error] ?_
            rw [hsteps, verifyCcf, hleaf]
            simp only [hp]
        | ok root =>
            have hok := @verifySign1_isOk L _ _ logPublicKeyPem he
              (exists_map_of_cappedProofs hitems) _ hheaded.1 root
            rw [verifyReceipt, hsteps, verifyCcf, hleaf]
            simp only [hp]
            cases hs : verifySign1 L receipt logPublicKeyPem (some root) ccfReceiptUnderstood with
            | error error =>
                rw [hs] at hok
                simp only [Except.toOption, ccfVerdict, ← hok]
                rfl
            | ok sign1 =>
                rw [hs] at hok
                simp only [Except.toOption, ccfVerdict, ← hok]
                rfl
  · exact verdict_of_readProofs_none he hblobs

/-- Without `vds` 1 or 2 a receipt is malformed. -/
theorem verdict_of_vds (he : Envelope.read receipt = some e)
    (h1 : e.vds ≠ some vdsRfc9162Sha256) (h2 : e.vds ≠ some vdsCcfLedgerSha256) :
    (verifyReceipt L receipt leafEntryHex logPublicKeyPem).verdict = .malformed := by
  cases hp : readProofs L e.toHeaders with
  | error error => exact verdict_of_readProofs_none he (by rw [hp]; rfl)
  | ok blobs =>
      refine @verdict_of_errors _ _ _ _
        ["unsupported verifiable data structure (protected label 395); " ++
          "expected RFC9162_SHA256 (vds=1) or CCF_LEDGER_SHA256 (vds=2)"] ?_
      simp only [verifyReceiptSteps, readHeaders_of_read he, hp, if_neg h1, if_neg h2]

end ScittCose.Receipt
