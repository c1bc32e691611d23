import ScittCose.Receipt.Verdict
import ScittCose.Lib.Sha256

/-!
# What an accepted receipt proves

Whatever size, index and path the unsigned header claims, an accepted RFC 9162 receipt over the root
of a list of entries is about one of the entries, unless the run exhibits a collision
(`exists_entry_of_verifyReceipt`).
-/

namespace ScittCose.Receipt

open Cbor
open EncodingRule (IsKey Plain Grammar)
open Merkle (expectedInclusionPathLen rootFromInclusionProof rootOfProof rootInputs foldInputs
  leafInput leafHashBytes merkleRoot merkleRootInputs rootOf path)

/-! ## What a run hashes -/

section Source

variable (L : Libraries)

/-- What `root_from_inclusion_proof` hashes when it returns a root. -/
def reconstructInputs (leafEntryHex : String) (leafIndex treeSize : ℤ)
    (auditPathHex : List String) : List Octets :=
  match Octets.fromHex leafEntryHex, auditPathHex.mapM Octets.fromHex with
  | some leafEntry, some auditPath =>
    rootInputs L.hash leafEntry leafIndex.toNat treeSize.toNat auditPath
  | _, _ => []

/-- What the loop over the candidates hashes. -/
def tryCandidatesInputs (receipt : Octets) (leafEntryHex logPublicKeyPem : String) :
    List (ℤ × ℤ × List String) → List Octets
  | [] => []
  | (treeSize, leafIndex, auditPathHex) :: candidates =>
    match rootFromInclusionProof L.hash leafEntryHex leafIndex treeSize auditPathHex with
    | .error _ => []
    | .ok none => tryCandidatesInputs receipt leafEntryHex logPublicKeyPem candidates
    | .ok (some reconstructed) =>
      reconstructInputs L leafEntryHex leafIndex treeSize auditPathHex ++
        match verifySign1 L receipt logPublicKeyPem
            (some ((Octets.fromHex reconstructed).getD [])) receiptUnderstood with
        | .error _ => tryCandidatesInputs receipt leafEntryHex logPublicKeyPem candidates
        | .ok _ => []

/-- What `verify_receipt` hashes to rebuild the root of an RFC 9162 receipt. -/
def verifyReceiptInputs (receipt : Octets) (leafEntryHex logPublicKeyPem : String) :
    List Octets :=
  match readHeaders L receipt with
  | .error _ => []
  | .ok h =>
    match readProofs L h with
    | .error _ => []
    | .ok inclusionProofs =>
      match inclusionProofs.mapM (decodeInclusionProof L) with
      | .error _ => []
      | .ok candidates => tryCandidatesInputs L receipt leafEntryHex logPublicKeyPem candidates

/-- The `vds` of a receipt's protected header. -/
def vdsOf (receipt : Octets) : Option ℤ :=
  match readHeaders L receipt with
  | .ok h => h.vds
  | .error _ => none

end Source

variable {L : Libraries} {receipt : Octets} {e : Envelope} {leafEntryHex logPublicKeyPem : String}
  {leafEntry : Octets}

/-! ## Accepted receipts -/

/-- Without a leaf in hexadecimal text no candidate verifies. -/
theorem tryCandidates_ne_verified (hleaf : Octets.fromHex leafEntryHex = none)
    (candidates : List (ℤ × ℤ × List String)) (diagnostic : Option (ℤ × ℤ × String))
    (lastError : Option String) (treeSize leafIndex : ℤ) (root : String) :
    tryCandidates L receipt leafEntryHex logPublicKeyPem candidates diagnostic lastError ≠
      .verified treeSize leafIndex root := by
  induction candidates generalizing diagnostic lastError with
  | nil => simp [tryCandidates]
  | cons candidate candidates ih =>
      obtain ⟨size, index, auditPathHex⟩ := candidate
      rw [tryCandidates, rootFromInclusionProof, hleaf]
      split_ifs
      · exact ih _ _
      · exact ih _ _
      · simp

/-- An accepted receipt can be read. -/
theorem exists_read_of_ok
    (hok : (verifyReceipt L receipt leafEntryHex logPublicKeyPem).ok = true) :
    ∃ e, Envelope.read receipt = some e := by
  cases he : Envelope.read receipt with
  | some e => exact ⟨e, rfl⟩
  | none =>
      have h := congrArg Verdict.ok (@verdict_of_read_none L _ leafEntryHex logPublicKeyPem he)
      rw [show (verifyReceipt L receipt leafEntryHex logPublicKeyPem).verdict.ok = true from hok] at h
      cases h

theorem vdsOf_eq (he : Envelope.read receipt = some e) : vdsOf L receipt = e.vds := by
  rw [vdsOf, readHeaders_of_read he]

/-- The leaf of an accepted RFC 9162 receipt is hexadecimal text. -/
theorem exists_fromHex_of_ok (he : Envelope.read receipt = some e)
    (hvds : e.vds = some vdsRfc9162Sha256)
    (hok : (verifyReceipt L receipt leafEntryHex logPublicKeyPem).ok = true) :
    ∃ leafEntry, Octets.fromHex leafEntryHex = some leafEntry := by
  cases hleaf : Octets.fromHex leafEntryHex with
  | some leafEntry => exact ⟨leafEntry, rfl⟩
  | none =>
      exfalso
      cases hp : readProofs L e.toHeaders with
      | error error =>
          have h := @verdict_of_readProofs_none L _ _ leafEntryHex logPublicKeyPem he
            (by rw [hp]; rfl)
          have hbad := congrArg Verdict.ok h
          rw [show (verifyReceipt L receipt leafEntryHex logPublicKeyPem).verdict.ok = true
            from hok] at hbad
          cases hbad
      | ok blobs =>
          have hsteps : verifyReceiptSteps L receipt leafEntryHex logPublicKeyPem =
              verifyRfc9162 L receipt leafEntryHex logPublicKeyPem e.protectedHeader blobs := by
            simp only [verifyReceiptSteps, readHeaders_of_read he, hp, hvds, if_true]
          have hfalse : (verifyRfc9162 L receipt leafEntryHex logPublicKeyPem e.protectedHeader
              blobs).ok = false := by
            rw [verifyRfc9162]
            cases blobs.mapM (decodeInclusionProof L) with
            | error error => rfl
            | ok candidates =>
                simp only
                split
                · rfl
                · rfl
                · next hv => exact absurd hv (tryCandidates_ne_verified hleaf _ _ _ _ _ _)
          rw [verifyReceipt, hsteps] at hok
          simp only [hfalse, Bool.false_eq_true, not_false_eq_true, true_and] at hok
          split_ifs at hok
          all_goals
            rw [hfalse] at hok
            cases hok

/-- What an accepted RFC 9162 receipt carries: a candidate over whose root the signature verifies. -/
structure Accepted (L : Libraries) (receipt : Octets) (leafEntryHex logPublicKeyPem : String)
    (e : Envelope) (leafEntry : Octets) (cs : List Candidate) (c : Candidate) : Prop where
  read : Envelope.read receipt = some e
  leaf : Octets.fromHex leafEntryHex = some leafEntry
  vds : e.vds = some vdsRfc9162Sha256
  headed : e.Headed receiptUnderstood
  candidates : e.candidates proofSlot asBytes = some cs
  find : cs.find? (fun c => e.verifies L.crypto logPublicKeyPem (c.root L.hash leafEntry)) = some c

theorem Accepted.result {cs : List Candidate} {c : Candidate}
    (h : Accepted L receipt leafEntryHex logPublicKeyPem e leafEntry cs c) :
    verifyReceipt L receipt leafEntryHex logPublicKeyPem =
      surfaceClaims e.protectedHeader
        { treeSize := some c.treeSize, leafIndex := some c.leafIndex,
          root := some (Octets.toHex (c.root L.hash leafEntry)) } :=
  verifyReceipt_of_find h.read h.leaf h.vds h.headed h.candidates h.find

/-- An accepted RFC 9162 receipt carries such a candidate. -/
theorem exists_accepted (hok : (verifyReceipt L receipt leafEntryHex logPublicKeyPem).ok = true)
    (hvds : vdsOf L receipt = some vdsRfc9162Sha256) :
    ∃ e leafEntry cs c, Accepted L receipt leafEntryHex logPublicKeyPem e leafEntry cs c := by
  obtain ⟨e, he⟩ := exists_read_of_ok hok
  rw [vdsOf_eq he] at hvds
  obtain ⟨leafEntry, hleaf⟩ := exists_fromHex_of_ok he hvds hok
  have hverdict := congrArg Verdict.ok (@verdict_of_rfc9162 L _ _ _ logPublicKeyPem _ he hleaf hvds)
  rw [show (verifyReceipt L receipt leafEntryHex logPublicKeyPem).verdict.ok = true from hok]
    at hverdict
  split_ifs at hverdict with hheaded
  · cases hcs : e.candidates proofSlot asBytes with
    | none => rw [hcs] at hverdict; cases hverdict
    | some cs =>
        rw [hcs, verdictOver, outcome.eq_def] at hverdict
        cases hfind : cs.find? fun c =>
            e.verifies L.crypto logPublicKeyPem (c.root L.hash leafEntry) with
        | some c => exact ⟨e, leafEntry, cs, c, he, hleaf, hvds, hheaded, hcs, hfind⟩
        | none =>
            rw [hfind] at hverdict
            cases cs <;> cases hverdict
  · cases hverdict

/-! ## The hashed inputs of an accepted receipt -/

theorem reconstructInputs_hex (hleaf : Octets.fromHex leafEntryHex = some leafEntry)
    (c : Candidate) :
    reconstructInputs L leafEntryHex c.leafIndex c.treeSize (c.auditPath.map Octets.toHex) =
      rootInputs L.hash leafEntry c.leafIndex c.treeSize c.auditPath := by
  simp only [reconstructInputs, hleaf, Octets.mapM_fromHex_toHex, Int.toNat_natCast]

/-- The run hashes what the accepted candidate's fold hashes. -/
theorem rootInputs_subset_tryCandidatesInputs
    (hleaf : Octets.fromHex leafEntryHex = some leafEntry) {v : Octets → Bool}
    (hv : ∀ root, (verifySign1 L receipt logPublicKeyPem (some root) receiptUnderstood).isOk =
      v root) {cs : List Candidate} {c : Candidate}
    (hfind : cs.find? (fun c => v (c.root L.hash leafEntry)) = some c) :
    rootInputs L.hash leafEntry c.leafIndex c.treeSize c.auditPath ⊆
      tryCandidatesInputs L receipt leafEntryHex logPublicKeyPem (cs.map Candidate.hex) := by
  induction cs with
  | nil => cases hfind
  | cons first cs ih =>
      have hok := hv (first.root L.hash leafEntry)
      rw [List.map_cons, Candidate.hex, tryCandidatesInputs,
        Merkle.rootFromInclusionProof_eq_ok hleaf (Octets.mapM_fromHex_toHex _), first.rootOfProof_eq]
      simp only [Option.map_some, Octets.fromHex_toHex, Option.getD_some]
      rw [List.find?_cons] at hfind
      cases hsig : verifySign1 L receipt logPublicKeyPem (some (first.root L.hash leafEntry))
          receiptUnderstood with
      | error error =>
          rw [hsig] at hok
          rw [← hok] at hfind
          exact List.Subset.trans (ih hfind) (List.subset_append_right _ _)
      | ok sign1 =>
          rw [hsig] at hok
          rw [← hok] at hfind
          obtain rfl := Option.some.inj hfind
          rw [reconstructInputs_hex hleaf]
          exact List.subset_append_left _ _

theorem Accepted.rootInputs_subset {cs : List Candidate} {c : Candidate}
    (h : Accepted L receipt leafEntryHex logPublicKeyPem e leafEntry cs c) :
    rootInputs L.hash leafEntry c.leafIndex c.treeSize c.auditPath ⊆
      verifyReceiptInputs L receipt leafEntryHex logPublicKeyPem := by
  have hund : understoodLabels e.vds = receiptUnderstood := by rw [h.vds]; rfl
  have hcs := h.candidates
  rw [candidates_eq_cappedProofs, Option.bind_eq_some_iff] at hcs
  obtain ⟨items, hitems, hread⟩ := hcs
  have hdecode := mapM_decodeInclusionProof (L := L) (grammar_of_cappedProofs hitems)
  rw [hread] at hdecode
  rw [verifyReceiptInputs, readHeaders_of_read h.read]
  simp only
  rw [readProofs_of_headed h.read (hund ▸ h.headed) hitems]
  simp only
  cases hm : (items.map encode).mapM (decodeInclusionProof L) with
  | error error => rw [hm] at hdecode; cases hdecode
  | ok candidates =>
      rw [hm] at hdecode
      obtain rfl := Option.some.inj hdecode
      exact rootInputs_subset_tryCandidatesInputs h.leaf
        (verifySign1_isOk h.read (exists_map_of_cappedProofs hitems) h.headed.1) h.find

/-- The fold of a candidate reaches its root. -/
theorem Candidate.fold_eq (H : Hash) (leafEntry : Octets) (c : Candidate) :
    Merkle.fold H (leafHashBytes H leafEntry) c.auditPath.reverse c.treeSize c.leafIndex =
      some (c.root H leafEntry, []) := by
  have h := c.rootOfProof_eq H leafEntry
  rw [rootOfProof, if_pos ⟨c.leafIndex_lt, c.treeSize_le, c.length_auditPath⟩] at h
  split at h
  · next computed hfold => rw [hfold, Option.some.inj h]
  · cases h

/-- A candidate over the root of a list of entries is the audit path of one of them. -/
theorem Candidate.exists_entry {H : Hash} {I entries : List Octets} (hI : ¬ H.Collision I)
    {c : Candidate} (hrun : rootInputs H leafEntry c.leafIndex c.treeSize c.auditPath ⊆ I)
    (hentries : merkleRootInputs H entries ⊆ I)
    (hroot : c.root H leafEntry = rootOf H entries) :
    ∃ j, ∃ hj : j < entries.length, entries[j] = leafEntry ∧
      c.auditPath = path H (entries.map (leafHashBytes H)) j ∧
      Merkle.turns c.treeSize c.leafIndex = Merkle.turns entries.length j := by
  have hfold := c.fold_eq H leafEntry
  rw [hroot] at hfold
  obtain ⟨j, hj, hje, hpath, hturns⟩ := Merkle.exists_index_of_fold hI hentries
    (hrun List.mem_cons_self) c.leafIndex_lt (by simpa using c.length_node)
    (fun x hx => hrun (List.mem_cons_of_mem _ hx)) hfold
  rw [List.append_nil, List.reverse_inj] at hpath
  exact ⟨j, hj, hje, hpath, hturns⟩

/-- Membership: an accepted receipt over the root of a list of entries has one of them as its leaf,
or the run and the computation of the root exhibit a collision. -/
theorem exists_entry_of_verifyReceipt {root : String} {D : List String}
    (hok : (verifyReceipt L receipt leafEntryHex logPublicKeyPem).ok = true)
    (hvds : vdsOf L receipt = some vdsRfc9162Sha256)
    (hroot : (verifyReceipt L receipt leafEntryHex logPublicKeyPem).root = some root)
    (hD : merkleRoot L.hash D = some root) :
    (∃ entryHex ∈ D, ∃ leafEntry, Octets.fromHex entryHex = some leafEntry ∧
      Octets.fromHex leafEntryHex = some leafEntry) ∨
      L.hash.Collision (verifyReceiptInputs L receipt leafEntryHex logPublicKeyPem ++
        merkleRootInputs L.hash (D.filterMap Octets.fromHex)) := by
  refine or_iff_not_imp_right.mpr fun hI => ?_
  obtain ⟨e, leafEntry, cs, c, h⟩ := exists_accepted hok hvds
  obtain ⟨entries, hentries, hrootD⟩ := Merkle.merkleRoot_eq_some_iff.mp hD
  have hfilter : D.filterMap Octets.fromHex = entries := by
    have := congrArg (List.filterMap id) (Octets.mapM_eq_some_iff.mp hentries)
    simpa [List.filterMap_map] using this
  rw [hfilter] at hI
  rw [h.result] at hroot
  have hc : c.root L.hash leafEntry = rootOf L.hash entries := by
    rw [hrootD] at hroot
    exact Octets.toHex_inj.mp (Option.some.inj hroot)
  obtain ⟨j, hj, hje, -, -⟩ := Candidate.exists_entry hI
    (List.Subset.trans h.rootInputs_subset (List.subset_append_left _ _)) (List.subset_append_right _ _) hc
  have hlen := Octets.length_of_mapM hentries
  have hjD : j < D.length := hlen ▸ hj
  have hget := congrArg (fun l => l[j]?) (Octets.mapM_eq_some_iff.mp hentries)
  simp only [List.getElem?_map, List.getElem?_eq_getElem hj, List.getElem?_eq_getElem hjD,
    Option.map_some, Option.some.injEq] at hget
  exact ⟨D[j], List.getElem_mem hjD, leafEntry, hje ▸ hget, h.leaf⟩

/-! ## A receipt of the test vectors (`test-vectors/receipt-v1/synthetic-eddsa-iat-only`) -/

/-- `log-key.pub` -/
def vectorPem : String :=
  "-----BEGIN PUBLIC KEY-----\n" ++
    "MCowBQYDK2VwAyEAHRHBfPF44+juBpobn9Kz8g4hjeSk7+JAp55ZxUVLQaI=\n" ++
    "-----END PUBLIC KEY-----\n"

/-- The root over the entries `00`, `01`, `02` and `03`. -/
def vectorRoot : Octets := Octets.ofNat 32
  0x9bcd51240af4005168f033121ba85be5a6ed4f0e6a5fac262066729b8fbfdecb

/-- The signature of the receipt. -/
def vectorSignature : Octets := Octets.ofNat 64
  0x3827c09a233e285582ead6bdda751d8bf8edcbf573930f825f14496a2290ef0cf5505afabbc1a597e8b83e3093d7194600aebe97d2939a0b8c21b23930716207

/-- The protected header of the receipt. -/
def vectorProtected : Octets := Octets.ofNat 15 0xa319018b010fa1061a6553f4840127

/-- `receipt.cose` -/
def vectorReceipt : Octets := Octets.ofNat 166
  0xd2844fa319018b010fa1061a6553f4840127a119018ca12081584883040182582096a296d224f285c67bee93c30f8a309157f0daa35dc5b87e410b78630a09cfc7582052c56b473e5246933e7852989cd9feba3b38f078742b93afff1e65ed46797825f658403827c09a233e285582ead6bdda751d8bf8edcbf573930f825f14496a2290ef0cf5505afabbc1a597e8b83e3093d7194600aebe97d2939a0b8c21b23930716207

/-- SHA-256, reference CBOR and the vector's key pair and signature. -/
def vectorLibraries : Libraries where
  hash := Hash.sha256
  cbor2 := .reference
  ciborium := .reference
  fxamacker := .reference
  crypto := .ed25519 vectorPem "" (encode (sigItem vectorProtected vectorRoot)) vectorSignature
    (Octets.length_ofNat _ _)
  strRepr := id

set_option maxRecDepth 100000 in
theorem verifyReceipt_vector :
    verifyReceipt vectorLibraries vectorReceipt "01" vectorPem =
      { ok := true, root := some (Octets.toHex vectorRoot), treeSize := some 4,
        leafIndex := some 1, iat := some 1700000900 } := by
  decide +kernel

set_option maxRecDepth 100000 in
/-- The vector's leaf is one of the entries. -/
theorem exists_entry_of_verifyReceipt_vector :
    (∃ entryHex ∈ ["00", "01", "02", "03"], ∃ leafEntry, Octets.fromHex entryHex = some leafEntry ∧
      Octets.fromHex "01" = some leafEntry) ∨
      vectorLibraries.hash.Collision
        (verifyReceiptInputs vectorLibraries vectorReceipt "01" vectorPem ++
          merkleRootInputs vectorLibraries.hash
            (["00", "01", "02", "03"].filterMap Octets.fromHex)) :=
  exists_entry_of_verifyReceipt
    (by rw [verifyReceipt_vector]) (by decide +kernel) (by rw [verifyReceipt_vector])
    (by decide +kernel)

end ScittCose.Receipt
