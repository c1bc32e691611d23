import ScittCose.Receipt.Contract

/-!
# Membership of a CCF receipt

A CCF ledger tree is any finite binary tree over its transactions. A proof whose walk ends at the root
of such a tree is for the claim of one of its transactions, unless the run exhibits a collision
(`exists_claim_of_verifyCcfV1Proof`). Nothing separates leaves from nodes but their length: a leaf
hashes 96 octets and a node 64.
-/

namespace ScittCose.Receipt

open Cbor

/-- A transaction of a CCF ledger. -/
structure CcfTransaction where
  writeSetDigest : Octets
  commitEvidence : Octets
  claimDigest : Octets
  length_writeSetDigest : writeSetDigest.length = 32
  length_claimDigest : claimDigest.length = 32

/-- A CCF ledger tree. -/
inductive CcfTree where
  | leaf (transaction : CcfTransaction)
  | node (left right : CcfTree)

namespace CcfTree

/-- The transactions of a ledger. -/
def transactions : CcfTree → List CcfTransaction
  | leaf t => [t]
  | node l r => l.transactions ++ r.transactions

section Hashes

variable (H : Hash)

/-- What the hash of a transaction is taken of. -/
def leafInput (t : CcfTransaction) : Octets :=
  t.writeSetDigest ++ H.digest t.commitEvidence ++ t.claimDigest

/-- The hash of a ledger tree. -/
def root : CcfTree → Octets
  | leaf t => H.digest (leafInput H t)
  | node l r => H.digest (l.root ++ r.root)

/-- What the computation of a root hashes. -/
def inputs : CcfTree → List Octets
  | leaf t => [t.commitEvidence, leafInput H t]
  | node l r => (l.root H ++ r.root H) :: (l.inputs ++ r.inputs)

end Hashes

variable {H : Hash}

theorem length_leafInput (t : CcfTransaction) : (leafInput H t).length = 96 := by
  rw [leafInput, List.length_append, List.length_append, H.length_digest, t.length_writeSetDigest,
    t.length_claimDigest]

theorem length_root (t : CcfTree) : (t.root H).length = 32 := by
  cases t <;> exact H.length_digest _

/-- Equal leaf inputs are of transactions with the same claim. -/
theorem claimDigest_of_leafInput {t : CcfTransaction} {w c claim : Octets} (hw : w.length = 32)
    (hc : c.length = 32) (h : leafInput H t = w ++ c ++ claim) : t.claimDigest = claim := by
  have hlen : (t.writeSetDigest ++ H.digest t.commitEvidence).length = (w ++ c).length := by
    rw [List.length_append, List.length_append, H.length_digest, t.length_writeSetDigest, hw, hc]
  exact (List.append_inj h hlen).2

end CcfTree

/-! ## What a run hashes -/

section Source

variable (L : Libraries)

/-- What the walk up a path hashes. -/
def ccfPathInputs (accumulator : Octets) : List Item → List Octets
  | [] => []
  | step :: path =>
    match step, ccfStep L accumulator step with
    | .array [.bool left, .bytes sibling], .ok parent =>
      (if left then sibling ++ accumulator else accumulator ++ sibling) ::
        ccfPathInputs parent path
    | _, _ => []

/-- What `_verify_ccf_v1_proof` hashes when it returns a root. -/
def verifyCcfV1ProofInputs (proofBlob claimDigest : Octets) : List Octets :=
  match L.cbor2.loads proofBlob with
  | .ok (.map proof) =>
    match Dict.get proof (.int 1), ccfLeaf L claimDigest (Dict.get proof (.int 1)),
        (Dict.get proof (.int 2)).getD (.array []) with
    | some (.array [.bytes writeSetDigest, .text ceString, .bytes proofClaimDigest]),
        .ok accumulator, .array path =>
      [Utf8.encode ceString,
        writeSetDigest ++ L.hash.digest (Utf8.encode ceString) ++ proofClaimDigest] ++
        ccfPathInputs L accumulator path
    | _, _, _ => []
  | _ => []

/-- What `verify_receipt` hashes to rebuild the root of a CCF receipt. -/
def verifyCcfInputs (receipt : Octets) (leafEntryHex : String) : List Octets :=
  match readHeaders L receipt with
  | .error _ => []
  | .ok h =>
    match readProofs L h, Octets.fromHex leafEntryHex with
    | .ok inclusionProofs, some claimDigest =>
      verifyCcfV1ProofInputs L (inclusionProofs.headD []) claimDigest
    | _, _ => []

end Source

variable {L : Libraries}

/-! ## Steps and walks -/

/-- A step hashes its sibling on one side of the accumulator, 64 octets for a digest. -/
theorem ccfStep_eq_ok {accumulator parent : Octets} {step : Item}
    (h : ccfStep L accumulator step = .ok parent) :
    ∃ left sibling, step = .array [.bool left, .bytes sibling] ∧ sibling.length = 32 ∧
      parent = L.hash.digest (if left then sibling ++ accumulator else accumulator ++ sibling) := by
  have hup := ccfStep_toOption (L := L) accumulator step
  rw [h] at hup
  rw [ccfUp.eq_def] at hup
  split at hup
  · next left sibling =>
      split_ifs at hup with hlen hleft
      · refine ⟨left, sibling, rfl, hlen, ?_⟩
        rw [if_pos hleft]
        exact Option.some.inj hup
      · refine ⟨left, sibling, rfl, hlen, ?_⟩
        rw [if_neg hleft]
        exact Option.some.inj hup
      · cases hup
  · cases hup

theorem ccfPathInputs_cons {accumulator parent : Octets} {left : Bool} {sibling : Octets}
    (h : ccfStep L accumulator (.array [.bool left, .bytes sibling]) = .ok parent)
    (path : List Item) :
    ccfPathInputs L accumulator (.array [.bool left, .bytes sibling] :: path) =
      (if left then sibling ++ accumulator else accumulator ++ sibling) ::
        ccfPathInputs L parent path := by
  rw [ccfPathInputs.eq_def]
  simp only [h]

/-- Two strings of digests that are equal have equal halves. -/
theorem halves_eq {a b c d : Octets} (ha : a.length = 32) (hc : c.length = 32)
    (h : a ++ b = c ++ d) : a = c ∧ b = d :=
  List.append_inj h (ha.trans hc.symm)

/-- Any tree whose root is the accumulator holds a transaction that hashes `start`. -/
def HoldsLeaf (H : Hash) (I : List Octets) (start accumulator : Octets) : Prop :=
  ∀ tree : CcfTree, tree.inputs H ⊆ I → accumulator = tree.root H →
    ∃ t ∈ tree.transactions, CcfTree.leafInput H t = start

/-- The leaf itself: 96 octets are not hashed for a node. -/
theorem holdsLeaf_start {H : Hash} {I : List Octets} (hI : ¬ H.Collision I) {start : Octets}
    (hstart : start ∈ I) (hlen : start.length = 96) : HoldsLeaf H I start (H.digest start) := by
  intro tree htree hroot
  cases tree with
  | leaf t =>
      have heq := Hash.eq_of_digest_eq hI hstart (htree (by simp [CcfTree.inputs])) hroot
      exact ⟨t, by simp [CcfTree.transactions], heq.symm⟩
  | node l r =>
      have heq := Hash.eq_of_digest_eq hI hstart (htree (by simp [CcfTree.inputs])) hroot
      rw [heq, List.length_append, CcfTree.length_root, CcfTree.length_root] at hlen
      omega

/-- One step up: 64 octets are not hashed for a leaf, and the accumulator is one half of them. -/
theorem holdsLeaf_pair {H : Hash} {I : List Octets} (hI : ¬ H.Collision I)
    {start accumulator sibling : Octets} {left : Bool} (hacc : HoldsLeaf H I start accumulator)
    (hacclen : accumulator.length = 32) (hsib : sibling.length = 32)
    (hpair : (if left then sibling ++ accumulator else accumulator ++ sibling) ∈ I) :
    HoldsLeaf H I start
      (H.digest (if left then sibling ++ accumulator else accumulator ++ sibling)) := by
  intro tree htree hroot
  cases tree with
  | leaf t =>
      have heq := Hash.eq_of_digest_eq hI hpair (htree (by simp [CcfTree.inputs])) hroot
      have hlen := congrArg List.length heq
      rw [CcfTree.length_leafInput] at hlen
      split_ifs at hlen <;> rw [List.length_append, hsib, hacclen] at hlen <;> omega
  | node l r =>
      have hl : l.inputs H ⊆ I := fun x hx => htree (by simp [CcfTree.inputs, hx])
      have hr : r.inputs H ⊆ I := fun x hx => htree (by simp [CcfTree.inputs, hx])
      have heq := Hash.eq_of_digest_eq hI hpair (htree (by simp [CcfTree.inputs])) hroot
      cases left with
      | true =>
          obtain ⟨-, hright⟩ := halves_eq hsib (CcfTree.length_root l) heq
          obtain ⟨t, ht, hinput⟩ := hacc r hr hright
          exact ⟨t, List.mem_append_right _ ht, hinput⟩
      | false =>
          obtain ⟨hleft, -⟩ := halves_eq hacclen (CcfTree.length_root l) heq
          obtain ⟨t, ht, hinput⟩ := hacc l hl hleft
          exact ⟨t, List.mem_append_left _ ht, hinput⟩

/-- A whole walk. -/
theorem holdsLeaf_walk {I : List Octets} (hI : ¬ L.hash.Collision I) {start : Octets}
    {path : List Item} {accumulator root : Octets}
    (hacc : HoldsLeaf L.hash I start accumulator) (hacclen : accumulator.length = 32)
    (hrun : ccfPathInputs L accumulator path ⊆ I)
    (hwalk : path.foldlM (ccfStep L) accumulator = .ok root) :
    HoldsLeaf L.hash I start root := by
  induction path generalizing accumulator with
  | nil =>
      cases hwalk
      exact hacc
  | cons step path ih =>
      rw [List.foldlM_cons] at hwalk
      cases hstep : ccfStep L accumulator step with
      | error error => rw [hstep] at hwalk; cases hwalk
      | ok parent =>
          rw [hstep] at hwalk
          obtain ⟨left, sibling, rfl, hsib, rfl⟩ := ccfStep_eq_ok hstep
          rw [ccfPathInputs_cons hstep, List.cons_subset] at hrun
          exact ih (holdsLeaf_pair hI hacc hacclen hsib hrun.1) (L.hash.length_digest _) hrun.2 hwalk

/-! ## Proofs -/

/-- The leaf of a proof: digests of 32 octets and the claim. -/
theorem ccfLeaf_eq_ok {claim accumulator : Octets} {leaf : Option Item}
    (h : ccfLeaf L claim leaf = .ok accumulator) :
    ∃ w c, leaf = some (.array [.bytes w, .text c, .bytes claim]) ∧ w.length = 32 ∧
      claim.length = 32 ∧
      accumulator = L.hash.digest (w ++ L.hash.digest (Utf8.encode c) ++ claim) := by
  obtain ⟨w, c, k, rfl⟩ := exists_of_ccfLeaf h
  have hleaf := ccfLeaf_toOption (L := L) claim w k c
  rw [h] at hleaf
  split_ifs at hleaf with hlen
  · obtain ⟨hw, hk, rfl⟩ := hlen
    exact ⟨w, c, rfl, hw, hk, Option.some.inj hleaf⟩
  · cases hleaf

/-- What a proof that is evaluated walks from and hashes. -/
theorem exists_walk_of_verifyCcfV1Proof {proofBlob claim root : Octets}
    (h : verifyCcfV1Proof L proofBlob claim = .ok root) :
    ∃ w c path, w.length = 32 ∧ claim.length = 32 ∧
      path.foldlM (ccfStep L) (L.hash.digest (w ++ L.hash.digest (Utf8.encode c) ++ claim)) =
        .ok root ∧
      verifyCcfV1ProofInputs L proofBlob claim =
        [Utf8.encode c, w ++ L.hash.digest (Utf8.encode c) ++ claim] ++
          ccfPathInputs L (L.hash.digest (w ++ L.hash.digest (Utf8.encode c) ++ claim)) path := by
  rw [verifyCcfV1Proof] at h
  split at h
  · cases h
  · next proof hloads =>
      split at h
      · cases h
      next accumulator hleaf =>
      split at h
      · next path hpath =>
          split_ifs at h
          obtain ⟨w, c, hget, hw, hclaim, rfl⟩ := ccfLeaf_eq_ok hleaf
          refine ⟨w, c, path, hw, hclaim, h, ?_⟩
          rw [verifyCcfV1ProofInputs, hloads]
          simp only [hleaf, hpath]
          rw [hget]
      · cases h
  · cases h

/-- A proof whose walk ends at the root of a ledger tree is for the claim of one of its
transactions, or the run and the computation of the root exhibit a collision. -/
theorem exists_claim_of_verifyCcfV1Proof {proofBlob claim : Octets} {tree : CcfTree}
    (h : verifyCcfV1Proof L proofBlob claim = .ok (tree.root L.hash)) :
    (∃ t ∈ tree.transactions, t.claimDigest = claim) ∨
      L.hash.Collision (verifyCcfV1ProofInputs L proofBlob claim ++ tree.inputs L.hash) := by
  rw [or_iff_not_imp_right]
  intro hI
  obtain ⟨w, c, path, hw, hclaim, hwalk, hinputs⟩ := exists_walk_of_verifyCcfV1Proof h
  rw [hinputs] at hI
  have hlen : (w ++ L.hash.digest (Utf8.encode c) ++ claim).length = 96 := by
    rw [List.length_append, List.length_append, L.hash.length_digest, hw, hclaim]
  have hstart := holdsLeaf_start hI
    (show w ++ L.hash.digest (Utf8.encode c) ++ claim ∈ _ by simp) hlen
  have hend := holdsLeaf_walk hI hstart (L.hash.length_digest _)
    (fun x hx => List.mem_append_left _ (List.mem_append_right _ hx)) hwalk
  obtain ⟨t, ht, hinput⟩ := hend tree (List.subset_append_right _ _) rfl
  exact ⟨t, ht, CcfTree.claimDigest_of_leafInput hw (L.hash.length_digest _) hinput⟩

/-! ## Receipts -/

variable {receipt : Octets} {leafEntryHex logPublicKeyPem : String}

/-- What an accepted CCF receipt evaluates. -/
theorem exists_ccf_of_ok (hok : (verifyReceipt L receipt leafEntryHex logPublicKeyPem).ok = true)
    (hvds : vdsOf L receipt = some vdsCcfLedgerSha256) :
    ∃ proofBlob claim root, Octets.fromHex leafEntryHex = some claim ∧
      verifyCcfV1Proof L proofBlob claim = .ok root ∧
      (verifyReceipt L receipt leafEntryHex logPublicKeyPem).root = some (Octets.toHex root) ∧
      verifyCcfInputs L receipt leafEntryHex = verifyCcfV1ProofInputs L proofBlob claim := by
  obtain ⟨e, he⟩ := exists_read_of_ok hok
  rw [vdsOf_eq he] at hvds
  have h1 : e.vds ≠ some vdsRfc9162Sha256 := by rw [hvds]; decide
  rw [verifyCcfInputs, readHeaders_of_read he]
  simp only
  cases hp : readProofs L e.toHeaders with
  | error error =>
      rw [verifyReceipt, verifyReceiptSteps, readHeaders_of_read he] at hok
      simp only [hp] at hok
      cases hok
  | ok blobs =>
      have hsteps : verifyReceiptSteps L receipt leafEntryHex logPublicKeyPem =
          verifyCcf L receipt leafEntryHex logPublicKeyPem e.protectedHeader (blobs.headD []) := by
        simp only [verifyReceiptSteps, readHeaders_of_read he, hp, if_neg h1, if_pos hvds]
      rw [verifyReceipt, hsteps, verifyCcf] at hok ⊢
      cases hleaf : Octets.fromHex leafEntryHex with
      | none => rw [hleaf] at hok; cases hok
      | some claim =>
          rw [hleaf] at hok
          cases hroot : verifyCcfV1Proof L (blobs.headD []) claim with
          | error error => simp only [hroot] at hok; cases hok
          | ok root =>
              refine ⟨blobs.headD [], claim, root, rfl, hroot, ?_, rfl⟩
              simp only [hroot]
              cases verifySign1 L receipt logPublicKeyPem (some root) ccfReceiptUnderstood <;> rfl

/-- Membership in a CCF ledger: a proof that rebuilds the root of a ledger tree, and an accepted
receipt over such a root, is for the claim of one of its transactions, or the run and the computation
of the root exhibit a collision. -/
theorem ccf_membership (L : Libraries) (tree : CcfTree) :
    (∀ proofBlob claim, verifyCcfV1Proof L proofBlob claim = .ok (tree.root L.hash) →
      (∃ t ∈ tree.transactions, t.claimDigest = claim) ∨
        L.hash.Collision (verifyCcfV1ProofInputs L proofBlob claim ++ tree.inputs L.hash)) ∧
    ∀ receipt leafEntryHex logPublicKeyPem,
      (verifyReceipt L receipt leafEntryHex logPublicKeyPem).ok = true →
      vdsOf L receipt = some vdsCcfLedgerSha256 →
      (verifyReceipt L receipt leafEntryHex logPublicKeyPem).root =
        some (Octets.toHex (tree.root L.hash)) →
      (∃ t ∈ tree.transactions, Octets.fromHex leafEntryHex = some t.claimDigest) ∨
        L.hash.Collision (verifyCcfInputs L receipt leafEntryHex ++ tree.inputs L.hash) := by
  refine ⟨fun _ _ => exists_claim_of_verifyCcfV1Proof, fun receipt leafEntryHex pem hok hvds hroot =>
    ?_⟩
  obtain ⟨proofBlob, claim, root, hleaf, hproof, hroot', hinputs⟩ := exists_ccf_of_ok hok hvds
  have heq : root = tree.root L.hash := by
    rw [hroot', Option.some.injEq] at hroot
    have h := congrArg Octets.fromHex hroot
    rw [Octets.fromHex_toHex, Octets.fromHex_toHex] at h
    exact Option.some.inj h
  subst heq
  rw [hinputs]
  rcases exists_claim_of_verifyCcfV1Proof hproof with ⟨t, ht, hclaim⟩ | hcoll
  · exact .inl ⟨t, ht, by rw [hleaf, hclaim]⟩
  · exact .inr hcoll

end ScittCose.Receipt
