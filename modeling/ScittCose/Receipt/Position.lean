import ScittCose.Receipt.Ccf
import ScittCose.Receipt.Mint

/-!
# The position a receipt reports

The tree size and the leaf index of a receipt stand in its unsigned header. Under the protected header
and the signature of a minted receipt another position verifies when it takes the same turns on the way
up (`repositioned_verifies`: leaf 2 of 3 as leaf 1 of 2), and, unless a run exhibits a collision or the
signature is one over two roots, no other (`turns_of_repositioned`).
-/

namespace ScittCose.Receipt

open Cbor
open EncodingRule (Plain Grammar)
open Merkle (leafHashBytes merkleRoot merkleRootInputs inclusionProof rootOf turns)

/-- The protected header's octets and the signature of a message. -/
def signedParts (L : Libraries) (receipt : Octets) : Option (Octets × Octets) :=
  match L.cbor2.loads receipt with
  | .ok (.tag _ (.array [.bytes protectedBstr, _, _, .bytes signature])) =>
    some (protectedBstr, signature)
  | _ => none

variable {L : Libraries}

/-! ## What a minted receipt signs -/

/-- The message `sign_sign1` writes for a receipt. -/
def mintMessage (protectedBstr blob signature : Octets) : Item :=
  .tag EncodingRule.coseSign1Tag
    (.array [.bytes protectedBstr, .map (mintUnprotected blob), .null, .bytes signature])

theorem writable_mintMessage (protectedBstr blob signature : Octets) :
    Writable (mintMessage protectedBstr blob signature) := by
  simp [mintMessage, mintUnprotected, Writable, WritableList, WritablePairs,
    EncodingRule.coseSign1Tag, hdrVdp, vdpInclusionProofs]

/-- The arguments of a message are no longer than the message. -/
theorem length_le_mintMessage (protectedBstr blob signature : Octets) :
    protectedBstr.length ≤ (encode (mintMessage protectedBstr blob signature)).length ∧
      blob.length ≤ (encode (mintMessage protectedBstr blob signature)).length ∧
      signature.length ≤ (encode (mintMessage protectedBstr blob signature)).length := by
  have harray : ∀ x ∈ [Item.bytes protectedBstr, .map (mintUnprotected blob), .null,
      .bytes signature], (encode x).length ≤
        (encode (mintMessage protectedBstr blob signature)).length := by
    intro x hx
    have h1 := length_encode_le_of_mem hx
    have h2 : (encode (Item.array [.bytes protectedBstr, .map (mintUnprotected blob), .null,
        .bytes signature])).length ≤
        (encode (mintMessage protectedBstr blob signature)).length := by
      simp [mintMessage, encode]
    omega
  refine ⟨(length_le_encode_bytes _).trans (harray _ (by simp)), ?_,
    (length_le_encode_bytes _).trans (harray (.bytes signature) (by simp))⟩
  have h1 := harray (.map (mintUnprotected blob)) (by simp)
  have h2 : _ ≤ (encode (.map (mintUnprotected blob))).length :=
    length_encode_le_of_mem_map List.mem_cons_self
  have h3 : _ ≤ (encode (.map [(.int vdpInclusionProofs, .array [.bytes blob])])).length :=
    length_encode_le_of_mem_map List.mem_cons_self
  have h4 : _ ≤ (encode (.array [.bytes blob])).length :=
    length_encode_le_of_mem List.mem_cons_self
  exact (length_le_encode_bytes blob).trans (h4.trans (h3.trans (h2.trans h1)))

/-- A message is one of the encoding rule. -/
theorem grammar_mintMessage {protectedBstr blob signature : Octets}
    (hlen : (encode (mintMessage protectedBstr blob signature)).length < 2 ^ 63) :
    Grammar true (mintMessage protectedBstr blob signature) := by
  obtain ⟨h1, h2, h3⟩ := length_le_mintMessage protectedBstr blob signature
  have hmap : Plain (.map (mintUnprotected blob)) := by
    refine ⟨by norm_num [mintUnprotected], by simp [mintUnprotected], ?_⟩
    refine ⟨trivial, ⟨by norm_num [hdrVdp], by norm_num [hdrVdp]⟩, ⟨by norm_num, by simp, ?_⟩,
      trivial⟩
    refine ⟨trivial, ⟨by norm_num [vdpInclusionProofs], by norm_num [vdpInclusionProofs]⟩,
      ⟨by norm_num, ?_, trivial⟩, trivial⟩
    exact show blob.length < 2 ^ 64 by omega
  refine ⟨rfl, rfl, ⟨by norm_num, ?_⟩, ?_⟩
  · exact ⟨show protectedBstr.length < 2 ^ 64 by omega, hmap, trivial,
      show signature.length < 2 ^ 64 by omega, trivial⟩
  · have := depth_mintUnprotected blob
    simp only [Item.depth, depthList] at this ⊢
    omega

/-- The parts of a minted message. -/
theorem signedParts_mintMessage {protectedBstr blob signature : Octets}
    (hlen : (encode (mintMessage protectedBstr blob signature)).length < 2 ^ 63) :
    signedParts L (encode (mintMessage protectedBstr blob signature)) =
      some (protectedBstr, signature) := by
  rw [signedParts, Cbor2.loads, L.cbor2.decode_encode (grammar_mintMessage hlen)]
  rfl

/-- What `build_receipt` signed when it returns a receipt: the root over the entries, with the key and
the algorithm it was given. -/
theorem exists_of_buildReceipt {leafEntryHex alg privatePem : String} {i : ℤ}
    {entriesHex : List String} {detached : Bool} {o : MintOptions} {nonce : ℕ} {receipt : Octets}
    (h : buildReceipt L leafEntryHex i entriesHex alg privatePem detached o nonce = .ok receipt) :
    ∃ entries a priv blob protectedBstr, ∃ hi : i.toNat < entries.length,
      entriesHex.mapM Octets.fromHex = some entries ∧ 0 ≤ i ∧
      Octets.fromHex leafEntryHex = some entries[i.toNat] ∧
      L.crypto.loadPrivateKey privatePem = .ok priv ∧ L.crypto.privateKind priv = a.kind ∧
      receipt = encode (mintMessage protectedBstr blob
        (L.crypto.sign a priv nonce (encode (sigItem protectedBstr (rootOf L.hash entries))))) := by
  rw [buildReceipt] at h
  split_ifs at h with hrange hleaf hdet
  rw [not_not] at hleaf
  split at h
  · cases h
  next rootHex hroot =>
  split at h
  · cases h
  next auditPath hpath =>
  split at h
  · next blob root hblob hrootBytes =>
      obtain ⟨entries, hentries, hrootHex⟩ := Merkle.merkleRoot_eq_some_iff.mp hroot
      rw [hrootHex, Octets.fromHex_toHex, Option.some.injEq] at hrootBytes
      subst hrootBytes
      have hn := Octets.length_of_mapM hentries
      have hi : i.toNat < entries.length := by omega
      rw [signSign1] at h
      split at h
      · cases h
      next a ha =>
      split at h
      · cases h
      next priv hpriv =>
      split_ifs at h with hkind hnull
      · rw [not_not] at hkind
        refine ⟨entries, a, priv, blob,
          L.cbor2.dumps (.map (o.protectedHeader.set (.int hdrAlg) (.int a.code))), hi, hentries,
          hrange.1, ?_, hpriv, hkind, ?_⟩
        · have hget := congrArg (fun l => l[i.toNat]?) (Octets.mapM_eq_some_iff.mp hentries)
          simpa [hleaf, List.getElem?_eq_getElem hi] using hget
        · rw [← sigStructure_eq, ← L.cbor2.dumps_eq (writable_mintMessage _ _ _)]
          exact (Except.ok.inj h).symm
      · exact absurd rfl hnull
  · cases h

/-! ## Another unsigned header -/

/-- Each kind of key has one algorithm. -/
theorem Alg.kind_injective {a b : Alg} (h : a.kind = b.kind) : a = b := by
  cases a <;> cases b <;> first | rfl | cases h

/-- An accepted receipt that reports a tree size is an RFC 9162 receipt. -/
theorem vdsOf_of_treeSize {receipt : Octets} {leafEntryHex logPublicKeyPem : String} {treeSize : ℤ}
    (hok : (verifyReceipt L receipt leafEntryHex logPublicKeyPem).ok = true)
    (hsize : (verifyReceipt L receipt leafEntryHex logPublicKeyPem).treeSize = some treeSize) :
    vdsOf L receipt = some vdsRfc9162Sha256 := by
  obtain ⟨e, he⟩ := exists_read_of_ok hok
  rw [vdsOf_eq he]
  by_contra h1
  by_cases h2 : e.vds = some vdsCcfLedgerSha256
  · obtain ⟨claim, hleaf⟩ : ∃ claim, Octets.fromHex leafEntryHex = some claim := by
      obtain ⟨-, claim, -, hleaf, -⟩ := exists_ccf_of_ok hok (by rw [vdsOf_eq he, h2])
      exact ⟨claim, hleaf⟩
    have hverdict := congrArg Verdict.treeSize
      (@verdict_of_ccf L _ _ _ logPublicKeyPem _ he hleaf h2)
    rw [show (verifyReceipt L receipt leafEntryHex logPublicKeyPem).verdict.treeSize = some treeSize
      from hsize, ccfVerdict.eq_def] at hverdict
    split at hverdict <;> cases hverdict
  · have hverdict := congrArg Verdict.ok
      (@verdict_of_vds L _ _ leafEntryHex logPublicKeyPem he h1 h2)
    rw [show (verifyReceipt L receipt leafEntryHex logPublicKeyPem).verdict.ok = true from hok]
      at hverdict
    cases hverdict

/-- The parts of a receipt that can be read. -/
theorem signedParts_of_read {receipt : Octets} {e : Envelope}
    (he : Envelope.read receipt = some e) {signature : Octets}
    (hs : e.signature = .bytes signature) :
    signedParts L receipt = some (e.protectedBstr, signature) := by
  obtain ⟨-, hg, rfl, -⟩ := Envelope.read_eq_some_iff.mp he
  rw [signedParts, Cbor2.loads, L.cbor2.decode_encode hg, Envelope.item, hs]
  rfl

/-- The node over the entries `00` and `01`. -/
def mintNode : Octets := Octets.ofNat 32
  0xa20bf9a7cc2dc8a08f5f415a71b19f6ac427bab54d24eec868b5d3103449953a

/-- The receipt of `02`, with a tree size and a leaf index. -/
def mintReceipt (treeSize leafIndex : ℤ) : Octets :=
  encode (mintMessage mintProtected (encode (proofItem treeSize leafIndex [mintNode])) mintSignature)

set_option maxRecDepth 100000 in
/-- The runs over the minted receipt. -/
theorem mint_runs :
    (buildReceipt mintLibraries "02" 2 ["00", "01", "02"] "EdDSA" mintPrivatePem true mintOptions 0).toOption =
        some (mintReceipt 3 2) ∧
      verifyReceipt mintLibraries (mintReceipt 2 1) "02" mintPublicPem =
        { ok := true, root := some (Octets.toHex mintRoot), treeSize := some 2, leafIndex := some 1,
          iat := some 1700000900, issuer := some "log.example",
          protectedHeaderExt := [(.int hdrKid, .bytes [1])] } ∧
      signedParts mintLibraries (mintReceipt 2 1) = signedParts mintLibraries (mintReceipt 3 2) ∧
      (signedParts mintLibraries (mintReceipt 3 2)).isSome = true ∧
      (mintReceipt 3 2).length < 2 ^ 63 := by
  decide +kernel

/-- The receipt of `02` as it is minted. -/
theorem buildReceipt_three :
    buildReceipt mintLibraries "02" 2 ["00", "01", "02"] "EdDSA" mintPrivatePem true mintOptions 0 =
      .ok (mintReceipt 3 2) :=
  Octets.eq_ok_of_toOption mint_runs.1

theorem verifyReceipt_two :
    verifyReceipt mintLibraries (mintReceipt 2 1) "02" mintPublicPem =
      { ok := true, root := some (Octets.toHex mintRoot), treeSize := some 2, leafIndex := some 1,
        iat := some 1700000900, issuer := some "log.example",
        protectedHeaderExt := [(.int hdrKid, .bytes [1])] } :=
  mint_runs.2.1

end ScittCose.Receipt
