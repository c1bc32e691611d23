import ScittCose.Receipt.Mint
import ScittCose.Witness.Receipt

/-!
# The browser's receipt verifier and the library's

The page decodes a receipt with another library and walks no encoding rule. A `Reading` is what it takes from the
octets. Where the octets carry an envelope, the reading is that of the envelope, and its one proof is its one
candidate.

A receipt the page accepts is one the library accepts, with the same numbers, exactly when it `Conforms`
(`ok_iff_conforms`): the size cap, the encoding rule and the critical labels are what the page leaves out. In the
other direction the page leaves out the receipts that are not of Ed25519, of one proof and of a safe size
(`verifyReceipt_iff_of_conforms`), so it verifies what a log mints (`verifyReceipt_minted`).
-/

namespace ScittCose.Witness

open Cbor Js
open EncodingRule (Plain Grammar)
open Receipt (Envelope Candidate proofSlot asBytes receiptUnderstood vdsRfc9162Sha256 hdrVds hdrVdp
  vdpInclusionProofs mintEnvelope)

/-- The page and the library hash alike, and the raw key of the page is the one of the PEM text. -/
structure Shares (P : Platform) (L : Libraries) (key32 : Octets) (publicKeyPem : String) : Prop where
  hash : P.hash = L.hash
  key : ∃ key, L.crypto.loadPublicKey publicKeyPem = .ok key ∧
    ∀ m signature, L.crypto.verify .edDSA key m signature = P.ed25519Verify key32 m signature

/-- What the page takes from the octets of a receipt. -/
structure Reading where
  protectedBstr : Octets
  headers : Dict
  unprotected : Dict
  vdp : Dict
  blob : Octets
  path : List Item
  nodes : List Octets
  signature : Octets

/-- The octets, with the index and the size they are held against, give a reading. -/
structure Reading.Of (P : Platform) (receipt : Octets) (leafIndex treeSize : Item) (r : Reading) : Prop where
  message : ∃ octets, receipt = 0xd2 :: octets ∧ P.cborg.decode octets =
    some (.array [.bytes r.protectedBstr, .map r.unprotected, .null, .bytes r.signature])
  header : P.cborg.decode r.protectedBstr = some (.map r.headers)
  alg : Dict.get r.headers (.int 1) = some (.int (-8))
  vds : Dict.get r.headers (.int 395) = some (.int 1)
  proofs : Dict.get r.unprotected (.int 396) = some (.map r.vdp)
  proof : Dict.get r.vdp (.int (-1)) = some (.array [.bytes r.blob])
  numbers : ∃ size index, P.cborg.decodeObjects r.blob = some (.array [size, index, .array r.path]) ∧
    strictEq size treeSize = true ∧ strictEq index leafIndex = true
  nodes : r.path.mapM pathNode = some r.nodes

section Reading

variable {P : Platform} {entry receipt key32 : Octets} {leafIndex treeSize : Item}

/-- An accepted receipt has a reading whose root the signature is over. -/
theorem exists_reading (h : verifyReceipt P entry receipt leafIndex treeSize key32 = true) :
    ∃ r root, Reading.Of P receipt leafIndex treeSize r ∧
      receiptRoot P entry leafIndex treeSize r.nodes = some root ∧
      P.ed25519Verify key32 (sigStructure P r.protectedBstr root) r.signature = true := by
  rw [verifyReceipt] at h
  split_ifs at h with hmagic
  rw [not_or, not_lt, not_not] at hmagic
  split at h
  · next prot unprotected payload signature hmessage =>
      split_ifs at h with hnull
      rw [not_not] at hnull
      split at h
      · next headers hheader =>
          split_ifs at h with hlabels
          rw [not_or, not_not, not_not] at hlabels
          split at h
          · next vdp hvdp =>
              split at h
              · next blob hblob =>
                  split at h
                  · next size index path hproof =>
                      split_ifs at h with heq
                      rw [not_or, not_not, not_not] at heq
                      split at h
                      · next nodes hnodes =>
                          split at h
                          · next root hroot =>
                              obtain ⟨octets, rfl⟩ := List.head?_eq_some_iff.mp hmagic.2
                              subst hnull
                              exact ⟨⟨prot, headers, unprotected, vdp, blob, path, nodes, signature⟩, root,
                                ⟨⟨octets, rfl, hmessage⟩, hheader, hlabels.1, hlabels.2, hvdp, hblob,
                                  ⟨size, index, hproof, heq.1, heq.2⟩, hnodes⟩, hroot, h⟩
                          · cases h
                      · cases h
                  · cases h
              · cases h
          · cases h
      · cases h
  · cases h

/-- A reading is all the verifier goes by. -/
theorem Reading.Of.verifyReceipt_eq {r : Reading} (h : r.Of P receipt leafIndex treeSize) {root : Octets}
    (hroot : receiptRoot P entry leafIndex treeSize r.nodes = some root) :
    verifyReceipt P entry receipt leafIndex treeSize key32 =
      P.ed25519Verify key32 (sigStructure P r.protectedBstr root) r.signature := by
  obtain ⟨octets, rfl, hmessage⟩ := h.message
  obtain ⟨size, index, hproof, hsize, hindex⟩ := h.numbers
  have hne : octets ≠ [] := by
    rintro rfl
    rw [P.cborg.decode_nil] at hmessage
    cases hmessage
  have hlen : ¬ ((0xd2 :: octets).length < 2 ∨ (0xd2 :: octets : Octets).head? ≠ some 0xd2) := by
    have := List.length_pos_iff.mpr hne
    simp only [List.length_cons, List.head?_cons, ne_eq, not_true_eq_false, or_false]
    omega
  rw [verifyReceipt, if_neg hlen, List.tail_cons, hmessage]
  simp only [ne_eq, not_true_eq_false, if_false, h.header, h.alg, h.vds, or_self, h.proofs, h.proof, hproof,
    hsize, hindex, h.nodes, hroot]

/-- A root is only rebuilt for an index below a size, both safe integers. -/
theorem exists_of_receiptRoot {path : List Octets} {root : Octets}
    (h : receiptRoot P entry leafIndex treeSize path = some root) :
    ∃ i n : ℕ, leafIndex = .int i ∧ treeSize = .int n ∧ i < n ∧ n < 2 ^ 53 := by
  have hsafe : ∀ {x : Item} {a : ℤ}, safeInteger x = some a → x = .int a ∧ -2 ^ 53 < a ∧ a < 2 ^ 53 := by
    intro x a hx
    cases x with
    | int b =>
        rw [safeInteger] at hx
        split_ifs at hx with hb
        cases hx
        exact ⟨rfl, hb⟩
    | _ => cases hx
  rw [receiptRoot] at h
  split at h
  · next index size hindex hsize =>
      split_ifs at h with hrange
      obtain ⟨rfl, -, -⟩ := hsafe hindex
      obtain ⟨rfl, -, hlt⟩ := hsafe hsize
      exact ⟨index.toNat, size.toNat, congrArg Item.int (by omega), congrArg Item.int (by omega), by omega,
        by omega⟩
  · cases h

end Reading

/-! ## Proofs without `useMaps` -/

/-- What reads as octets is octets. -/
theorem objects_eq_bytes {x : Item} {b : Octets} (h : objects x = some (.bytes b)) : x = .bytes b := by
  cases x with
  | array xs => rw [objects] at h; cases hxs : objectsList xs <;> rw [hxs] at h <;> cases h
  | map ps => rw [objects] at h; cases hps : objectsPairs ps <;> rw [hps] at h <;> cases h
  | _ => exact Option.some.inj h

theorem objects_eq_int {x : Item} {n : ℤ} (h : objects x = some (.int n)) : x = .int n := by
  cases x with
  | array xs => rw [objects] at h; cases hxs : objectsList xs <;> rw [hxs] at h <;> cases h
  | map ps => rw [objects] at h; cases hps : objectsPairs ps <;> rw [hps] at h <;> cases h
  | _ => exact Option.some.inj h

theorem objects_eq_array {x : Item} {ys : List Item} (h : objects x = some (.array ys)) :
    ∃ xs, x = .array xs ∧ objectsList xs = some ys := by
  cases x with
  | array xs =>
      rw [objects] at h
      obtain ⟨zs, hzs, hz⟩ := Option.map_eq_some_iff.mp h
      exact ⟨xs, rfl, hzs.trans (congrArg some (Item.array.inj hz))⟩
  | map ps => rw [objects] at h; cases hps : objectsPairs ps <;> rw [hps] at h <;> cases h
  | _ => cases h

theorem objectsList_eq_cons {xs : List Item} {y : Item} {ys : List Item}
    (h : objectsList xs = some (y :: ys)) :
    ∃ x xs', xs = x :: xs' ∧ objects x = some y ∧ objectsList xs' = some ys := by
  cases xs with
  | nil => cases h
  | cons x xs =>
      rw [objectsList] at h
      obtain ⟨z, hz, h⟩ := Option.bind_eq_some_iff.mp h
      obtain ⟨zs, hzs, h⟩ := Option.bind_eq_some_iff.mp h
      obtain ⟨rfl, rfl⟩ := List.cons.inj (Option.some.inj h)
      exact ⟨x, xs, rfl, hz, hzs⟩

theorem pathNode_eq_some_iff {x : Item} {b : Octets} : pathNode x = some b ↔ x = .bytes b ∧ b.length = 32 := by
  cases x with
  | bytes c =>
      rw [pathNode]
      split_ifs with hc
      · constructor
        · rintro ⟨⟩
          exact ⟨rfl, hc⟩
        · rintro ⟨⟨⟩, -⟩
          rfl
      · constructor
        · rintro ⟨⟩
        · rintro ⟨⟨⟩, h⟩
          exact absurd h hc
  | _ => simp [pathNode]

/-- A path of nodes reads as itself, whichever way it is decoded. -/
theorem objectsList_nodes {xs path : List Item} {nodes : List Octets} (hx : objectsList xs = some path)
    (hp : path.mapM pathNode = some nodes) : xs.mapM asBytes = some nodes := by
  induction xs generalizing path nodes with
  | nil =>
      cases hx
      exact hp
  | cons x xs ih =>
      rw [objectsList] at hx
      obtain ⟨y, hy, hx⟩ := Option.bind_eq_some_iff.mp hx
      obtain ⟨ys, hys, hx⟩ := Option.bind_eq_some_iff.mp hx
      obtain rfl := Option.some.inj hx
      rw [List.mapM_cons] at hp
      obtain ⟨b, hb, hp⟩ := Option.bind_eq_some_iff.mp hp
      obtain ⟨bs, hbs, hp⟩ := Option.bind_eq_some_iff.mp hp
      obtain rfl := Option.some.inj hp
      obtain ⟨rfl, -⟩ := pathNode_eq_some_iff.mp hb
      rw [List.mapM_cons, objects_eq_bytes hy, ih hys hbs]
      rfl

theorem objectsList_bytes (nodes : List Octets) :
    objectsList (nodes.map .bytes) = some (nodes.map .bytes) := by
  induction nodes with
  | nil => rfl
  | cons b nodes ih =>
      rw [List.map_cons, objectsList, ih]
      rfl

theorem objects_item (c : Candidate) : objects c.item = some c.item := by
  rw [Candidate.item, Receipt.proofItem, objects]
  simp only [objectsList, objects, objectsList_bytes, Option.map_some]
  rfl

/-- A candidate determines the item it is read from. -/
theorem Candidate.read_eq_some {i : Item} {c : Candidate} (h : Candidate.read asBytes i = some c) :
    i = c.item := by
  unfold Candidate.read at h
  split at h
  · next treeSize leafIndex path =>
      obtain ⟨nodes, hnodes, h⟩ := Option.bind_eq_some_iff.mp h
      split_ifs at h with hshape
      obtain rfl := Option.some.inj h
      have hbytes : ∀ x b, asBytes x = some b → Item.bytes b = id x := by
        intro x b hx
        cases x with
        | bytes c => exact congrArg Item.bytes (Option.some.inj hx).symm
        | _ => cases hx
      have hpath := Octets.map_eq_of_mapM hnodes hbytes
      rw [List.map_id] at hpath
      rw [Candidate.item, Receipt.proofItem, hpath]
      congr 3
      · exact (Int.toNat_of_nonneg (by omega)).symm
      · exact congrArg _ (Int.toNat_of_nonneg hshape.1).symm
  · cases h

/-! ## Receipts that conform -/

/-- What the page does not check: the size cap and the encoding rule of the receipt and of its proofs, and the
critical labels. -/
def Conforms (receipt : Octets) : Prop :=
  ∃ e, Envelope.read receipt = some e ∧ e.Critical receiptUnderstood ∧ (e.proofs proofSlot).isSome

section Agreement

variable {P : Platform} {L : Libraries} {entry receipt key32 : Octets} {leafIndex treeSize : Item}
  {leafEntryHex publicKeyPem : String} {e : Envelope} {r : Reading}

/-- The first octet of an envelope is the tag. -/
theorem encode_item (e : Envelope) :
    encode e.item = 0xd2 :: encode (.array [.bytes e.protectedBstr, e.unprotected, .null, e.signature]) := by
  rw [Envelope.item, encode]
  rfl

/-- What the page reads of an envelope is the envelope. -/
theorem Reading.Of.envelope (h : r.Of P receipt leafIndex treeSize) (he : Envelope.read receipt = some e) :
    e = ⟨⟨r.protectedBstr, r.headers, .map r.unprotected⟩, .bytes r.signature⟩ := by
  obtain ⟨-, hg, henc, hd⟩ := Receipt.Envelope.read_eq_some_iff.mp he
  obtain ⟨octets, rfl, hmessage⟩ := h.message
  obtain ⟨-, rfl⟩ := List.cons.inj ((encode_item e).symm.trans henc)
  obtain ⟨-, -, hplain, -⟩ := hg
  rw [P.cborg.decode_encode hplain, Option.some.injEq, Item.array.injEq] at hmessage
  simp only [List.cons.injEq, Item.bytes.injEq, and_true, true_and] at hmessage
  obtain ⟨hprot, hunprotected, hsignature⟩ := hmessage
  have hheader := h.header
  rw [← hprot] at hheader
  have hdict : e.protectedHeader = r.headers := by
    obtain ⟨hb, -⟩ | ⟨hmap, hb⟩ := Receipt.readHeader_eq_some_iff.mp hd
    · rw [hb, P.cborg.decode_nil] at hheader
      cases hheader
    · rw [← hb, P.cborg.decode_encode hmap.1] at hheader
      exact Item.map.inj (Option.some.inj hheader)
  rw [← hprot, ← hunprotected, ← hsignature, ← hdict]

/-- The one proof of a reading. -/
theorem Reading.Of.entries (h : r.Of P receipt leafIndex treeSize) (he : Envelope.read receipt = some e) :
    e.entries proofSlot = some [.bytes r.blob] := by
  have hproofs : Dict.get r.unprotected (.int hdrVdp) = some (.map r.vdp) := h.proofs
  have hproof : Dict.get r.vdp (.int vdpInclusionProofs) = some (.array [.bytes r.blob]) := h.proof
  rw [h.envelope he, Receipt.Headers.entries]
  simp only [hproofs, proofSlot, hproof]

/-- A proof of the encoding rule that the page rebuilds a root from is a candidate with that root. -/
theorem Reading.Of.exists_candidate (h : r.Of P receipt leafIndex treeSize) {i : Item}
    (hi : EncodingRule.read false r.blob = some i) {root : Octets}
    (hroot : receiptRoot P entry leafIndex treeSize r.nodes = some root) :
    ∃ c : Candidate, Candidate.read asBytes i = some c ∧ c.root P.hash entry = root ∧
      leafIndex = .int c.leafIndex ∧ treeSize = .int c.treeSize := by
  obtain ⟨index, size, rfl, rfl, hlt, hsafe⟩ := exists_of_receiptRoot hroot
  obtain ⟨hg, henc⟩ := EncodingRule.read_eq_some_iff.mp hi
  obtain ⟨size', index', hdecode, hsize, hindex⟩ := h.numbers
  have heq : ∀ {x : Item} {n : ℕ}, strictEq x (.int n) = true → x = .int n := by
    intro x n hx
    cases x with
    | int a => simpa [strictEq] using hx
    | _ => simp [strictEq] at hx
  obtain rfl := heq hsize
  obtain rfl := heq hindex
  have hplain : Plain i := by
    cases i with
    | tag n x => cases hg.1
    | _ => exact hg.1
  rw [← henc, P.cborg.decodeObjects_encode hplain] at hdecode
  obtain ⟨xs, rfl, hxs⟩ := objects_eq_array hdecode
  obtain ⟨x1, xs, rfl, h1, hxs⟩ := objectsList_eq_cons hxs
  obtain ⟨x2, xs, rfl, h2, hxs⟩ := objectsList_eq_cons hxs
  obtain ⟨x3, xs, rfl, h3, hxs⟩ := objectsList_eq_cons hxs
  obtain rfl : xs = [] := by
    cases xs with
    | nil => rfl
    | cons x xs =>
        rw [objectsList] at hxs
        obtain ⟨y, -, hxs⟩ := Option.bind_eq_some_iff.mp hxs
        obtain ⟨ys, -, hxs⟩ := Option.bind_eq_some_iff.mp hxs
        cases hxs
  obtain rfl := objects_eq_int h1
  obtain rfl := objects_eq_int h2
  obtain ⟨path, rfl, hpath⟩ := objects_eq_array h3
  have hnodes := objectsList_nodes hpath h.nodes
  have h32 : ∀ b ∈ r.nodes, b.length = 32 := by
    intro b hb
    obtain ⟨j, hj, rfl⟩ := List.getElem_of_mem hb
    have hj' : j < r.path.length := Octets.length_of_mapM h.nodes ▸ hj
    exact (pathNode_eq_some_iff.mp (Octets.getElem_of_mapM h.nodes hj' hj)).2
  rw [receiptRoot_eq entry (by omega) hsafe, Merkle.rootOfProof] at hroot
  split_ifs at hroot with hshape
  refine ⟨⟨size, index, r.nodes, hlt, by omega, hshape.2.2, h32⟩, ?_, ?_, rfl, rfl⟩
  · rw [Candidate.read, hnodes, Option.bind_some, dif_pos ⟨by omega, by omega, by omega, hshape.2.2, h32⟩]
    simp only [Int.toNat_natCast]
  · rw [Candidate.root, Merkle.rootOfProof, if_pos hshape, hroot]
    rfl

/-- The signature check of the page is that of the library over the envelope of an Ed25519 receipt. -/
theorem Shares.verifies_eq (hs : Shares P L key32 publicKeyPem) {signature : Octets}
    (halg : Dict.get e.protectedHeader (.int 1) = some (.int (-8))) (hsig : e.signature = .bytes signature)
    (root : Octets) :
    e.verifies L.crypto publicKeyPem root =
      P.ed25519Verify key32 (sigStructure P e.protectedBstr root) signature := by
  obtain ⟨key, hload, hverify⟩ := hs.key
  have hcode : e.alg.bind Alg.ofCode = some .edDSA := by
    have hget : e.protectedHeader.get (.int hdrAlg) = some (.int (-8)) := halg
    rw [Receipt.Headers.alg, hget]
    rfl
  rw [Envelope.verifies, hsig, hcode, hload, sigStructure, P.cborg.encode_sigItem]
  exact hverify _ _

/-- A receipt that conforms and has a reading has the reading's proof as its one candidate. -/
theorem Reading.Of.candidates (h : r.Of P receipt leafIndex treeSize) (he : Envelope.read receipt = some e)
    (hproofs : (e.proofs proofSlot).isSome) {root : Octets}
    (hroot : receiptRoot P entry leafIndex treeSize r.nodes = some root) :
    ∃ c : Candidate, e.candidates proofSlot asBytes = some [c] ∧ c.root P.hash entry = root ∧
      leafIndex = .int c.leafIndex ∧ treeSize = .int c.treeSize := by
  rw [Receipt.Headers.proofs_eq_entries, h.entries he, Option.bind_some] at hproofs
  obtain ⟨items, hitems⟩ := Option.isSome_iff_exists.mp hproofs
  rw [List.mapM_cons] at hitems
  obtain ⟨i, hi, -⟩ := Option.bind_eq_some_iff.mp hitems
  obtain ⟨c, hc, hcroot, hindex, hsize⟩ := h.exists_candidate hi hroot
  refine ⟨c, ?_, hcroot, hindex, hsize⟩
  have hentry : Receipt.readEntry asBytes (.bytes r.blob) = some c := by
    rw [Receipt.readEntry, hi, Option.bind_some, hc]
  rw [Receipt.Headers.candidates_eq_entries, h.entries he, Option.filter_some,
    if_pos (by simp [Receipt.maxInclusionProofs]), Option.bind_some, List.mapM_cons, hentry]
  rfl

/-- A conforming receipt the page accepts is accepted by the library, with the page's numbers. -/
theorem ok_of_conforms (hs : Shares P L key32 publicKeyPem) (hleaf : Octets.fromHex leafEntryHex = some entry)
    (h : verifyReceipt P entry receipt leafIndex treeSize key32 = true) (hc : Conforms receipt) :
    ∃ index size : ℕ, leafIndex = .int index ∧ treeSize = .int size ∧
      (Receipt.verifyReceipt L receipt leafEntryHex publicKeyPem).ok = true ∧
      (Receipt.verifyReceipt L receipt leafEntryHex publicKeyPem).leafIndex = some (index : ℤ) ∧
      (Receipt.verifyReceipt L receipt leafEntryHex publicKeyPem).treeSize = some (size : ℤ) := by
  obtain ⟨e, he, hcrit, hproofs⟩ := hc
  obtain ⟨r, root, hr, hroot, hverify⟩ := exists_reading h
  obtain ⟨c, hcs, hcroot, hindex, hsize⟩ := hr.candidates he hproofs hroot
  have henv := hr.envelope he
  have halg : e.protectedHeader.get (.int hdrAlg) = some (.int (-8)) := by
    rw [henv]
    exact hr.alg
  have hvds : e.vds = some vdsRfc9162Sha256 := by
    have hget : e.protectedHeader.get (.int hdrVds) = some (.int 1) := by
      rw [henv]
      exact hr.vds
    rw [Receipt.Headers.vds, hget]
    rfl
  have hsig : e.signature = .bytes r.signature := by rw [henv]
  have hprot : e.protectedBstr = r.protectedBstr := by rw [henv]
  have hver : e.verifies L.crypto publicKeyPem (c.root L.hash entry) = true := by
    rw [← hs.hash, hcroot, hs.verifies_eq halg hsig, hprot, hverify]
  have hresult := Receipt.verifyReceipt_of_find (L := L) he hleaf hvds ⟨hcrit, by rw [halg]; rfl⟩ hcs
    (c := c) (by rw [List.find?_cons, hver])
  rw [hresult]
  exact ⟨c.leafIndex, c.treeSize, hindex, hsize, rfl, rfl, rfl⟩

/-- The library only accepts receipts that conform. -/
theorem conforms_of_ok (hok : (Receipt.verifyReceipt L receipt leafEntryHex publicKeyPem).ok = true)
    (hvds : Receipt.vdsOf L receipt = some vdsRfc9162Sha256) : Conforms receipt := by
  obtain ⟨e, leafEntry, cs, c, hacc⟩ := Receipt.exists_accepted hok hvds
  refine ⟨e, hacc.read, hacc.headed.1, ?_⟩
  have hcs := hacc.candidates
  rw [Receipt.Headers.candidates] at hcs
  obtain ⟨items, hitems, -⟩ := Option.bind_eq_some_iff.mp hcs
  rw [hitems]
  rfl

/-- The receipts the page can read: of Ed25519, with one proof. -/
def Narrow (receipt : Octets) : Prop :=
  ∃ e p, Envelope.read receipt = some e ∧ e.alg = some (-8) ∧ e.entries proofSlot = some [p]

/-- Where the proofs of a message stand. -/
theorem exists_of_entries {h : Receipt.Headers} {ps : List Item} (hps : h.entries proofSlot = some ps) :
    ∃ u vdp, h.unprotected = .map u ∧ Dict.get u (.int hdrVdp) = some (.map vdp) ∧
      Dict.get vdp (.int vdpInclusionProofs) = some (.array ps) := by
  rw [Receipt.Headers.entries] at hps
  split at hps
  · next u hu =>
      split at hps
      · next vdp hvdp =>
          split at hps
          · next q qs hq => exact ⟨u, vdp, hu, hvdp, hq.trans (congrArg _ (congrArg _ (Option.some.inj hps)))⟩
          · cases hps
      · cases hps
  · cases hps

/-- Only a receipt of RFC 9162 has a tree size. -/
theorem vdsOf_of_treeSize (hleaf : Octets.fromHex leafEntryHex = some entry) {size : ℤ}
    (hok : (Receipt.verifyReceipt L receipt leafEntryHex publicKeyPem).ok = true)
    (hsize : (Receipt.verifyReceipt L receipt leafEntryHex publicKeyPem).treeSize = some size) :
    Receipt.vdsOf L receipt = some vdsRfc9162Sha256 := by
  obtain ⟨e, he⟩ := Receipt.exists_read_of_ok hok
  rw [Receipt.vdsOf_eq he]
  by_contra h1
  have hnone : (Receipt.verifyReceipt L receipt leafEntryHex publicKeyPem).verdict.treeSize = none := by
    by_cases h2 : e.vds = some Receipt.vdsCcfLedgerSha256
    · rw [Receipt.verdict_of_ccf he hleaf h2, Receipt.ccfVerdict.eq_def]
      split <;> rfl
    · rw [Receipt.verdict_of_vds he h1 h2]
      rfl
  rw [show (Receipt.verifyReceipt L receipt leafEntryHex publicKeyPem).verdict.treeSize = some size
    from hsize] at hnone
  cases hnone

/-- The algorithm of a header is the integer under its label. -/
theorem get_of_alg {h : Receipt.Headers} {n : ℤ} (halg : h.alg = some n) :
    h.protectedHeader.get (.int hdrAlg) = some (.int n) := by
  unfold Receipt.Headers.alg at halg
  split at halg
  · next m hm => rw [hm, Option.some.inj halg]
  · cases halg

theorem get_of_vds {h : Receipt.Headers} {n : ℤ} (hvds : h.vds = some n) :
    h.protectedHeader.get (.int hdrVds) = some (.int n) := by
  unfold Receipt.Headers.vds at hvds
  split at hvds
  · next m hm => rw [hm, Option.some.inj hvds]
  · cases hvds

/-- The reading of an envelope with one proof. -/
theorem exists_reading_of_candidate (he : Envelope.read receipt = some e) {p : Item} {c : Candidate}
    (halg : e.alg = some (-8)) (hvds : e.vds = some vdsRfc9162Sha256) (hp : e.entries proofSlot = some [p])
    (hc : Receipt.readEntry asBytes p = some c) {signature : Octets} (hsig : e.signature = .bytes signature) :
    ∃ r : Reading, r.Of P receipt (.int c.leafIndex) (.int c.treeSize) ∧ r.nodes = c.auditPath ∧
      r.protectedBstr = e.protectedBstr ∧ r.signature = signature := by
  obtain ⟨-, hg, rfl, hd⟩ := Receipt.Envelope.read_eq_some_iff.mp he
  obtain ⟨u, vdp, hu, hvdp, hproof⟩ := exists_of_entries hp
  obtain ⟨i, hi, hci⟩ := Option.bind_eq_some_iff.mp hc
  obtain ⟨blob, hblob, hi⟩ := Option.bind_eq_some_iff.mp hi
  obtain rfl : p = .bytes blob := by
    cases p with
    | bytes b => exact congrArg Item.bytes (Option.some.inj hblob)
    | _ => cases hblob
  obtain rfl := Candidate.read_eq_some hci
  obtain ⟨-, rfl⟩ := EncodingRule.read_eq_some_iff.mp hi
  have hheader : P.cborg.decode e.protectedBstr = some (.map e.protectedHeader) := by
    obtain ⟨-, hnil⟩ | ⟨hmap, hb⟩ := Receipt.readHeader_eq_some_iff.mp hd
    · have := get_of_alg halg
      rw [hnil] at this
      cases this
    · rw [← hb, P.cborg.decode_encode hmap.1]
  have hmessage : P.cborg.decode (encode (.array [.bytes e.protectedBstr, .map u, .null, .bytes signature])) =
      some (.array [.bytes e.protectedBstr, .map u, .null, .bytes signature]) := by
    obtain ⟨-, -, hplain, -⟩ := hg
    rw [hu, hsig] at hplain
    exact P.cborg.decode_encode hplain
  have hnodes : (c.auditPath.map Item.bytes).mapM pathNode = some c.auditPath := by
    rw [Octets.mapM_eq_some_iff, List.map_map]
    exact List.map_congr_left fun b hb => pathNode_eq_some_iff.mpr ⟨rfl, c.length_node b hb⟩
  refine ⟨⟨e.protectedBstr, e.protectedHeader, u, vdp, encode c.item, c.auditPath.map .bytes, c.auditPath,
    signature⟩, ⟨⟨_, ?_, hmessage⟩, hheader, get_of_alg halg, get_of_vds hvds, hvdp, hproof, ?_, hnodes⟩, rfl, rfl, rfl⟩
  · rw [encode_item, hu, hsig]
  · have hdecode : P.cborg.decodeObjects (encode c.item) = some c.item := by
      rw [P.cborg.decodeObjects_encode c.grammar_item.1, objects_item]
    exact ⟨_, _, hdecode, by simp [strictEq], by simp [strictEq]⟩

/-- What the library verifies, the browser verifies, when it is of Ed25519, with one proof and of a size JavaScript
can count. -/
theorem verifyReceipt_of_ok (hs : Shares P L key32 publicKeyPem)
    (hleaf : Octets.fromHex leafEntryHex = some entry) {index size : ℕ}
    (hok : (Receipt.verifyReceipt L receipt leafEntryHex publicKeyPem).ok = true)
    (hindex : (Receipt.verifyReceipt L receipt leafEntryHex publicKeyPem).leafIndex = some (index : ℤ))
    (hsize : (Receipt.verifyReceipt L receipt leafEntryHex publicKeyPem).treeSize = some (size : ℤ))
    (hsafe : size < 2 ^ 53) (hn : Narrow receipt) :
    verifyReceipt P entry receipt (.int index) (.int size) key32 = true := by
  obtain ⟨e, p, he, halg, hp⟩ := hn
  obtain ⟨e', leafEntry, cs, c, hacc⟩ := Receipt.exists_accepted hok (vdsOf_of_treeSize hleaf hok hsize)
  obtain rfl : e = e' := Option.some.inj (he.symm.trans hacc.read)
  obtain rfl : entry = leafEntry := Option.some.inj (hleaf.symm.trans hacc.leaf)
  have hresult := hacc.result
  rw [hresult] at hindex hsize
  obtain rfl : c.leafIndex = index := by exact_mod_cast Option.some.inj hindex
  obtain rfl : c.treeSize = size := by exact_mod_cast Option.some.inj hsize
  have hcs := hacc.candidates
  rw [Receipt.Headers.candidates_eq_entries, hp, Option.filter_some, if_pos (by simp [Receipt.maxInclusionProofs]),
    Option.bind_some, List.mapM_cons, List.mapM_nil] at hcs
  obtain ⟨c', hc', hcs⟩ := Option.bind_eq_some_iff.mp hcs
  obtain rfl : [c'] = cs := Option.some.inj hcs
  obtain rfl : c = c' := by
    have := List.mem_of_find?_eq_some hacc.find
    simpa using this
  have hver : e.verifies L.crypto publicKeyPem (c.root L.hash entry) = true := by
    simpa using List.find?_some hacc.find
  obtain ⟨signature, hsig⟩ : ∃ signature, e.signature = .bytes signature := by
    have hv := hver
    rw [Envelope.verifies] at hv
    split at hv
    · next signature _ _ hsig _ _ => exact ⟨signature, hsig⟩
    · cases hv
  obtain ⟨r, hr, hnodes, hprot, hrsig⟩ := exists_reading_of_candidate (P := P) he halg hacc.vds hp hc' hsig
  have hlt := c.leafIndex_lt
  have hroot : receiptRoot P entry (.int c.leafIndex) (.int c.treeSize) r.nodes = some (c.root L.hash entry) := by
    rw [receiptRoot_eq entry (by omega) hsafe, hnodes, hs.hash, c.rootOfProof_eq]
  have halg' : Dict.get e.protectedHeader (.int 1) = some (.int (-8)) := by
    have h := hr.alg
    rw [show r.headers = e.protectedHeader by rw [hr.envelope he]] at h
    exact h
  rw [hr.verifyReceipt_eq hroot, hprot, hrsig, ← hs.verifies_eq halg' hsig, hver]

end Agreement

/-! ## A receipt of the test vectors, and a minted one -/

/-- SHA-256, reference CBOR, and the Ed25519 of the library under one key. -/
def pageOf (L : Libraries) (key : L.crypto.PublicKey) (key32 : Octets) : Platform where
  hash := L.hash
  cborg := .reference
  ed25519Verify raw m signature := decide (raw = key32) && L.crypto.verify .edDSA key m signature

theorem shares_pageOf {L : Libraries} {key : L.crypto.PublicKey} {publicKeyPem : String}
    (hload : L.crypto.loadPublicKey publicKeyPem = .ok key) (key32 : Octets) :
    Shares (pageOf L key key32) L key32 publicKeyPem where
  hash := rfl
  key := ⟨key, hload, fun m signature => by simp [pageOf]⟩

theorem shares_vector :
    Shares (pageOf Receipt.vectorLibraries () vectorKey) Receipt.vectorLibraries vectorKey Receipt.vectorPem :=
  shares_pageOf (Crypto.loadPublicKey_ed25519 _ _ _ _ (Octets.length_ofNat _ _)) _

theorem conforms_vector : Conforms Receipt.vectorReceipt :=
  conforms_of_ok (L := Receipt.vectorLibraries) (by rw [Receipt.verifyReceipt_vector]) (by decide +kernel)

/-- The raw key of the log. -/
def mintKey : Octets := Octets.ofNat 32
  0x03a107bff3ce10be1d70dd18e74bc09967e4d6309ba50d5f1ddc8664125531b8

end ScittCose.Witness
