import ScittCose.EncodingRule.Agreement
import ScittCose.Receipt.Verdict

/-!
# The Go verifier (`scitt-cose-go-verify/main.go`)

`verifyReceipt` in parts that refuse with the text of the error: the four raw items of the message, the
headers, the proofs. In an `any` a non-negative integer is a `uint64` and a negative one an `int64`, so a
lookup tries a label as both (`mapGet`), and a node is read into a `[]byte`, which an array of small
integers fills too (`goBytes`).

`verdict_of_rfc9162` and `verdict_of_ccf` say what the verifier returns for the envelope of a receipt,
through these two readings.
-/

namespace ScittCose.Receipt.Go

open Cbor Checked
open EncodingRule (Plain Grammar majorOf)
open Merkle (rootOfProof)

/-! ## Constants -/

/-- `maxReceiptOctets` -/
def maxReceiptOctets : ℕ := 10 * 1024 * 1024

/-- `hdrKID` -/
def hdrKid : ℤ := 4

/-- `receiptOut`; a field that is not set has Go's zero value. -/
structure ReceiptOut where
  ok : Bool := false
  root : String := ""
  treeSize : ℤ := 0
  leafIndex : ℤ := 0
  error : String := ""
  failedAt : Option FailedAt := none
deriving DecidableEq

/-- What the other verifiers report too: an empty root and a size of 0 are none. -/
def ReceiptOut.verdict (r : ReceiptOut) : Verdict :=
  ⟨r.ok, r.failedAt, if r.root = "" then none else some r.root,
    if r.treeSize = 0 then none else some r.treeSize,
    if r.treeSize = 0 then none else some r.leafIndex⟩

/-- The raw items of a message that are read later, with the decoded octets. -/
structure Message where
  protBytes : Octets
  signature : Octets
  rawUnprotected : Octets
  prot : Dict

/-- What is known of a receipt when its proofs are decoded. -/
structure Input where
  message : Message
  vds : ℤ
  algCode : ℤ
  blobs : List Octets

section Source

/-! ## Maps -/

/-- `mapGet`: the label as an `int64` and as a `uint64`. No key is decoded as an `int`. -/
def mapGet (m : Dict) (label : ℤ) : Option Item :=
  (if label < 0 then m.get (.int label) else none).or (m.get (.int (label % 2 ^ 64)))

/-- `intAt` -/
def intAt (m : Dict) (label : ℤ) : Option ℤ :=
  match mapGet m label with
  | some (.int n) => if -2 ^ 63 ≤ n ∧ n < 2 ^ 63 then some n else none
  | _ => none

/-- The labels `checkCrit` understands. -/
def understoodLabels (vds : ℤ) : List Item :=
  [.int hdrAlg, .int hdrCrit, .int hdrCwtClaims, .int hdrVds] ++
    if vds = vdsCcfLedgerSha256 then [.int hdrKid, .text "ccf.v1"] else []

/-- A critical label as a key of the understood labels, and whether the header carries it. A `uint64`
above `int64` is above every understood label. -/
def critKey (prot : Dict) : Item → Option (Item × Bool)
  | .int n =>
    if n < 0 then some (.int n, (mapGet prot n).isSome)
    else some (.int (if n < 2 ^ 63 then n else -1), (prot.get (.int n)).isSome)
  | .text s => some (.text s, (prot.get (.text s)).isSome)
  | _ => none

/-- The loop of `checkCrit` over the labels. -/
def checkCritLabels (prot : Dict) (vds : ℤ) : List Item → Checked Unit
  | [] => .ok ()
  | label :: labels => do
    let (key, present) ← okOr (critKey prot label)
      "crit lists a label that is not an integer or a text string"
    if present = false then
      .error (.refused "crit lists a header absent from the protected header")
    else if key ∉ understoodLabels vds then
      .error (.refused "crit marks a header this verifier does not understand (RFC 9052 §3.1)")
    else checkCritLabels prot vds labels

/-- `checkCrit` -/
def checkCrit (prot : Dict) (vds : ℤ) : Checked Unit :=
  match mapGet prot hdrCrit with
  | none => .ok ()
  | some crit =>
    match asArray crit with
    | some (label :: labels) => checkCritLabels prot vds (label :: labels)
    | _ => .error (.refused "crit (label 2) must be a non-empty array (RFC 9052 §3.1)")

variable (L : Libraries)

/-- `receiptMap`; `none` is a nil map. -/
def receiptMap (raw : Octets) : Option Dict :=
  if raw = [] then none
  else
    match L.fxamacker.anyMap raw with
    | .ok m => m
    | .error _ => none

/-- `checkEncoding`, and the error when it refuses. -/
def checkEncoding (octets : Octets) (what : String) (outerTag : Bool) : Checked Unit := do
  let slice ← toSlice octets
  explain "receipt rejected: " (EncodingRule.Go.checkEncoding slice what outerTag)

/-- `raw[0] >> 5`, when there is an octet. -/
def firstMajor (raw : Octets) : Option ℕ := raw.head?.map fun x => x.toNat / 32

/-! ## The message -/

/-- The four items of the message. -/
def readItems (data : Octets) : Checked (List Octets) :=
  match L.fxamacker.rawTag data with
  | .ok (18, content) =>
    match L.fxamacker.rawMessages content with
    | .ok items =>
      if items.length = 4 then .ok items
      else .error (.refused "decode receipt COSE_Sign1: not a tag-18 array of four items")
    | .error _ => .error (.refused "decode receipt COSE_Sign1: not a tag-18 array of four items")
  | _ => .error (.refused "decode receipt COSE_Sign1: not a tag-18 array of four items")

/-- A byte string among the items, read into a `[]byte`. -/
def readBytes (raw : Octets) (message : String) : Checked Octets := do
  let major ← unwrap (firstMajor raw)
  if major ≠ 2 then .error (.refused message)
  else okOr (L.fxamacker.bytes raw).toOption message

/-- `verifyReceipt`, up to the decoded protected header. -/
def readMessage (data : Octets) : Checked Message := do
  let items ← readItems L data
  let item0 ← unwrap items[0]?
  let item1 ← unwrap items[1]?
  let item2 ← unwrap items[2]?
  let item3 ← unwrap items[3]?
  if item2 ≠ [0xf6] then
    .error (.refused "receipt payload is attached; a receipt's payload must be detached")
  else do
    checkEncoding data "the receipt" true
    let protBytes ← readBytes L item0 "receipt protected header is not a byte string"
    let signature ← readBytes L item3 "receipt signature is not a byte string"
    let major ← unwrap (firstMajor item1)
    if major ≠ 5 then .error (.refused "receipt unprotected header is not a map")
    else if protBytes = [] then .ok { protBytes, signature, rawUnprotected := item1, prot := [] }
    else do
      checkEncoding protBytes "the protected header" false
      let prot ← okOr (receiptMap L protBytes) "receipt protected header is not a map"
      .ok { protBytes, signature, rawUnprotected := item1, prot }

/-- The entries of the inclusion-proofs array. -/
def readEntries (rawUnprotected : Octets) : Checked (List Item) := do
  -- a nil map is read like an empty one
  let unprot := (receiptMap L rawUnprotected).getD []
  let vdp ← okOr (mapGet unprot hdrVdp) "unprotected vdp (label 396) missing"
  let vdp ← okOr (asMap vdp) "unprotected vdp (label 396) is not a map"
  let proofs ← okOr (mapGet vdp vdpInclusionProofs) "vdp has no inclusion proofs (key -1)"
  okOr ((asArray proofs).filter fun p => p ≠ []) "vdp inclusion proofs is not a non-empty array"

/-- An entry of the inclusion-proofs array, whichever structure reads it. -/
def checkEntry (entry : Item) : Checked Octets := do
  let blob ← okOr (asBytes entry) "inclusion proof entry is not a bstr"
  checkEncoding blob "an inclusion proof" false
  .ok blob

/-! ## Proofs -/

/-- An unsigned integer of an inclusion proof, read into an `int64`. -/
def proofNumber (raw : Octets) (what : String) : Checked ℤ :=
  match L.fxamacker.int64 raw with
  | .ok n => .ok n
  | .error e => .error (.refused s!"inclusion proof {what} not an int: {e}")

/-- `decodeInclusionProof` -/
def decodeInclusionProof (blob : Octets) : Checked (ℤ × ℤ × List Octets) := do
  let arr ← okOr ((L.fxamacker.rawMessages blob).toOption.filter fun arr => arr.length = 3)
    "inclusion proof must be [tree_size, leaf_index, [path]]"
  let raw0 ← unwrap arr[0]?
  let raw1 ← unwrap arr[1]?
  let raw2 ← unwrap arr[2]?
  if firstMajor raw0 ≠ some 0 ∨ firstMajor raw1 ≠ some 0 then
    .error (.refused "inclusion proof tree_size and leaf_index must be unsigned integers")
  else if firstMajor raw2 ≠ some 4 then
    .error (.refused "inclusion proof path must be an array")
  else do
    let treeSize ← proofNumber L raw0 "tree_size"
    let leafIndex ← proofNumber L raw1 "leaf_index"
    match L.fxamacker.byteSlices raw2 with
    | .error e => .error (.refused s!"inclusion proof path not an array of bstr: {e}")
    | .ok path =>
      if treeSize ≤ 0 ∨ leafIndex < 0 ∨ treeSize ≤ leafIndex ∨ Merkle.Go.maxTreeSize < treeSize then
        .error (.refused "invalid tree size or leaf index")
      else do
        let expected ← Merkle.Go.expectedInclusionPathLen treeSize leafIndex
        if (path.length : ℤ) ≠ expected then
          .error (.refused "invalid inclusion proof path length")
        else if path.any fun node => node.length ≠ 32 then
          .error (.refused "inclusion proof path node must be 32 bytes")
        else .ok (treeSize, leafIndex, path)

/-- One step of the walk up a CCF path. -/
def ccfStep (accumulator : Octets) (step : Item) : Checked Octets :=
  match asArray step with
  | some [left, sibling] =>
    match left with
    | .bool left => do
      let sibling ← okOr ((asBytes sibling).filter fun b => b.length = 32)
        "CCF proof path sibling must be 32 bytes"
      if left then .ok (L.hash.digest (sibling ++ accumulator))
      else .ok (L.hash.digest (accumulator ++ sibling))
    | _ => .error (.refused "CCF proof path step[0] must be bool")
  | _ => .error (.refused "CCF proof path step must be [left: bool, hash: bstr]")

/-- `verifyCCFV1Proof` -/
def verifyCcfV1Proof (proofBlob claimDigest : Octets) : Checked Octets :=
  match L.fxamacker.anyMap proofBlob with
  | .error e => .error (.refused s!"CCF proof is not valid CBOR: {e}")
  | .ok proof => do
    let proof := proof.getD []
    let leaf ← okOr (mapGet proof 1) "CCF proof missing leaf elements (key 1)"
    let leaf ← okOr ((asArray leaf).filter fun leaf => leaf.length = 3)
      "CCF proof leaf (key 1) must be a 3-element array"
    let leaf0 ← unwrap leaf[0]?
    let writeSetDigest ← okOr ((asBytes leaf0).filter fun b => b.length = 32)
      "CCF proof write_set_digest must be 32 bytes"
    let leaf1 ← unwrap leaf[1]?
    let ceString ← okOr (asText leaf1) "CCF proof ce_string must be a text string"
    let leaf2 ← unwrap leaf[2]?
    let proofClaimDigest ← okOr ((asBytes leaf2).filter fun b => b.length = 32)
      "CCF proof claim_digest must be 32 bytes"
    if proofClaimDigest ≠ claimDigest then
      .error (.refused "CCF proof claim_digest does not match leaf_entry_hex")
    else do
      let accumulator :=
        L.hash.digest (writeSetDigest ++ L.hash.digest (Utf8.encode ceString) ++ claimDigest)
      match mapGet proof 2 with
      | none => .ok accumulator
      | some path => do
        let path ← okOr (asArray path) "CCF proof path (key 2) must be an array"
        path.foldlM (ccfStep L) accumulator

/-! ## Signatures -/

/-- `sigStructure` -/
def sigStructure (protectedBstr payload : Octets) : Octets :=
  L.fxamacker.marshal (sigItem protectedBstr payload)

/-- `newVerifier`; the name of the type of a key is left out. -/
def newVerifier (alg : Alg) (key : L.crypto.PublicKey) : Except String Unit :=
  match alg.kind with
  | .ec required =>
    match L.crypto.kind key with
    | .ec curve =>
      if curve = required then .ok ()
      else
        .error (s!"alg {alg.name} ({alg.code}) requires a {required.name} public key, " ++
          s!"got {curve.name}")
    | _ => .error s!"alg {alg.name} requires an *ecdsa.PublicKey"
  | kind =>
    if L.crypto.kind key = kind then .ok ()
    else .error s!"alg {alg.name} requires an ed25519 public key"

/-- `algNameFromCode`, then `newVerifier`. -/
def verifierFor (algCode : ℤ) (key : L.crypto.PublicKey) : Except String Alg :=
  match Alg.ofCode algCode with
  | none =>
    .error s!"unsupported alg code point {algCode} (want -8 EdDSA, -7 ES256, or -35 ES384)"
  | some alg => (newVerifier L alg key).map fun _ => alg

/-- `verifier.Verify` over the Sig_structure of a root. -/
def verifyOver (m : Message) (key : L.crypto.PublicKey) (verifier : Except String Alg)
    (root : Octets) : Bool :=
  match verifier with
  | .ok alg => L.crypto.verify alg key (sigStructure L m.protBytes root) m.signature
  | .error _ => false

/-! ## The verifier -/

/-- The loop over the candidates. -/
def tryCandidates (m : Message) (key : L.crypto.PublicKey) (verifier : Except String Alg)
    (leafBytes : Octets) (r : ReceiptOut) : List (ℤ × ℤ × List Octets) → Checked ReceiptOut
  | [] => .ok r
  | (size, index, path) :: candidates => do
    match ← Merkle.Go.rootFromInclusionProof L.hash leafBytes index size path with
    | none => tryCandidates m key verifier leafBytes r candidates
    | some computed =>
      let reported :=
        if r.root = "" then
          { r with treeSize := size, leafIndex := index, root := Octets.toHex computed }
        else r
      if verifyOver L m key verifier computed then
        .ok { reported with
          treeSize := size, leafIndex := index, root := Octets.toHex computed, ok := true }
      else tryCandidates m key verifier leafBytes reported candidates

/-- The branch of `verifyReceipt` for `vds = 1`. -/
def verifyRfc9162 (m : Message) (key : L.crypto.PublicKey) (algCode : ℤ) (leafBytes : Octets)
    (blobs : List Octets) : Checked ReceiptOut :=
  if 16 < blobs.length then .error (.refused "too many inclusion proofs (maximum 16)")
  else do
    let candidates ← blobs.mapM (decodeInclusionProof L)
    let verifier := verifierFor L algCode key
    let r ← tryCandidates L m key verifier leafBytes {} candidates
    if r.ok then .ok r
    else
      .ok { r with
        failedAt := if r.root ≠ "" then some .signature else none
        error := match verifier with
          | .error e => e
          | .ok _ => "receipt signature did not verify over any reconstructed root" }

/-- The branch of `verifyReceipt` for `vds = 2`. -/
def verifyCcf (m : Message) (key : L.crypto.PublicKey) (algCode : ℤ) (leafBytes : Octets)
    (blobs : List Octets) : Checked ReceiptOut := do
  let proofBlob ← unwrap blobs.head?
  let root ← verifyCcfV1Proof L proofBlob leafBytes
  let verifier := verifierFor L algCode key
  if verifyOver L m key verifier root then .ok { ok := true, root := Octets.toHex root }
  else
    .ok {
      root := Octets.toHex root
      failedAt := some .signature
      error := match verifier with
        | .error e => e
        | .ok _ => "receipt signature did not verify over reconstructed root" }

/-- `verifyReceipt`, from the message to the blobs of the proofs. -/
def readReceipt (data : Octets) : Checked Input := do
  let m ← readMessage L data
  let vds ← okOr (intAt m.prot hdrVds) "receipt protected header missing vds (label 395)"
  let algCode ← okOr (intAt m.prot hdrAlg) "receipt protected header missing alg (label 1)"
  checkCrit m.prot vds
  let proofs ← readEntries L m.rawUnprotected
  let blobs ← proofs.mapM checkEntry
  .ok ⟨m, vds, algCode, blobs⟩

/-- `verifyReceipt`, once the key is loaded. -/
def verifyReceiptSteps (data : Octets) (key : L.crypto.PublicKey) (leafEntryHex : String) :
    Checked ReceiptOut := do
  let ⟨m, vds, algCode, blobs⟩ ← readReceipt L data
  let leafBytes ← okOr (Octets.fromHexStrict leafEntryHex) "leaf-entry-hex is not hex"
  if vds = vdsRfc9162Sha256 then verifyRfc9162 L m key algCode leafBytes blobs
  else if vds = vdsCcfLedgerSha256 then verifyCcf L m key algCode leafBytes blobs
  else
    .error (.refused
      s!"unsupported vds {vds} (supported: 1 RFC9162_SHA256, 2 CCF_LEDGER_SHA256)")

/-- `verifyReceipt`. A refusal is the end of the process (`fail`): the key cannot be loaded. -/
def verifyReceipt (data : Octets) (logPubkey leafEntryHex : String) : Checked ReceiptOut :=
  if data = [] ∨ maxReceiptOctets < data.length then
    .ok {
      error := s!"receipt size is not 1 to {maxReceiptOctets} octets"
      failedAt := some .structural }
  else
    match L.crypto.loadPublicKey logPubkey with
    | .error e => .error (.refused s!"parse public key: {e}")
    | .ok key =>
      match verifyReceiptSteps L data key leafEntryHex with
      | .error .fault => .error .fault
      | .error (.refused error) => .ok { error := error, failedAt := some .structural }
      | .ok r =>
        .ok (if r.ok = false ∧ r.failedAt = none then { r with failedAt := some .structural } else r)

end Source

/-! ## Headers -/

variable {L : Libraries}

/-- A label that is not negative is looked up under its own key. -/
theorem mapGet_natCast (m : Dict) {n : ℕ} (h : n < 2 ^ 64) : mapGet m n = m.get (.int n) := by
  rw [mapGet, if_neg (by omega), Option.none_or, Int.emod_eq_of_lt (by omega) (by omega)]

/-- The slot of the proofs: -1, or the `uint64` of the same bits. -/
def proofSlot (vdp : Dict) : Option Item := mapGet vdp vdpInclusionProofs

theorem proofSlot_eq (vdp : Dict) :
    proofSlot vdp = (Receipt.proofSlot vdp).or (vdp.get (.int (2 ^ 64 - 1))) := rfl

theorem checkCritLabels_gives (d : Dict) (vds : ℤ) (labels : List Item) :
    Gives (checkCritLabels d vds labels)
      (if ∀ label ∈ labels, (d.get label).isSome ∧ label ∈ understoodLabels vds then some ()
        else none) := by
  induction labels with
  | nil => exact .ok ()
  | cons label labels ih =>
      -- no label of the list is negative or above `int64`
      have hrange : ∀ n : ℤ, .int n ∈ understoodLabels vds → 0 ≤ n ∧ n < 2 ^ 63 := by
        intro n hn
        rw [understoodLabels] at hn
        split_ifs at hn <;>
        · simp [hdrAlg, hdrCrit, hdrCwtClaims, hdrVds, hdrKid] at hn
          omega
      have hkey : ∀ key present, critKey d label = some (key, present) →
          (present = true ∧ key ∈ understoodLabels vds ↔
            (d.get label).isSome ∧ label ∈ understoodLabels vds) := by
        intro key present hk
        cases label with
        | int n =>
            rw [critKey] at hk
            by_cases hneg : n < 0
            · rw [if_pos hneg] at hk
              cases hk
              exact iff_of_false (fun h => by have := hrange n h.2; omega)
                fun h => by have := hrange n h.2; omega
            · rw [if_neg hneg] at hk
              cases hk
              by_cases hbig : n < 2 ^ 63
              · rw [if_pos hbig]
              · rw [if_neg hbig]
                exact iff_of_false (fun h => by have := hrange _ h.2; omega)
                  fun h => by have := hrange n h.2; omega
        | text s =>
            cases hk
            rfl
        | _ => cases hk
      have hnone : critKey d label = none → label ∉ understoodLabels vds := by
        intro hk hund
        cases label with
        | int n =>
            rw [critKey] at hk
            split_ifs at hk
        | text s => cases hk
        | _ =>
            rw [understoodLabels] at hund
            split_ifs at hund <;> simp at hund
      rw [checkCritLabels]
      simp only [List.forall_mem_cons]
      cases hk : critKey d label with
      | none =>
          rw [if_neg fun h => hnone hk h.1.2]
          exact .refused _
      | some q =>
          obtain ⟨key, present⟩ := q
          have hiff := hkey key present hk
          simp only [okOr, ok_bind]
          by_cases hpresent : present = true
          · rw [if_neg (by simp [hpresent])]
            by_cases hund : key ∈ understoodLabels vds
            · rw [if_neg (not_not.mpr hund)]
              simp only [hiff.mp ⟨hpresent, hund⟩, and_self, true_and]
              exact ih
            · rw [if_pos hund, if_neg fun h => hund (hiff.mpr h.1).2]
              exact .refused _
          · rw [if_pos (by simpa using hpresent), if_neg fun h => hpresent (hiff.mpr h.1).1]
            exact .refused _

/-- `checkCrit` decides what the Python check does. -/
theorem checkCrit_gives (h : Headers) (vds : ℤ) :
    Gives (checkCrit h.protectedHeader vds)
      (if h.Critical (understoodLabels vds) then some () else none) := by
  have hmapGet : mapGet h.protectedHeader hdrCrit = h.protectedHeader.get (.int hdrCrit) :=
    mapGet_natCast _ (n := 2) (by norm_num)
  rw [checkCrit, hmapGet]
  exact Headers.critical_gives _ (checkCritLabels_gives h.protectedHeader vds)

/-! ## The message -/

theorem checkEncoding_gives {octets : Octets} (hlen : octets.length < 2 ^ 63) (what : String)
    (outerTag : Bool) :
    Gives (checkEncoding octets what outerTag)
      ((EncodingRule.read outerTag octets).map fun _ => ()) := by
  rw [checkEncoding, toSlice_eq hlen, ok_bind]
  exact (EncodingRule.gives_of_check_eq (EncodingRule.Go.checkEncoding_eq _ _ _)).explain _

/-- An item of the rule starts with its major type. -/
theorem firstMajor_encode {i : Item} (hi : Grammar false i) : firstMajor (encode i) = some (majorOf i) := by
  have hplain : Plain i := by
    cases i with
    | tag n x => cases hi.1
    | _ => exact hi.1
  obtain ⟨x, t, henc, hx⟩ := EncodingRule.encode_eq_cons hplain
  rw [firstMajor, henc, List.head?_cons, Option.map_some, hx]

theorem readItems_spec (data : Octets) :
    readItems L data ≠ .error .fault ∧ ∀ items, readItems L data = .ok items → items.length = 4 := by
  rw [readItems]
  split
  · split
    · split_ifs with h4
      · exact ⟨nofun, fun items h => by cases h; exact h4⟩
      · exact ⟨nofun, nofun⟩
    · exact ⟨nofun, nofun⟩
  · exact ⟨nofun, nofun⟩

theorem readItems_encode {p u payload s : Item}
    (hi : Grammar true (.tag 18 (.array [p, u, payload, s]))) :
    readItems L (encode (.tag 18 (.array [p, u, payload, s]))) =
      .ok [encode p, encode u, encode payload, encode s] := by
  have hx : Grammar true (.array [p, u, payload, s]) :=
    (Plain.grammar hi.2.2.1 (by have := hi.2.2.2; omega)).outer
  have htag := Octets.eq_ok_of_toOption (L.fxamacker.rawTag_encode hi)
  have hmessages := Octets.eq_ok_of_toOption (L.fxamacker.rawMessages_encode hx)
  rw [readItems, htag]
  simp only
  rw [hmessages]
  rfl

/-- Only a tag-18 array of four items is read. -/
theorem exists_items_of_readItems {i : Item} (hi : Grammar true i) {items : List Octets}
    (h : readItems L (encode i) = .ok items) :
    ∃ p u payload s, i = .tag 18 (.array [p, u, payload, s]) := by
  have h4 := (readItems_spec (encode i)).2 items h
  rw [readItems] at h
  have htag := L.fxamacker.rawTag_encode hi
  cases i with
  | tag n x =>
      obtain rfl : n = 18 := hi.2.1
      have hx : Grammar true x := (Plain.grammar hi.2.2.1 (by have := hi.2.2.2; omega)).outer
      have hmessages := L.fxamacker.rawMessages_encode hx
      rw [Octets.eq_ok_of_toOption htag] at h
      simp only at h
      split at h
      · next raws hraws =>
          rw [hraws] at hmessages
          split_ifs at h with hlen
          cases x with
          | array xs =>
              obtain rfl : raws = xs.map encode := Option.some.inj hmessages
              rw [List.length_map] at hlen
              obtain ⟨p, u, payload, s, rfl⟩ := List.length_eq_four.mp hlen
              exact ⟨p, u, payload, s, rfl⟩
          | null =>
              obtain rfl : raws = [] := Option.some.inj hmessages
              cases hlen
          | _ => cases hmessages
      · cases h
  | null =>
      rw [Octets.eq_ok_of_toOption htag] at h
      cases h
  | _ =>
      split at h
      · next hraw => rw [hraw] at htag; cases htag
      · cases h

theorem readBytes_gives {i : Item} (hi : Grammar false i) (text : String) :
    Gives (readBytes L (encode i) text) (asBytes i) := by
  rw [readBytes, firstMajor_encode hi]
  simp only [unwrap, ok_bind]
  cases i with
  | bytes b =>
      rw [if_neg (by simp [majorOf]), L.fxamacker.bytes_encode hi]
      exact .ok b
  | int n =>
      rw [if_pos (by rw [majorOf]; split_ifs <;> decide)]
      exact .refused _
  | _ => exact .refused _

/-- What the verifier reads of an envelope before its proofs: a map and a signature of octets. -/
def message (e : Envelope) : Option Message :=
  match e.unprotected, e.signature with
  | .map _, .bytes signature =>
    some {
      protBytes := e.protectedBstr
      signature := signature
      rawUnprotected := encode e.unprotected
      prot := e.protectedHeader }
  | _, _ => none

/-- The protected header is decoded as `readHeader` does. -/
theorem receiptMap_encode {d : Dict} (hd : Grammar false (.map d)) :
    receiptMap L (encode (.map d)) = some d := by
  have hmap := Octets.eq_ok_of_toOption (L.fxamacker.anyMap_encode hd)
  rw [receiptMap, if_neg (encode_ne_nil hd.encodable), hmap]

theorem receiptMap_of_ne_map {i : Item} (hi : Grammar false i) (h : ∀ d, i ≠ .map d) :
    receiptMap L (encode i) = none := by
  have hmap := L.fxamacker.anyMap_encode hi
  rw [receiptMap, if_neg (encode_ne_nil hi.encodable)]
  cases i with
  | map d => exact absurd rfl (h d)
  | null => rw [Octets.eq_ok_of_toOption hmap]
  | _ =>
      cases hm : L.fxamacker.anyMap _ with
      | error e => rfl
      | ok m => rw [hm] at hmap; cases hmap

theorem readProtected_gives (m : Message) (hlen : m.protBytes.length < 2 ^ 63) :
    Gives (if m.protBytes = [] then .ok { m with prot := [] }
      else do
        checkEncoding m.protBytes "the protected header" false
        let prot ← okOr (receiptMap L m.protBytes) "receipt protected header is not a map"
        .ok { m with prot := prot })
      ((readHeader m.protBytes).map fun d => { m with prot := d }) := by
  rw [readHeader]
  split_ifs with hnil
  · exact .ok _
  have hcheck := checkEncoding_gives hlen "the protected header" false
  cases h : EncodingRule.read false m.protBytes with
  | none =>
      rw [h] at hcheck
      obtain ⟨e, he⟩ := hcheck.exists_refused
      rw [he]
      exact .refused e
  | some i =>
      rw [h] at hcheck
      obtain ⟨hg, henc⟩ := EncodingRule.read_eq_some_iff.mp h
      rw [hcheck.eq_ok, ok_bind, ← henc]
      cases i with
      | map d =>
          rw [receiptMap_encode hg]
          exact .ok _
      | _ =>
          rw [receiptMap_of_ne_map hg (by simp)]
          exact .refused _

theorem readMessage_gives {data : Octets} (hlen : data.length ≤ maxReceiptOctets) :
    Gives (readMessage L data) ((Envelope.read data).bind message) := by
  have hlen63 : data.length < 2 ^ 63 := by
    rw [maxReceiptOctets] at hlen
    omega
  have hcheck := checkEncoding_gives hlen63 "the receipt" true
  obtain ⟨hfault, h4⟩ := @readItems_spec L data
  rw [readMessage]
  cases hread : EncodingRule.read true data with
  | none =>
      -- whatever the octets, nothing before the walk faults, and the walk refuses them
      rw [hread] at hcheck
      obtain ⟨e, he⟩ := hcheck.exists_refused
      rw [Envelope.read_eq_none hread]
      cases hitems : readItems L data with
      | error stop =>
          cases stop with
          | fault => exact absurd hitems hfault
          | refused m => exact .refused m
      | ok items =>
          obtain ⟨a, b, c, d, rfl⟩ := List.length_eq_four.mp (h4 items hitems)
          simp only [unwrap, ok_bind, List.getElem?_cons_zero, List.getElem?_cons_succ, he]
          split_ifs <;> exact .refused _
  | some i =>
      rw [hread] at hcheck
      obtain ⟨hg, rfl⟩ := EncodingRule.read_eq_some_iff.mp hread
      have hitem : ∀ e, Envelope.read (encode i) = some e → e.item = i := by
        intro e he
        rw [Envelope.read_item he] at hread
        exact Option.some.inj hread
      cases hitems : readItems L (encode i) with
      | error stop =>
          cases stop with
          | fault => exact absurd hitems hfault
          | refused m =>
              have hnone : Envelope.read (encode i) = none := by
                cases he : Envelope.read (encode i) with
                | none => rfl
                | some e =>
                    have hi := hitem e he
                    rw [← hi, Envelope.item, EncodingRule.coseSign1Tag] at hg
                    rw [← hi, Envelope.item, EncodingRule.coseSign1Tag, readItems_encode hg] at hitems
                    cases hitems
              rw [hnone]
              exact .refused m
      | ok items =>
          obtain ⟨p, u, payload, s, rfl⟩ := exists_items_of_readItems hg hitems
          rw [readItems_encode hg] at hitems
          obtain rfl := (Except.ok.inj hitems).symm
          have hmem : ∀ x ∈ [p, u, payload, s], Grammar false x := fun x hx => hg.of_mem hx
          simp only [unwrap, ok_bind, List.getElem?_cons_zero, List.getElem?_cons_succ,
            hcheck.eq_ok]
          by_cases hnull : payload = .null
          · subst hnull
            rw [if_neg (by simp [encode])]
            have hp := readBytes_gives (L := L) (hmem p (by simp))
              "receipt protected header is not a byte string"
            have hs := readBytes_gives (L := L) (hmem s (by simp))
              "receipt signature is not a byte string"
            rw [firstMajor_encode (hmem u (by simp))]
            cases p with
            | bytes b =>
                have henvelope : Envelope.read (encode (.tag 18 (.array [.bytes b, u, .null, s]))) =
                    (readHeader b).map fun d => ⟨⟨b, d, u⟩, s⟩ := by
                  rw [Envelope.read, if_neg (show ¬ maxMessageBytes < _ from not_lt.mpr hlen), hread]
                rw [henvelope, Option.bind_map, hp.eq_ok, ok_bind]
                cases s with
                | bytes signature =>
                    rw [hs.eq_ok, ok_bind]
                    cases u with
                    | map d =>
                        have hb : b.length < 2 ^ 63 := by
                          have h1 := length_le_encode_bytes b
                          have h2 := @length_encode_le_of_mem (.bytes b)
                            [.bytes b, .map d, .null, .bytes signature] (by simp)
                          have h3 := length_le_encode_tag 18
                            (.array [.bytes b, .map d, .null, .bytes signature])
                          omega
                        have hprot := readProtected_gives (L := L)
                          ⟨b, signature, encode (.map d), []⟩ hb
                        rw [Option.map_eq_bind] at hprot
                        exact hprot
                    | int n =>
                        have hmajor : majorOf (.int n) ≠ 5 := by rw [majorOf]; split_ifs <;> decide
                        simp only [ok_bind]
                        rw [if_pos hmajor]
                        cases readHeader b <;> exact .refused _
                    | _ => cases readHeader b <;> exact .refused _
                | _ =>
                    obtain ⟨m, hm⟩ := hs.exists_refused
                    rw [hm]
                    cases readHeader b <;> cases u <;> exact .refused _
            | _ =>
                obtain ⟨m, hm⟩ := hp.exists_refused
                rw [hm, Envelope.read, if_neg (show ¬ maxMessageBytes < _ from not_lt.mpr hlen), hread]
                exact .refused _
          · have hne : encode payload ≠ [0xf6] := by
              intro h
              exact hnull (encode_inj (hmem payload (by simp)).encodable trivial h)
            have hnone : (Envelope.read (encode (.tag 18 (.array [p, u, payload, s])))).bind message =
                none := by
              rw [Option.bind_eq_none_iff]
              intro e he
              have hi := hitem e he
              simp only [Envelope.item, Item.tag.injEq, Item.array.injEq, List.cons.injEq] at hi
              exact absurd hi.2.2.2.1.symm hnull
            rw [if_pos hne, hnone]
            exact .refused _

/-! ## Proofs -/

theorem readEntries_gives {h : Headers} {u : Dict} (hu : h.unprotected = .map u)
    (hg : Grammar false (.map u)) : Gives (readEntries L (encode (.map u))) (h.entries proofSlot) := by
  have hvdp : mapGet u hdrVdp = Dict.get u (.int hdrVdp) := mapGet_natCast _ (n := 396) (by norm_num)
  rw [readEntries, receiptMap_encode hg, Option.getD_some, hvdp, Headers.entries, hu]
  simp only
  cases Dict.get u (.int hdrVdp) with
  | none => exact .refused _
  | some vdp =>
      cases vdp with
      | map vdp =>
          simp only [okOr, asMap, ok_bind, proofSlot]
          cases mapGet vdp vdpInclusionProofs with
          | none => exact .refused _
          | some proofs =>
              cases proofs with
              | array ps => cases ps <;> first | exact .ok _ | exact .refused _
              | _ => exact .refused _
      | _ => exact .refused _

theorem checkEntry_gives {entry : Item} (hlen : ∀ b, entry = .bytes b → b.length < 2 ^ 63) :
    Gives (checkEntry entry) ((readProof entry).map encode) := by
  cases entry with
  | bytes blob =>
      have hcheck := checkEncoding_gives (hlen blob rfl) "an inclusion proof" false
      have hproof : readProof (.bytes blob) = EncodingRule.read false blob := rfl
      simp only [checkEntry, asBytes, okOr, ok_bind, hproof]
      cases h : EncodingRule.read false blob with
      | none =>
          rw [h] at hcheck
          obtain ⟨e, he⟩ := hcheck.exists_refused
          rw [he]
          exact .refused e
      | some i =>
          rw [h] at hcheck
          rw [hcheck.eq_ok, Option.map_some, (EncodingRule.read_eq_some_iff.mp h).2]
          exact .ok blob
  | _ => exact .refused _

/-- A candidate as the source carries it. -/
def goParts (c : Candidate) : ℤ × ℤ × List Octets := (c.treeSize, c.leafIndex, c.auditPath)

theorem majorOf_eq_zero_iff {i : Item} : majorOf i = 0 ↔ ∃ n, i = .int n ∧ 0 ≤ n := by
  cases i with
  | int n => simp [majorOf]
  | _ => simp [majorOf]

theorem majorOf_eq_four_iff {i : Item} : majorOf i = 4 ↔ ∃ xs, i = .array xs := by
  cases i with
  | int n =>
      simp only [majorOf, reduceCtorEq, exists_false, iff_false]
      split_ifs <;> decide
  | _ => simp [majorOf]

theorem proofNumber_gives {n : ℤ} (hi : Grammar false (.int n)) (what : String) :
    Gives (proofNumber L (encode (.int n)) what) (if n < 2 ^ 63 then some n else none) := by
  have h64 := L.fxamacker.int64_encode hi
  rw [proofNumber]
  cases h : L.fxamacker.int64 (encode (.int n)) with
  | error e =>
      rw [h] at h64
      simp only [Except.toOption] at h64
      rw [← h64]
      exact .refused _
  | ok m =>
      rw [h] at h64
      simp only [Except.toOption] at h64
      rw [← h64]
      exact .ok m

/-- The checks of `decodeInclusionProof` on the numbers and the nodes of a proof. -/
theorem decodeInclusionProof_gives_array {n m : ℤ} {path : List Item}
    (hi : Grammar false (.array [.int n, .int m, .array path])) (hn0 : 0 ≤ n) (hm0 : 0 ≤ m) :
    Gives (decodeInclusionProof L (encode (.array [.int n, .int m, .array path])))
      ((Candidate.read goBytes (.array [.int n, .int m, .array path])).map goParts) := by
  have hmem : ∀ x ∈ [Item.int n, .int m, .array path], Grammar false x := by
    intro x hx
    have hd : depthList [Item.int n, .int m, .array path] ≤ 16 := hi.2
    have := depthList_le_iff.mp hd x hx
    exact (EncodingRule.plainList_iff.mp hi.1.2 x hx).grammar (by omega)
  have hraw := Octets.eq_ok_of_toOption (L.fxamacker.rawMessages_encode hi.outer)
  have hn := proofNumber_gives (L := L) (hmem (.int n) (by simp)) "tree_size"
  have hm := proofNumber_gives (L := L) (hmem (.int m) (by simp)) "leaf_index"
  have hpath : (L.fxamacker.byteSlices (encode (.array path))).toOption = path.mapM goBytes :=
    L.fxamacker.byteSlices_encode (hmem (.array path) (by simp))
  rw [decodeInclusionProof, hraw]
  simp only [Except.toOption, List.map_cons, List.map_nil, Option.filter_some, List.length_cons,
    List.length_nil, Nat.zero_add, Nat.reduceAdd, decide_true, if_true, okOr, unwrap, ok_bind,
    List.getElem?_cons_zero, List.getElem?_cons_succ]
  rw [firstMajor_encode (hmem (.int n) (by simp)), firstMajor_encode (hmem (.int m) (by simp)),
    firstMajor_encode (hmem (.array path) (by simp)),
    if_neg (by simp [majorOf, hn0, hm0]), if_neg (by simp [majorOf]), Candidate.read]
  by_cases hn63 : n < 2 ^ 63
  · rw [if_pos hn63] at hn
    rw [hn.eq_ok, ok_bind]
    by_cases hm63 : m < 2 ^ 63
    · rw [if_pos hm63] at hm
      rw [hm.eq_ok, ok_bind]
      cases hnodes : path.mapM goBytes with
      | none =>
          cases hslices : L.fxamacker.byteSlices (encode (.array path)) with
          | error e => exact .refused _
          | ok nodes =>
              rw [hslices, hnodes] at hpath
              cases hpath
      | some nodes =>
          rw [hnodes] at hpath
          rw [Octets.eq_ok_of_toOption hpath, Option.bind_some]
          simp only
          by_cases hrange : m < n ∧ n ≤ 2 ^ 62
          · obtain ⟨size, rfl⟩ := Int.eq_ofNat_of_zero_le hn0
            obtain ⟨index, rfl⟩ := Int.eq_ofNat_of_zero_le hm0
            rw [if_neg (by rw [Merkle.Go.maxTreeSize]; omega),
              Merkle.Go.expectedInclusionPathLen_eq (by omega) (by omega), ok_bind]
            by_cases hlen : nodes.length = Merkle.expectedInclusionPathLen size index
            · rw [if_neg (by omega)]
              by_cases h32 : ∀ b ∈ nodes, b.length = 32
              · rw [if_neg (by simpa using h32), dif_pos ⟨by omega, hrange.1, hrange.2, hlen, h32⟩]
                exact .ok _
              · rw [if_pos (by simpa using h32), dif_neg fun h => h32 h.node]
                exact .refused _
            · rw [if_pos (by omega), dif_neg fun h => hlen h.length]
              exact .refused _
          · rw [if_pos (by rw [Merkle.Go.maxTreeSize]; omega),
              dif_neg fun h => hrange ⟨h.2.1, h.2.2.1⟩]
            exact .refused _
    · rw [if_neg hm63] at hm
      obtain ⟨e, he⟩ := hm.exists_refused
      rw [he, Option.bind_eq_none_iff.mpr fun nodes _ => dif_neg fun h => hm63 (by
        obtain ⟨-, hmn, hn62, -⟩ := h
        omega)]
      exact .refused _
  · rw [if_neg hn63] at hn
    obtain ⟨e, he⟩ := hn.exists_refused
    rw [he, Option.bind_eq_none_iff.mpr fun nodes _ => dif_neg fun h => hn63 (by
      obtain ⟨-, -, hn62, -⟩ := h
      omega)]
    exact .refused _

/-- `decodeInclusionProof` reads the proofs with the shape of one. -/
theorem decodeInclusionProof_gives {i : Item} (hi : Grammar false i) :
    Gives (decodeInclusionProof L (encode i)) ((Candidate.read goBytes i).map goParts) := by
  by_cases hshape : ∃ n m path, i = .array [.int n, .int m, .array path] ∧ 0 ≤ n ∧ 0 ≤ m
  · obtain ⟨n, m, path, rfl, hn, hm⟩ := hshape
    exact decodeInclusionProof_gives_array hi hn hm
  have hnone : Candidate.read goBytes i = none := by
    by_cases harray : ∃ n m path, i = .array [.int n, .int m, .array path]
    · obtain ⟨n, m, path, rfl⟩ := harray
      rw [Candidate.read, Option.bind_eq_none_iff]
      intro nodes _
      rw [dif_neg]
      intro h
      exact hshape ⟨n, m, path, rfl, by obtain ⟨h0, hmn, -⟩ := h; omega, h.1⟩
    · exact Candidate.read_eq_none fun n m path h => harray ⟨n, m, path, h⟩
  have hraw := L.fxamacker.rawMessages_encode hi.outer
  rw [hnone, decodeInclusionProof]
  by_cases hthree : ∃ a b c, i = .array [a, b, c]
  · obtain ⟨a, b, c, rfl⟩ := hthree
    have hmem : ∀ x ∈ [a, b, c], Grammar false x := by
      intro x hx
      have hd : depthList [a, b, c] ≤ 16 := hi.2
      have := depthList_le_iff.mp hd x hx
      exact (EncodingRule.plainList_iff.mp hi.1.2 x hx).grammar (by omega)
    rw [Octets.eq_ok_of_toOption hraw]
    simp only [Except.toOption, List.map_cons, List.map_nil, Option.filter_some, List.length_cons,
      List.length_nil, Nat.zero_add, Nat.reduceAdd, decide_true, if_true, okOr, unwrap, ok_bind,
      List.getElem?_cons_zero, List.getElem?_cons_succ]
    rw [firstMajor_encode (hmem a (by simp)), firstMajor_encode (hmem b (by simp)),
      firstMajor_encode (hmem c (by simp))]
    by_cases h0 : majorOf a = 0 ∧ majorOf b = 0
    · rw [if_neg (by simp [h0])]
      by_cases h4 : majorOf c = 4
      · obtain ⟨n, rfl, hn⟩ := majorOf_eq_zero_iff.mp h0.1
        obtain ⟨m, rfl, hm⟩ := majorOf_eq_zero_iff.mp h0.2
        obtain ⟨path, rfl⟩ := majorOf_eq_four_iff.mp h4
        exact absurd ⟨n, m, path, rfl, hn, hm⟩ hshape
      · rw [if_pos (by simpa using h4)]
        exact .refused _
    · rw [if_pos (by simpa only [ne_eq, Option.some.injEq] using not_and_or.mp h0)]
      exact .refused _
  · have hfilter : (L.fxamacker.rawMessages (encode i)).toOption.filter
        (fun arr => arr.length = 3) = none := by
      rw [hraw, Option.filter_eq_none_iff]
      intro arr harr h3
      cases i with
      | array xs =>
          obtain rfl := Option.some.inj harr
          obtain ⟨a, b, c, rfl⟩ := List.length_eq_three.mp (by simpa using h3)
          exact hthree ⟨a, b, c, rfl⟩
      | null =>
          obtain rfl := Option.some.inj harr
          simp at h3
      | _ => cases harr
    rw [hfilter]
    exact .refused _

/-! ## Signatures -/

theorem sigStructure_eq (protectedBstr payload : Octets) :
    sigStructure L protectedBstr payload = encode (sigItem protectedBstr payload) := by
  apply L.fxamacker.marshal_eq
  simp [sigItem, Writable, WritableList]

/-- The key an algorithm asks for. -/
theorem newVerifier_toOption (alg : Alg) (key : L.crypto.PublicKey) :
    (newVerifier L alg key).toOption = if L.crypto.kind key = alg.kind then some () else none := by
  rw [newVerifier.eq_def]
  cases halg : alg.kind with
  | ec required =>
      cases hkey : L.crypto.kind key with
      | ec curve =>
          simp only [KeyKind.ec.injEq]
          split_ifs <;> rfl
      | ed25519 => rfl
      | other name => rfl
  | ed25519 => simp only; split_ifs <;> rfl
  | other name => simp only; split_ifs <;> rfl

theorem message_eq_some {e : Envelope} {m : Message} (h : message e = some m) :
    (∃ u, e.unprotected = .map u) ∧ e.signature = .bytes m.signature ∧
      m.protBytes = e.protectedBstr ∧ m.rawUnprotected = encode e.unprotected ∧
      m.prot = e.protectedHeader := by
  rw [message.eq_def] at h
  split at h
  · next u signature hu hs =>
      obtain rfl := Option.some.inj h
      exact ⟨⟨u, hu⟩, hs, rfl, rfl, rfl⟩
  · cases h

/-- The signature of an envelope verifies over a root. A key of another kind verifies nothing. -/
theorem verifyOver_eq {e : Envelope} {m : Message} (hm : message e = some m) {algCode : ℤ}
    (halg : e.alg = some algCode) {logPubkey : String} {key : L.crypto.PublicKey}
    (hkey : L.crypto.loadPublicKey logPubkey = .ok key) (root : Octets) :
    verifyOver L m key (verifierFor L algCode key) root = e.verifies L.crypto logPubkey root := by
  obtain ⟨-, hsig, hprot, -, -⟩ := message_eq_some hm
  rw [Envelope.verifies, hsig, halg, hkey, Option.bind_some, verifierFor]
  cases Alg.ofCode algCode with
  | none => rfl
  | some alg =>
      have hnew := newVerifier_toOption alg key
      simp only
      cases hv : newVerifier L alg key with
      | error message =>
          rw [hv] at hnew
          have hfalse : ¬ L.crypto.verify alg key (encode (sigItem e.protectedBstr root)) m.signature =
              true := by
            intro h
            rw [if_pos (L.crypto.kind_of_verify h)] at hnew
            cases hnew
          exact (Bool.eq_false_of_not_eq_true hfalse).symm
      | ok u =>
          rw [← hprot, ← sigStructure_eq (L := L)]
          rfl

/-! ## The loop over the candidates -/

/-- The numbers and the root of a candidate, in the result. -/
def ReceiptOut.report (H : Hash) (leafEntry : Octets) (r : ReceiptOut) (c : Candidate) : ReceiptOut :=
  { r with treeSize := c.treeSize, leafIndex := c.leafIndex, root := Octets.toHex (c.root H leafEntry) }

theorem ReceiptOut.verdict_report (H : Hash) (leafEntry : Octets) (r : ReceiptOut) (c : Candidate) :
    (r.report H leafEntry c).verdict =
      ⟨r.ok, r.failedAt, some (Octets.toHex (c.root H leafEntry)), some c.treeSize,
        some c.leafIndex⟩ := by
  have hroot := c.toHex_root_ne H leafEntry
  have hsize : (c.treeSize : ℤ) ≠ 0 := by
    have := c.leafIndex_lt
    omega
  rw [ReceiptOut.verdict, ReceiptOut.report]
  simp only
  rw [if_neg hroot, if_neg hsize, if_neg hsize]

/-- The loop stops at the first candidate that verifies, and keeps the first of all as a diagnostic. -/
theorem tryCandidates_eq (m : Message) (key : L.crypto.PublicKey) (verifier : Except String Alg)
    (leafEntry : Octets) (r : ReceiptOut) (cs : List Candidate) :
    tryCandidates L m key verifier leafEntry r (cs.map goParts) =
      .ok (match cs.find? fun c => verifyOver L m key verifier (c.root L.hash leafEntry) with
        | some c => { r.report L.hash leafEntry c with ok := true }
        | none =>
          match cs with
          | c :: _ => if r.root = "" then r.report L.hash leafEntry c else r
          | [] => r) := by
  induction cs generalizing r with
  | nil => rfl
  | cons c cs ih =>
      have hroot : Merkle.Go.rootFromInclusionProof L.hash leafEntry c.leafIndex c.treeSize
          c.auditPath = .ok (some (c.root L.hash leafEntry)) := by
        rw [Merkle.Go.rootFromInclusionProof_eq, c.rootOfProof_eq]
      rw [List.map_cons, goParts, tryCandidates, hroot, ok_bind]
      simp only [List.find?_cons]
      cases hv : verifyOver L m key verifier (c.root L.hash leafEntry) with
      | true =>
          rw [if_pos rfl]
          split_ifs <;> rfl
      | false =>
          rw [if_neg nofun, ih]
          -- the first candidate is the diagnostic unless there was one
          have hne := c.toHex_root_ne L.hash leafEntry
          by_cases hr : r.root = ""
          · simp only [if_pos hr, if_neg hne]
            cases cs.find? _ <;> cases cs <;> rfl
          · simp only [if_neg hr]
            cases cs.find? _ <;> cases cs <;> rfl

/-! ## What the verifier reads -/

/-- The integers of a header are those of an `int64`. -/
theorem intAt_natCast (d : Dict) {n : ℕ} (h : n < 2 ^ 64) :
    intAt d n = ((d.get (.int n)).bind asInteger).filter fun v => -2 ^ 63 ≤ v ∧ v < 2 ^ 63 := by
  rw [intAt.eq_def, mapGet_natCast d h]
  cases d.get (.int n) with
  | none => rfl
  | some i =>
      cases i with
      | int v => simp only [Option.bind_some, asInteger, Option.filter_some, decide_eq_true_eq]
      | _ => rfl

theorem intAt_vds (h : Headers) :
    intAt h.protectedHeader hdrVds = h.vds.filter fun v => -2 ^ 63 ≤ v ∧ v < 2 ^ 63 := by
  have hvds : h.vds = (h.protectedHeader.get (.int hdrVds)).bind asInteger := by
    rw [Headers.vds.eq_def]
    cases h.protectedHeader.get (.int hdrVds) with
    | none => rfl
    | some i => cases i <;> rfl
  rw [hvds]
  exact intAt_natCast _ (n := 395) (by norm_num)

theorem intAt_alg (h : Headers) :
    intAt h.protectedHeader hdrAlg = h.alg.filter fun v => -2 ^ 63 ≤ v ∧ v < 2 ^ 63 := by
  have halg : h.alg = (h.protectedHeader.get (.int hdrAlg)).bind asInteger := by
    rw [Headers.alg.eq_def]
    cases h.protectedHeader.get (.int hdrAlg) with
    | none => rfl
    | some i => cases i <;> rfl
  rw [halg]
  exact intAt_natCast _ (n := 1) (by norm_num)

/-- What the verifier knows of an envelope when its proofs are decoded. -/
def input (e : Envelope) : Option Input :=
  (message e).bind fun m =>
    (intAt e.protectedHeader hdrVds).bind fun vds =>
      (intAt e.protectedHeader hdrAlg).bind fun algCode =>
        (if e.Critical (understoodLabels vds) then some () else none).bind fun _ =>
          (e.proofs proofSlot).map fun items => ⟨m, vds, algCode, items.map encode⟩

/-- A value under the slot is one of the map. -/
theorem mem_of_proofSlot {vdp : Dict} {v : Item} (h : proofSlot vdp = some v) : ∃ k, (k, v) ∈ vdp := by
  rw [proofSlot_eq, Option.or_eq_some_iff] at h
  rcases h with h | ⟨-, h⟩
  · exact ⟨_, Dict.mem_of_get h⟩
  · exact ⟨_, Dict.mem_of_get h⟩

theorem readReceipt_gives {data : Octets} (hlen : data.length ≤ maxReceiptOctets) :
    Gives (readReceipt L data) ((Envelope.read data).bind input) := by
  have hmessage := readMessage_gives (L := L) hlen
  rw [readReceipt]
  cases he : Envelope.read data with
  | none =>
      rw [he] at hmessage
      obtain ⟨text, htext⟩ := hmessage.exists_refused
      rw [htext]
      exact .refused text
  | some e =>
      rw [he, Option.bind_some] at hmessage
      refine hmessage.bind fun m hm => ?_
      obtain ⟨⟨u, hu⟩, -, -, hraw, hprot⟩ := message_eq_some hm
      obtain ⟨-, hg, henc, -⟩ := Envelope.read_eq_some_iff.mp he
      rw [hprot, hraw, hu]
      refine (Gives.okOr _ _).bind fun vds _ => (Gives.okOr _ _).bind fun algCode _ => ?_
      refine (checkCrit_gives e.toHeaders vds).bind fun _ _ => ?_
      have hgu : Grammar false (.map u) := by
        rw [← hu]
        exact hg.of_mem (by simp)
      rw [e.proofs_eq_entries, Option.map_bind]
      refine (readEntries_gives hu hgu).bind fun entries hentries => ?_
      have hblobs : Gives (entries.mapM checkEntry) ((entries.mapM readProof).map (List.map encode)) := by
        rw [← Octets.mapM_map]
        apply Gives.mapM
        rintro entry hentry
        refine checkEntry_gives fun b hb => ?_
        subst hb
        have h1 := length_le_encode_bytes b
        have h2 := Headers.length_encode_le_of_entries (fun _ _ => mem_of_proofSlot) hentries hentry
        have h3 := e.length_encode_le (x := e.unprotected) (by simp)
        rw [henc] at h3
        rw [maxReceiptOctets] at hlen
        omega
      cases hitems : entries.mapM readProof with
      | none =>
          rw [hitems] at hblobs
          obtain ⟨text, htext⟩ := hblobs.exists_refused
          rw [htext, Function.comp_apply, hitems]
          exact .refused text
      | some items =>
          rw [hitems] at hblobs
          rw [hblobs.eq_ok, Function.comp_apply, hitems]
          exact .ok _

/-! ## RFC 9162 receipts -/

theorem decodeInclusionProof_mapM_gives {items : List Item} (hg : ∀ i ∈ items, Grammar false i) :
    Gives ((items.map encode).mapM (decodeInclusionProof L))
      ((items.mapM (Candidate.read goBytes)).map (List.map goParts)) := by
  rw [← Octets.mapM_map, List.mapM_map]
  exact Gives.mapM fun i hi => decodeInclusionProof_gives (hg i hi)

/-- The envelopes whose headers this verifier admits under `vds`: a map, a signature of octets,
critical labels it understands and an algorithm within `int64`. -/
def Admitted (vds : ℤ) (e : Envelope) : Prop :=
  (asMap e.unprotected).isSome ∧ (asBytes e.signature).isSome ∧ e.Critical (understoodLabels vds) ∧
    (intAt e.protectedHeader hdrAlg).isSome

instance (vds : ℤ) (e : Envelope) : Decidable (Admitted vds e) :=
  inferInstanceAs (Decidable (_ ∧ _ ∧ _ ∧ _))

section Admitted

variable {e : Envelope} {vds : ℤ} {items : List Item}

theorem message_isSome (e : Envelope) :
    (message e).isSome ↔ (asMap e.unprotected).isSome ∧ (asBytes e.signature).isSome := by
  rw [message.eq_def]
  cases e.unprotected with
  | map u => cases e.signature <;> simp [asMap, asBytes]
  | _ => simp [asMap]

theorem exists_input (hvds : intAt e.protectedHeader hdrVds = some vds) (ha : Admitted vds e)
    (hitems : e.proofs proofSlot = some items) :
    ∃ m algCode, message e = some m ∧ e.alg = some algCode ∧
      input e = some ⟨m, vds, algCode, items.map encode⟩ := by
  obtain ⟨hu, hs, hcrit, halg⟩ := ha
  obtain ⟨m, hm⟩ := Option.isSome_iff_exists.mp ((message_isSome e).mpr ⟨hu, hs⟩)
  obtain ⟨algCode, halg⟩ := Option.isSome_iff_exists.mp halg
  have halg' : e.alg = some algCode := by
    rw [intAt_alg] at halg
    exact (Option.filter_eq_some_iff.mp halg).1
  refine ⟨m, algCode, hm, halg', ?_⟩
  rw [input, hm, hvds, halg, hitems, Option.bind_some, Option.bind_some, Option.bind_some, if_pos hcrit]
  rfl

theorem input_eq_none (hvds : intAt e.protectedHeader hdrVds = some vds)
    (h : (if Admitted vds e then e.proofs proofSlot else none) = none) : input e = none := by
  cases hinput : input e with
  | none => rfl
  | some q =>
      rw [input, hvds] at hinput
      simp only [Option.bind_some, Option.bind_eq_some_iff, Option.map_eq_some_iff] at hinput
      obtain ⟨m, hm, algCode, halg, _, hcrit, items, hitems, -⟩ := hinput
      have hmap := (message_isSome e).mp (by rw [hm]; rfl)
      have hc : e.Critical (understoodLabels vds) := by
        by_contra hc
        rw [if_neg hc] at hcrit
        cases hcrit
      rw [if_pos ⟨hmap.1, hmap.2, hc, by rw [halg]; rfl⟩, hitems] at h
      cases h

end Admitted

/-! ## The verifier -/

section Verdict

variable {data : Octets} {logPubkey leafEntryHex : String} {key : L.crypto.PublicKey} {leafEntry : Octets}

/-- The verifier returns a result with this verdict. -/
def Returns (L : Libraries) (data : Octets) (logPubkey leafEntryHex : String) (v : Verdict) : Prop :=
  ∃ r, verifyReceipt L data logPubkey leafEntryHex = .ok r ∧ r.verdict = v

/-- A refusal before the signature step is one for structure. -/
theorem returns_of_refused (hkey : L.crypto.loadPublicKey logPubkey = .ok key) {text : String}
    (h : verifyReceiptSteps L data key leafEntryHex = .error (.refused text)) :
    Returns L data logPubkey leafEntryHex .malformed := by
  rw [Returns, verifyReceipt]
  by_cases hsize : data = [] ∨ maxReceiptOctets < data.length
  · rw [if_pos hsize]
    exact ⟨_, rfl, rfl⟩
  · rw [if_neg hsize, hkey]
    simp only [h]
    exact ⟨_, rfl, rfl⟩

/-- Octets that carry no envelope are malformed. -/
theorem returns_of_read_none (hkey : L.crypto.loadPublicKey logPubkey = .ok key)
    (h : Envelope.read data = none) : Returns L data logPubkey leafEntryHex .malformed := by
  by_cases hlen : data.length ≤ maxReceiptOctets
  · have hread := readReceipt_gives (L := L) hlen
    rw [h] at hread
    obtain ⟨text, htext⟩ := hread.exists_refused
    have hrefused : verifyReceiptSteps L data key leafEntryHex = .error (.refused text) := by
      rw [verifyReceiptSteps, htext]
      rfl
    exact returns_of_refused hkey hrefused
  · rw [Returns, verifyReceipt, if_pos (.inr (not_le.mp hlen))]
    exact ⟨_, rfl, rfl⟩

theorem length_le_of_read {e : Envelope} (he : Envelope.read data = some e) :
    data.length ≤ maxReceiptOctets :=
  (Envelope.read_eq_some_iff.mp he).1

theorem ne_nil_of_read {e : Envelope} (he : Envelope.read data = some e) : data ≠ [] := by
  obtain ⟨-, hg, rfl, -⟩ := Envelope.read_eq_some_iff.mp he
  exact encode_ne_nil hg.encodable

theorem returns_of_steps {e : Envelope} (he : Envelope.read data = some e)
    (hkey : L.crypto.loadPublicKey logPubkey = .ok key) {r : ReceiptOut}
    (h : verifyReceiptSteps L data key leafEntryHex = .ok r)
    (hr : r.ok = true ∨ r.failedAt ≠ none) : Returns L data logPubkey leafEntryHex r.verdict := by
  have hsize : ¬ (data = [] ∨ maxReceiptOctets < data.length) := by
    rintro (hnil | hlong)
    · exact ne_nil_of_read he hnil
    · exact absurd (length_le_of_read he) (not_le.mpr hlong)
  refine ⟨r, ?_, rfl⟩
  rw [verifyReceipt, if_neg hsize, hkey]
  simp only [h]
  rw [if_neg]
  rintro ⟨hok, hfailed⟩
  rcases hr with hr | hr
  · rw [hok] at hr
    cases hr
  · exact hr hfailed

/-- A receipt whose headers or proofs are refused is malformed. -/
theorem returns_of_input_none {e : Envelope} (he : Envelope.read data = some e)
    (hkey : L.crypto.loadPublicKey logPubkey = .ok key) (h : input e = none) :
    Returns L data logPubkey leafEntryHex .malformed := by
  have hread := readReceipt_gives (L := L) (length_le_of_read he)
  rw [he, Option.bind_some, h] at hread
  obtain ⟨text, htext⟩ := hread.exists_refused
  have hrefused : verifyReceiptSteps L data key leafEntryHex = .error (.refused text) := by
    rw [verifyReceiptSteps, htext]
    rfl
  exact returns_of_refused hkey hrefused

/-- A leaf that is no hexadecimal text is refused. -/
theorem returns_of_leaf_none (hkey : L.crypto.loadPublicKey logPubkey = .ok key)
    (hleaf : Octets.fromHexStrict leafEntryHex = none) :
    Returns L data logPubkey leafEntryHex .malformed := by
  cases he : Envelope.read data with
  | none => exact returns_of_read_none hkey he
  | some e =>
      cases hinput : input e with
      | none => exact returns_of_input_none he hkey hinput
      | some q =>
          have hread := readReceipt_gives (L := L) (length_le_of_read he)
          rw [he, Option.bind_some, hinput] at hread
          have hrefused : verifyReceiptSteps L data key leafEntryHex =
              .error (.refused "leaf-entry-hex is not hex") := by
            rw [verifyReceiptSteps, hread.eq_ok, ok_bind]
            simp only
            rw [hleaf]
            rfl
          exact returns_of_refused hkey hrefused

/-- The branch the verifier takes. -/
theorem verifyReceiptSteps_eq {e : Envelope} (he : Envelope.read data = some e)
    (hleaf : Octets.fromHexStrict leafEntryHex = some leafEntry) {q : Input}
    (hq : input e = some q) :
    verifyReceiptSteps L data key leafEntryHex =
      if q.vds = vdsRfc9162Sha256 then verifyRfc9162 L q.message key q.algCode leafEntry q.blobs
      else if q.vds = vdsCcfLedgerSha256 then verifyCcf L q.message key q.algCode leafEntry q.blobs
      else .error (.refused
        s!"unsupported vds {q.vds} (supported: 1 RFC9162_SHA256, 2 CCF_LEDGER_SHA256)") := by
  have hread := readReceipt_gives (L := L) (length_le_of_read he)
  rw [he, Option.bind_some, hq] at hread
  rw [verifyReceiptSteps, hread.eq_ok, ok_bind]
  simp only
  rw [hleaf]
  rfl

/-- The verdict on an RFC 9162 receipt is the outcome over its candidates. -/
theorem verdict_of_rfc9162 {e : Envelope} (he : Envelope.read data = some e)
    (hkey : L.crypto.loadPublicKey logPubkey = .ok key)
    (hleaf : Octets.fromHexStrict leafEntryHex = some leafEntry)
    (hvds : e.vds = some vdsRfc9162Sha256) :
    Returns L data logPubkey leafEntryHex
      (verdictOver L.hash leafEntry (e.verifies L.crypto logPubkey)
        (if Admitted vdsRfc9162Sha256 e then e.candidates proofSlot goBytes else none)) := by
  have hvds' : intAt e.protectedHeader hdrVds = some vdsRfc9162Sha256 := by
    rw [intAt_vds, hvds]
    rfl
  by_cases hitems : (if Admitted vdsRfc9162Sha256 e then e.proofs proofSlot else none) = none
  · have hnone : (if Admitted vdsRfc9162Sha256 e then e.candidates proofSlot goBytes else none) =
        none := by
      by_cases ha : Admitted vdsRfc9162Sha256 e
      · rw [if_pos ha] at hitems ⊢
        rw [Headers.candidates, hitems]
        rfl
      · rw [if_neg ha]
    rw [hnone]
    exact returns_of_input_none he hkey (input_eq_none hvds' hitems)
  obtain ⟨items, hitems⟩ := Option.ne_none_iff_exists'.mp hitems
  have ha : Admitted vdsRfc9162Sha256 e := by
    by_contra ha
    rw [if_neg ha] at hitems
    cases hitems
  rw [if_pos ha] at hitems ⊢
  obtain ⟨m, algCode, hm, halg, hinput⟩ := exists_input hvds' ha hitems
  have hsteps := @verifyReceiptSteps_eq L _ _ key _ _ he hleaf _ hinput
  rw [if_pos rfl, verifyRfc9162, List.length_map] at hsteps
  rw [Headers.candidates, hitems, Option.bind_some, maxInclusionProofs]
  by_cases hcap : items.length ≤ 16
  · rw [if_neg (not_lt.mpr hcap)] at hsteps
    rw [if_pos hcap]
    have hdecode := decodeInclusionProof_mapM_gives (L := L) (grammar_of_proofs hitems)
    cases hcs : items.mapM (Candidate.read goBytes) with
    | none =>
        rw [hcs] at hdecode
        obtain ⟨text, htext⟩ := hdecode.exists_refused
        have hrefused : verifyReceiptSteps L data key leafEntryHex = .error (.refused text) := by
          rw [hsteps, htext]
          rfl
        exact returns_of_refused hkey hrefused
    | some cs =>
        rw [hcs] at hdecode
        have hverifies : (fun c : Candidate => verifyOver L m key (verifierFor L algCode key)
            (c.root L.hash leafEntry)) =
            fun c => e.verifies L.crypto logPubkey (c.root L.hash leafEntry) := by
          funext c
          exact verifyOver_eq hm halg hkey _
        rw [hdecode.eq_ok, ok_bind] at hsteps
        simp only at hsteps
        rw [tryCandidates_eq, ok_bind, hverifies] at hsteps
        rw [verdictOver, outcome.eq_def]
        cases hfind : cs.find? fun c => e.verifies L.crypto logPubkey (c.root L.hash leafEntry) with
        | some c =>
            rw [hfind] at hsteps
            obtain ⟨r, hr, hv⟩ := returns_of_steps he hkey hsteps (.inl rfl)
            exact ⟨r, hr, hv.trans (ReceiptOut.verdict_report L.hash leafEntry { ok := true } c)⟩
        | none =>
            rw [hfind] at hsteps
            have hne : cs ≠ [] := by
              rintro rfl
              have hlen := Octets.length_of_mapM hcs
              exact Headers.ne_nil_of_proofs hitems (List.length_eq_zero_iff.mp hlen.symm)
            obtain ⟨c, cs, rfl⟩ := List.exists_cons_of_ne_nil hne
            simp only [if_pos, ReceiptOut.report] at hsteps
            rw [if_neg Bool.false_ne_true, if_pos (c.toHex_root_ne L.hash leafEntry)] at hsteps
            obtain ⟨r, hr, hv⟩ := returns_of_steps he hkey hsteps (.inr (by simp))
            exact ⟨r, hr, hv.trans (ReceiptOut.verdict_report L.hash leafEntry
              { failedAt := some .signature, error := _ } c)⟩
  · rw [if_pos (not_le.mp hcap)] at hsteps
    rw [if_neg hcap]
    exact returns_of_refused hkey hsteps

end Verdict

/-! ## CCF receipts -/

theorem ccfStep_gives (accumulator : Octets) (step : Item) :
    Gives (ccfStep L accumulator step) (ccfUp L.hash accumulator step) := by
  by_cases hstep : ∃ left sibling, step = .array [.bool left, .bytes sibling]
  · obtain ⟨left, sibling, rfl⟩ := hstep
    simp only [ccfStep, ccfUp, asArray, asBytes, Option.filter_some, decide_eq_true_eq]
    by_cases h32 : sibling.length = 32
    · rw [if_pos h32, if_pos h32]
      cases left <;> exact .ok _
    · rw [if_neg h32, if_neg h32]
      exact .refused _
  · have hnone : ccfUp L.hash accumulator step = none := by
      rw [ccfUp.eq_def]
      split
      · next left sibling => exact absurd ⟨left, sibling, rfl⟩ hstep
      · rfl
    rw [hnone, ccfStep.eq_def]
    split
    · next left sibling harray =>
        split
        · next left =>
            cases sibling with
            | bytes b =>
                cases step with
                | array xs =>
                    obtain rfl := Option.some.inj harray
                    exact absurd ⟨left, b, rfl⟩ hstep
                | _ => cases harray
            | _ => exact .refused _
        · exact .refused _
    · exact .refused _

/-- The proof is evaluated whatever the length of its path. -/
theorem verifyCcfV1Proof_gives {i : Item} (hi : Grammar false i) (claim : Octets) :
    Gives (verifyCcfV1Proof L (encode i) claim)
      ((CcfProof.read i).bind (CcfProof.root L.hash claim)) := by
  have hmap := L.fxamacker.anyMap_encode hi
  rw [verifyCcfV1Proof]
  cases i with
  | map proof =>
      have h1 : mapGet proof 1 = Dict.get proof (.int 1) := mapGet_natCast _ (n := 1) (by norm_num)
      have h2 : mapGet proof 2 = Dict.get proof (.int 2) := mapGet_natCast _ (n := 2) (by norm_num)
      rw [Octets.eq_ok_of_toOption hmap]
      simp only [Option.getD_some, h1, h2]
      by_cases hleaf : ∃ w c k, Dict.get proof (.int 1) = some (.array [.bytes w, .text c, .bytes k])
      · obtain ⟨w, c, k, hleaf⟩ := hleaf
        rw [CcfProof.root_read L.hash claim hleaf, hleaf]
        simp only [okOr, ok_bind, asArray, Option.filter_some, List.length_cons, List.length_nil,
          Nat.zero_add, Nat.reduceAdd, decide_true, if_true, unwrap, List.getElem?_cons_zero,
          List.getElem?_cons_succ, asBytes, asText, decide_eq_true_eq]
        by_cases hw : w.length = 32
        · rw [if_pos hw]
          by_cases hk : k.length = 32
          · rw [if_pos hk]
            by_cases hclaim : k = claim
            · subst hclaim
              rw [if_pos ⟨hw, hk, rfl⟩]
              simp only [ok_bind, ne_eq, not_true_eq_false, if_false]
              cases Dict.get proof (.int 2) with
              | none => exact .ok _
              | some path =>
                  cases path with
                  | array path => exact Gives.foldlM ccfStep_gives path _
                  | _ => exact .refused _
            · rw [if_neg fun h => hclaim h.2.2]
              simp only [ok_bind, ne_eq, hclaim, not_false_eq_true, if_true]
              exact .refused _
          · rw [if_neg hk, if_neg fun h => hk h.2.1]
            exact .refused _
        · have hno : ¬ (w.length = 32 ∧ k.length = 32 ∧ k = claim) := fun h => hw h.1
          rw [if_neg hw, if_neg hno]
          exact .refused _
      · rw [CcfProof.read_eq_none fun w c k h => hleaf ⟨w, c, k, h⟩]
        -- the elements are taken one by one
        cases hleaf1 : Dict.get proof (.int 1) with
        | none => exact .refused _
        | some leaf =>
            cases leaf with
            | array elements =>
                simp only [okOr, ok_bind, asArray, Option.filter_some]
                by_cases h3 : elements.length = 3
                · obtain ⟨a, b, c, rfl⟩ := List.length_eq_three.mp h3
                  cases a with
                  | bytes w =>
                      cases hw : decide (w.length = 32) with
                      | false =>
                          simp only [List.length_cons, List.length_nil, Nat.zero_add, Nat.reduceAdd,
                            decide_true, if_true, ok_bind, unwrap, List.getElem?_cons_zero, asBytes,
                            Option.filter_some, hw]
                          exact .refused _
                      | true =>
                          simp only [List.length_cons, List.length_nil, Nat.zero_add, Nat.reduceAdd,
                            decide_true, if_true, ok_bind, unwrap, List.getElem?_cons_zero,
                            List.getElem?_cons_succ, asBytes, Option.filter_some, hw]
                          cases b with
                          | text t =>
                              cases c with
                              | bytes k => exact absurd ⟨w, t, k, hleaf1⟩ hleaf
                              | _ => exact .refused _
                          | _ => exact .refused _
                  | _ => exact .refused _
                · rw [if_neg (by simpa using h3)]
                  exact .refused _
            | _ => exact .refused _
  | null =>
      rw [Octets.eq_ok_of_toOption hmap]
      exact .refused _
  | _ =>
      cases hraw : L.fxamacker.anyMap _ with
      | error e => exact .refused _
      | ok m => rw [hraw] at hmap; cases hmap

section Verdict

variable {data : Octets} {logPubkey leafEntryHex : String} {key : L.crypto.PublicKey} {leafEntry : Octets}
  {e : Envelope}

/-- The verdict on a CCF receipt is the one on its first proof. -/
theorem verdict_of_ccf (he : Envelope.read data = some e)
    (hkey : L.crypto.loadPublicKey logPubkey = .ok key)
    (hleaf : Octets.fromHexStrict leafEntryHex = some leafEntry)
    (hvds : e.vds = some vdsCcfLedgerSha256) :
    Returns L data logPubkey leafEntryHex
      (ccfVerdict (e.verifies L.crypto logPubkey)
        ((if Admitted vdsCcfLedgerSha256 e then e.proofs proofSlot else none).bind
          (firstCcfRoot L.hash leafEntry fun _ => true))) := by
  have hvds' : intAt e.protectedHeader hdrVds = some vdsCcfLedgerSha256 := by
    rw [intAt_vds, hvds]
    rfl
  cases hitems : (if Admitted vdsCcfLedgerSha256 e then e.proofs proofSlot else none) with
  | none => exact returns_of_input_none he hkey (input_eq_none hvds' hitems)
  | some items =>
      have ha : Admitted vdsCcfLedgerSha256 e := by
        by_contra ha
        rw [if_neg ha] at hitems
        cases hitems
      rw [if_pos ha] at hitems
      obtain ⟨m, algCode, hm, halg, hinput⟩ := exists_input hvds' ha hitems
      have hsteps := @verifyReceiptSteps_eq L _ _ key _ _ he hleaf _ hinput
      have hne1 : vdsCcfLedgerSha256 ≠ vdsRfc9162Sha256 := by decide
      rw [if_neg hne1, if_pos rfl, verifyCcf] at hsteps
      obtain ⟨i, rest, rfl⟩ := List.exists_cons_of_ne_nil (Headers.ne_nil_of_proofs hitems)
      have hroot := verifyCcfV1Proof_gives (L := L) (grammar_of_proofs hitems i (by simp)) leafEntry
      have hfirst : firstCcfRoot L.hash leafEntry (fun _ => true) (i :: rest) =
          (CcfProof.read i).bind (CcfProof.root L.hash leafEntry) := by
        rw [firstCcfRoot, List.head?_cons, Option.bind_some]
        cases CcfProof.read i <;> rfl
      simp only [List.map_cons, List.head?_cons, unwrap, ok_bind] at hsteps
      rw [Option.bind_some, hfirst]
      cases hr : (CcfProof.read i).bind (CcfProof.root L.hash leafEntry) with
      | none =>
          rw [hr] at hroot
          obtain ⟨text, htext⟩ := hroot.exists_refused
          have hrefused : verifyReceiptSteps L data key leafEntryHex = .error (.refused text) := by
            rw [hsteps, htext]
            rfl
          exact returns_of_refused hkey hrefused
      | some root =>
          rw [hr] at hroot
          obtain ⟨p, -, hp⟩ := Option.bind_eq_some_iff.mp hr
          have hne : Octets.toHex root ≠ "" := by
            apply Octets.toHex_ne_empty
            rw [CcfProof.length_of_root hp]
            decide
          have hverdict : ∀ (ok : Bool) (failedAt : Option FailedAt) (error : String),
              ReceiptOut.verdict { ok, root := Octets.toHex root, failedAt, error } =
                ⟨ok, failedAt, some (Octets.toHex root), none, none⟩ := by
            intro ok failedAt error
            rw [ReceiptOut.verdict, if_neg hne]
            rfl
          rw [hroot.eq_ok, ok_bind, verifyOver_eq hm halg hkey] at hsteps
          rw [ccfVerdict]
          cases hv : e.verifies L.crypto logPubkey root with
          | true =>
              rw [hv, if_pos rfl] at hsteps
              obtain ⟨r, hret, hrv⟩ := returns_of_steps he hkey hsteps (.inl rfl)
              exact ⟨r, hret, hrv.trans (hverdict true none "")⟩
          | false =>
              rw [hv, if_neg Bool.false_ne_true] at hsteps
              obtain ⟨r, hret, hrv⟩ := returns_of_steps he hkey hsteps (.inr (by simp))
              exact ⟨r, hret, hrv.trans (hverdict false (some .signature) _)⟩

/-- Without `vds` 1 or 2 a receipt is malformed. -/
theorem verdict_of_vds (he : Envelope.read data = some e)
    (hkey : L.crypto.loadPublicKey logPubkey = .ok key)
    (h1 : e.vds ≠ some vdsRfc9162Sha256) (h2 : e.vds ≠ some vdsCcfLedgerSha256) :
    Returns L data logPubkey leafEntryHex .malformed := by
  cases hleaf : Octets.fromHexStrict leafEntryHex with
  | none => exact returns_of_leaf_none hkey hleaf
  | some leafEntry =>
      cases hinput : input e with
      | none => exact returns_of_input_none he hkey hinput
      | some q =>
          have hvds : e.vds = some q.vds := by
            rw [input] at hinput
            simp only [Option.bind_eq_some_iff, Option.map_eq_some_iff] at hinput
            obtain ⟨m, -, vds, hvds, algCode, -, _, -, items, -, rfl⟩ := hinput
            rw [intAt_vds] at hvds
            exact (Option.filter_eq_some_iff.mp hvds).1
          have hsteps := @verifyReceiptSteps_eq L _ _ key _ _ he hleaf _ hinput
          rw [if_neg fun h => h1 (by rw [hvds, h]), if_neg fun h => h2 (by rw [hvds, h])] at hsteps
          exact returns_of_refused hkey hsteps

end Verdict

end ScittCose.Receipt.Go
