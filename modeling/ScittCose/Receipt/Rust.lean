import ScittCose.EncodingRule.Agreement
import ScittCose.Receipt.Verdict

/-!
# The Rust verifier (`rust/scitt-cose/src/receipt.rs`)

`verify_receipt` in parts that refuse with the text of the finding: the four items of the message, the
protected header, the proofs. Each `unwrap`, `expect`, index, slice and sum is a step that may fault.

A lemma for each part says which value it returns (`Gives`), whatever the octets are. From them
`verifyReceipt_of_read` follows: no step of `verify_receipt` faults, and its verdict is the outcome over
the candidates of the envelope.
-/

namespace ScittCose.Receipt.Rust

open Cbor Checked
open EncodingRule (IsKey Plain Grammar)
open Merkle (rootOfProof)

/-! ## Constants -/

/-- `MAX_RECEIPT_OCTETS` -/
def maxReceiptOctets : ℕ := 10 * 1024 * 1024

/-- `UNDERSTOOD_LABELS` -/
def understoodLabels : List ℤ := [hdrAlg, hdrCrit, hdrCwtClaims, hdrVds]

/-- `ReceiptResult` -/
structure ReceiptResult where
  ok : Bool := false
  root : Option Octets := none
  treeSize : Option ℕ := none
  leafIndex : Option ℕ := none
  errors : List String := []
  iat : Option ℤ := none
  grade : Option String := none
  witnessTimeEstablished : Bool := false
  gradeCryptographicallyBound : Bool := false
  failedAt : Option FailedAt := none
deriving DecidableEq

/-- `ReceiptResult::fail` -/
def ReceiptResult.fail (r : ReceiptResult) (message : String) : ReceiptResult :=
  { r with
    ok := false
    iat := none
    grade := none
    witnessTimeEstablished := false
    gradeCryptographicallyBound := false
    failedAt := r.failedAt.or (some .structural)
    errors := r.errors ++ [message] }

/-- What the other verifiers report too. -/
def ReceiptResult.verdict (r : ReceiptResult) : Verdict :=
  ⟨r.ok, r.failedAt, r.root.map Octets.toHex, r.treeSize.map (↑), r.leafIndex.map (↑)⟩

/-- `Sign1` -/
structure Sign1 where
  protectedBstr : Octets
  unprotected : Dict
  payload : Item
  signature : Octets

section Source

/-! ## Values -/

/-- `i64::try_from` -/
def tryI64 (n : ℤ) : Option ℤ := if -2 ^ 63 ≤ n ∧ n < 2 ^ 63 then some n else none

/-- `as u64` of an `i128`. -/
def asU64 (n : ℤ) : ℕ := (n % 2 ^ 64).toNat

/-- `find_label` -/
def findLabel (map : Dict) (label : ℤ) : Option Item := map.get (.int label)

variable (L : Libraries)

/-! ## Inclusion proofs -/

/-- A number of an inclusion proof: not negative, then `as u64`. -/
def proofNumber (value : Item) (message : String) : Checked ℕ := do
  let n ← okOr ((asInteger value).filter fun n => 0 ≤ n) message
  .ok (asU64 n)

/-- A node of an audit path. -/
def proofNode (node : Item) : Checked Octets := do
  let bytes ← okOr (asBytes node) "inclusion proof path element is not a byte string"
  if bytes.length ≠ 32 then .error (.refused "inclusion proof path element must be 32 bytes")
  else .ok bytes

/-- `decode_inclusion_proof` -/
def decodeInclusionProof (blob : Octets) : Checked (ℕ × ℕ × List Octets) :=
  match L.ciborium.fromReader blob with
  | .error e => .error (.refused s!"inclusion proof is not valid CBOR: {e}")
  | .ok (value, reader) =>
    if reader ≠ [] then .error (.refused "inclusion proof has trailing CBOR bytes")
    else do
      let arr ← okOr (asArray value) "inclusion proof must be [tree_size, leaf_index, [path]]"
      if arr.length ≠ 3 then
        .error (.refused "inclusion proof must be [tree_size, leaf_index, [path]]")
      else do
        let treeSize ← unwrap arr[0]?
        let treeSize ← proofNumber treeSize
          "inclusion proof tree_size must be a non-negative int"
        let leafIndex ← unwrap arr[1]?
        let leafIndex ← proofNumber leafIndex
          "inclusion proof leaf_index must be a non-negative int"
        let path ← unwrap arr[2]?
        let path ← okOr (asArray path) "inclusion proof path must be an array"
        if maxAuditPath < path.length then
          .error (.refused
            s!"inclusion proof path too long ({path.length} > {maxAuditPath})")
        else do
          let path ← path.mapM proofNode
          if treeSize = 0 ∨ Merkle.Rust.maxTreeSize < treeSize ∨ treeSize ≤ leafIndex then
            .error (.refused "invalid tree size or leaf index")
          else do
            let expected ← Merkle.Rust.expectedInclusionPathLen treeSize leafIndex
            if path.length ≠ expected then
              .error (.refused
                "inclusion proof path length does not match tree size and leaf index")
            else .ok (treeSize, leafIndex, path)

/-! ## The message -/

/-- `head_len`: the length of a tag or array head. -/
def headLen (initial : UInt8) : Checked (Option ℕ) :=
  let info := initial.toNat % 32
  if info ≤ 23 ∨ info = 31 then .ok (some 1)
  else if info ≤ 27 then do
    let shift ← usizeSub info 24
    let width ← usizeShl 1 shift
    let n ← usizeAdd 1 width
    .ok (some n)
  else .ok none

/-- `&rest[n..]` after a head, when there is one. -/
def skipHead (rest : Octets) : Checked (Option Octets) :=
  match rest.head? with
  | none => .ok none
  | some initial => do
    match ← headLen initial with
    | some n =>
      if n ≤ rest.length then do
        let rest ← usizeSlice rest n rest.length
        .ok (some rest)
      else .ok none
    | none => .ok none

/-- What is left after the item `ciborium` consumes. -/
def skipItem (rest : Octets) : Option Octets :=
  match L.ciborium.fromReader rest with
  | .ok (_, rest) => some rest
  | .error _ => none

/-- `payload_slot_is_null` -/
def payloadSlotIsNull (receipt : Octets) : Checked Bool := do
  let some rest ← skipHead receipt | .ok false
  let some rest ← skipHead rest | .ok false
  match (skipItem L rest).bind (skipItem L) with
  | some rest => .ok (rest.head? = some 0xf6)
  | none => .ok false

/-- `parse_sign1` -/
def parseSign1 (receipt : Octets) : Checked Sign1 :=
  match L.ciborium.fromReader receipt with
  | .error e => .error (.refused s!"not valid CBOR: {e}")
  | .ok (value, reader) =>
    if reader ≠ [] then .error (.refused "trailing bytes after the COSE_Sign1")
    else
      match value with
      | .tag 18 (.array items) =>
        if items.length ≠ 4 then .error (.refused "tag 18 does not hold a four-item array")
        else do
          let protectedItem ← unwrap items[0]?
          let unprotected ← unwrap items[1]?
          let payload ← unwrap items[2]?
          let signature ← unwrap items[3]?
          let protectedBstr ← okOr (asBytes protectedItem) "protected header is not a byte string"
          let unprotected ← okOr (asMap unprotected) "unprotected header is not a map"
          let signature ← okOr (asBytes signature) "signature is not a byte string"
          .ok { protectedBstr, unprotected, payload, signature }
      | .tag 18 _ => .error (.refused "tag 18 does not hold a four-item array")
      | _ => .error (.refused "not a tag-18 COSE_Sign1")

/-! ## Headers -/

/-- The loop of `check_crit` over the labels. -/
def checkCritLabels (protectedHeader : Dict) : List Item → Checked Unit
  | [] => .ok ()
  | label :: labels =>
    if (asInteger label).isNone ∧ (asText label).isNone then
      .error (.refused "crit lists a label that is not an integer or a text string")
    else if ¬ protectedHeader.any fun p => p.1 = label then
      .error (.refused "crit lists a header absent from the protected header")
    else if ¬ ((asInteger label).bind tryI64).any understoodLabels.contains then
      .error (.refused "crit marks a header this verifier does not understand (RFC 9052 §3.1)")
    else checkCritLabels protectedHeader labels

/-- `check_crit` -/
def checkCrit (protectedHeader : Dict) : Checked Unit :=
  match findLabel protectedHeader hdrCrit with
  | none => .ok ()
  | some crit =>
    match asArray crit with
    | some (label :: labels) => checkCritLabels protectedHeader (label :: labels)
    | _ => .error (.refused "crit (label 2) must be a non-empty array (RFC 9052 §3.1)")

/-- `encoding::check`, and the finding when it refuses. -/
def checkEncoding (octets : Octets) (what : String) (outerTag : Bool) : Checked Unit := do
  let slice ← toSlice octets
  explain "receipt rejected: " (EncodingRule.Rust.check slice what outerTag)

/-- `verify_receipt`, up to the decoded protected header. -/
def readHeaders (receipt : Octets) : Checked (Sign1 × Dict) :=
  if receipt = [] ∨ maxReceiptOctets < receipt.length then
    .error (.refused s!"receipt size is not 1 to {maxReceiptOctets} octets")
  else do
    let sign1 ← explain "receipt is not a COSE_Sign1 message: " (parseSign1 L receipt)
    let null ← if sign1.payload ≠ .null then .ok false else payloadSlotIsNull L receipt
    if null = false then
      .error (.refused
        "receipt carries an attached payload; this verifier only accepts the detached form")
    else do
      checkEncoding receipt "the receipt" true
      if sign1.protectedBstr = [] then .ok (sign1, [])
      else do
        checkEncoding sign1.protectedBstr "the protected header" false
        match L.ciborium.fromReader sign1.protectedBstr with
        | .ok (.map protectedHeader, _) => .ok (sign1, protectedHeader)
        | _ => .error (.refused "protected header is not a map")

/-- `verify_receipt`, from the decoded headers to the proofs: the code point of the algorithm and the
entries of the inclusion-proofs array. -/
def readProofs (sign1 : Sign1) (protectedHeader : Dict) : Checked (ℤ × List Item) := do
  checkCrit protectedHeader
  let vds ← okOr ((findLabel protectedHeader hdrVds).bind asInteger)
    "protected header missing vds (label 395)"
  let alg ← okOr (findLabel protectedHeader hdrAlg) "protected header missing alg (label 1)"
  let algCode ← okOr ((asInteger alg).bind tryI64)
    "protected header alg is not an integer code point"
  if vds ≠ vdsRfc9162Sha256 then
    .error (.refused ("unsupported verifiable data structure (protected label 395); " ++
      "expected RFC9162_SHA256 (vds=1)"))
  else do
    let vdp ← okOr ((findLabel sign1.unprotected hdrVdp).bind asMap)
      "unprotected vdp (label 396) missing or not a map"
    let proofs ← okOr (((findLabel vdp vdpInclusionProofs).bind asArray).filter fun p => p ≠ [])
      "vdp has no inclusion proofs (key -1)"
    if maxInclusionProofs < proofs.length then
      .error (.refused
        s!"too many inclusion proofs ({proofs.length} > {maxInclusionProofs})")
    else .ok (algCode, proofs)

/-- An entry of the inclusion-proofs array. -/
def readCandidate (proof : Item) : Checked (ℕ × ℕ × List Octets) := do
  let blob ← okOr (asBytes proof) "inclusion proof entry is not a byte string"
  checkEncoding blob "an inclusion proof" false
  decodeInclusionProof L blob

/-- `iat`, within `i64` only. -/
def readIat (protectedHeader : Dict) : Option ℤ := do
  let claims ← (findLabel protectedHeader hdrCwtClaims).bind asMap
  let n ← (findLabel claims cwtClaimIat).bind asInteger
  tryI64 n

/-- `grade` -/
def readGrade (protectedHeader : Dict) : Option String :=
  (findLabel protectedHeader hdrGrade).bind asText

/-! ## Signatures -/

/-- `sig_structure` -/
def sigStructure (protectedBstr payload : Octets) : Checked Octets :=
  unwrap (L.ciborium.intoWriter (sigItem protectedBstr payload)).toOption

/-- The checks of one algorithm: the key is of its kind and the signature of its length. The text of
the library for a key of another kind is left out. -/
def verifyWith (alg : Alg) (publicKeyPem : String) (wrongLength : String) (tbs signature : Octets) :
    Checked Unit :=
  match L.crypto.loadPublicKey publicKeyPem with
  | .error e => .error (.refused s!"could not load {alg.name} public key: {e}")
  | .ok key =>
    if L.crypto.kind key ≠ alg.kind then
      .error (.refused s!"could not load {alg.name} public key: ")
    else if signature.length ≠ 64 then .error (.refused wrongLength)
    else if L.crypto.verify alg key tbs signature = false then
      .error (.refused "signature verification FAILED")
    else .ok ()

/-- `verify_signature` -/
def verifySignature (sign1 : Sign1) (algCode : ℤ) (publicKeyPem : String)
    (detachedPayload : Octets) : Checked Unit := do
  let tbs ← sigStructure L sign1.protectedBstr detachedPayload
  match Alg.ofCode algCode with
  | some .edDSA =>
    verifyWith L .edDSA publicKeyPem "EdDSA signature must be 64 raw bytes" tbs sign1.signature
  | some .es256 =>
    verifyWith L .es256 publicKeyPem
      s!"ES256 COSE signature must be 64 raw bytes (r||s), got {sign1.signature.length}" tbs
      sign1.signature
  | _ => .error (.refused s!"unsupported alg code point {algCode} for verification")

/-! ## The verifier -/

/-- How the loop over the candidates ends. -/
inductive Attempt where
  /-- The signature verified over this candidate's root. -/
  | matched (treeSize leafIndex : ℕ) (root : Octets)
  /-- It verified over none; the first candidate and the last error. -/
  | exhausted (diagnostic : Option (ℕ × ℕ × Octets)) (lastError : Option String)

/-- The loop over the candidates. -/
def tryCandidates (sign1 : Sign1) (algCode : ℤ) (leafEntry : Octets) (publicKeyPem : String) :
    List (ℕ × ℕ × List Octets) → Option (ℕ × ℕ × Octets) → Option String → Checked Attempt
  | [], diagnostic, lastError => .ok (.exhausted diagnostic lastError)
  | (treeSize, leafIndex, auditPath) :: candidates, diagnostic, _ => do
    let computed ← Merkle.Rust.rootFromInclusionProof L.hash leafEntry leafIndex treeSize auditPath
    -- the decoded proof has a validated shape
    let reconstructed ← unwrap computed
    match verifySignature L sign1 algCode publicKeyPem reconstructed with
    | .ok () => .ok (.matched treeSize leafIndex reconstructed)
    | .error .fault => .error .fault
    | .error (.refused error) =>
      tryCandidates sign1 algCode leafEntry publicKeyPem candidates
        (diagnostic.or (some (treeSize, leafIndex, reconstructed))) (some error)

/-- The result of `verify_receipt` for an accepted proof. -/
def accept (protectedHeader : Dict) (treeSize leafIndex : ℕ) (root : Octets) : ReceiptResult :=
  { ok := true
    root := some root
    treeSize := some treeSize
    leafIndex := some leafIndex
    iat := readIat protectedHeader
    grade := readGrade protectedHeader
    witnessTimeEstablished := (readIat protectedHeader).isSome
    gradeCryptographicallyBound := (readGrade protectedHeader).isSome }

/-- The result of `verify_receipt` when the signature verified over no candidate. -/
def refuse (diagnostic : Option (ℕ × ℕ × Octets)) (lastError : String) : ReceiptResult :=
  let result : ReceiptResult :=
    match diagnostic with
    | some (treeSize, leafIndex, root) =>
      { treeSize := some treeSize, leafIndex := some leafIndex, root := some root,
        failedAt := some .signature }
    | none => {}
  (result.fail s!"receipt signature did not verify for any inclusion proof: {lastError}").fail
    claimsWithheld

/-- `verify_receipt`; a refusal is the finding of a step before the signatures. -/
def verifyReceiptSteps (receipt leafEntry : Octets) (logPublicKeyPem : String) :
    Checked ReceiptResult := do
  let (sign1, protectedHeader) ← readHeaders L receipt
  let (algCode, proofs) ← readProofs sign1 protectedHeader
  let candidates ← proofs.mapM (readCandidate L)
  match ← tryCandidates L sign1 algCode leafEntry logPublicKeyPem candidates none none with
  | .matched treeSize leafIndex root => .ok (accept protectedHeader treeSize leafIndex root)
  | .exhausted diagnostic lastError => do
    -- nonempty candidates each produced a signature error
    let lastError ← unwrap lastError
    .ok (refuse diagnostic lastError)

/-- `verify_receipt` -/
def verifyReceipt (receipt leafEntry : Octets) (logPublicKeyPem : String) :
    Checked ReceiptResult :=
  match verifyReceiptSteps L receipt leafEntry logPublicKeyPem with
  | .error (.refused message) => .ok (ReceiptResult.fail {} message)
  | result => result

end Source

/-! ## The message -/

variable {L : Libraries}

theorem exists_headLen (initial : UInt8) : ∃ n, headLen initial = .ok n := by
  rw [headLen]
  split_ifs with h h'
  · exact ⟨_, rfl⟩
  · have hsub : usizeSub (initial.toNat % 32) 24 = .ok (initial.toNat % 32 - 24) := if_pos (by omega)
    have hshl : usizeShl 1 (initial.toNat % 32 - 24) =
        .ok (1 * 2 ^ (initial.toNat % 32 - 24) % 2 ^ 64) := if_pos (by omega)
    have hpow : 2 ^ (initial.toNat % 32 - 24) ≤ 2 ^ 3 := Nat.pow_le_pow_right (by norm_num) (by omega)
    have hadd : usizeAdd 1 (1 * 2 ^ (initial.toNat % 32 - 24) % 2 ^ 64) =
        .ok (1 + 1 * 2 ^ (initial.toNat % 32 - 24) % 2 ^ 64) := if_pos (by omega)
    rw [hsub, ok_bind, hshl, ok_bind, hadd]
    exact ⟨_, rfl⟩
  · exact ⟨_, rfl⟩

theorem exists_skipHead (rest : Octets) : ∃ o, skipHead rest = .ok o := by
  rw [skipHead]
  cases rest.head? with
  | none => exact ⟨_, rfl⟩
  | some initial =>
      obtain ⟨n, hn⟩ := exists_headLen initial
      simp only
      rw [hn, ok_bind]
      cases n with
      | none => exact ⟨_, rfl⟩
      | some n =>
          simp only
          split_ifs with h
          · have hslice : usizeSlice rest n rest.length = .ok (rest.slice n rest.length) :=
              if_pos ⟨h, le_rfl⟩
            rw [hslice]
            exact ⟨_, rfl⟩
          · exact ⟨_, rfl⟩

/-- The scan of the payload slot stays inside the receipt, whatever the octets. -/
theorem exists_payloadSlotIsNull (receipt : Octets) :
    ∃ b, payloadSlotIsNull L receipt = .ok b := by
  rw [payloadSlotIsNull]
  obtain ⟨o, ho⟩ := exists_skipHead receipt
  rw [ho, ok_bind]
  cases o with
  | none => exact ⟨_, rfl⟩
  | some rest =>
      obtain ⟨o', ho'⟩ := exists_skipHead rest
      simp only
      rw [ho', ok_bind]
      cases o' with
      | none => exact ⟨_, rfl⟩
      | some rest' =>
          simp only
          cases (skipItem L rest').bind (skipItem L) with
          | none => exact ⟨_, rfl⟩
          | some left => exact ⟨_, rfl⟩

/-- The four items are there once their number is checked. -/
theorem parseSign1_ne_fault (receipt : Octets) : parseSign1 L receipt ≠ .error .fault := by
  rw [parseSign1]
  split
  · exact nofun
  · split_ifs
    · exact nofun
    split
    · next items =>
        split_ifs with h4
        · exact nofun
        obtain ⟨p, u, payload, s, rfl⟩ := List.length_eq_four.mp (not_not.mp h4)
        simp only [unwrap, ok_bind, List.getElem?_cons_zero, List.getElem?_cons_succ]
        cases asBytes p with
        | none => exact nofun
        | some b =>
            cases asMap u with
            | none => exact nofun
            | some d => cases asBytes s <;> exact nofun
    all_goals exact nofun

/-- The items of a message with the types `parse_sign1` asks for. -/
def sign1Of : Item → Option Sign1
  | .tag 18 (.array [.bytes protectedBstr, .map unprotected, payload, .bytes signature]) =>
    some { protectedBstr, unprotected, payload, signature }
  | _ => none

theorem sign1Of_eq_none {i : Item}
    (h : ∀ p u payload s, i ≠ .tag 18 (.array [.bytes p, .map u, payload, .bytes s])) :
    sign1Of i = none := by
  rw [sign1Of.eq_def]
  split
  · exact absurd rfl (h _ _ _ _)
  · rfl

theorem parseSign1_encode {i : Item} (hi : Grammar true i) :
    Gives (parseSign1 L (encode i)) (sign1Of i) := by
  have hread := L.ciborium.fromReader_encode [] hi
  rw [List.append_nil] at hread
  rw [parseSign1, hread]
  dsimp only
  rw [if_neg (not_not.mpr rfl)]
  split
  · next items =>
      by_cases h4 : items.length = 4
      · rw [if_neg (not_not.mpr h4)]
        obtain ⟨p, u, payload, s, rfl⟩ := List.length_eq_four.mp h4
        simp only [unwrap, ok_bind, List.getElem?_cons_zero, List.getElem?_cons_succ]
        cases p with
        | bytes b =>
            cases u with
            | map d => cases s <;> first | exact .ok _ | exact .refused _
            | _ => exact .refused _
        | _ => exact .refused _
      · rw [if_pos h4, sign1Of_eq_none]
        · exact .refused _
        · rintro p u payload s heq
          obtain ⟨-, heq⟩ := Item.tag.inj heq
          rw [Item.array.inj heq] at h4
          exact h4 rfl
  · next x hne =>
      rw [sign1Of_eq_none fun p u payload s heq => hne _ (Item.tag.inj heq).2]
      exact .refused _
  · next hne =>
      rw [sign1Of_eq_none fun p u payload s heq => hne _ heq]
      exact .refused _

theorem skipHead_cons {x : UInt8} (h : x.toNat % 32 ≤ 23) (rest : Octets) :
    skipHead (x :: rest) = .ok (some rest) := by
  have hlen : headLen x = .ok (some 1) := if_pos (.inl h)
  have hslice : usizeSlice (x :: rest) 1 (rest.length + 1) = .ok rest := by
    rw [usizeSlice, if_pos ⟨by omega, le_rfl⟩, Octets.slice]
    simp
  simp only [skipHead, List.head?_cons, hlen, ok_bind, List.length_cons]
  rw [if_pos (by omega), hslice]
  rfl

/-- The scan finds the null of a detached payload. -/
theorem payloadSlotIsNull_encode {p u s : Item}
    (h : Grammar true (.tag 18 (.array [p, u, .null, s]))) :
    payloadSlotIsNull L (encode (.tag 18 (.array [p, u, .null, s]))) = .ok true := by
  have hp := L.ciborium.fromReader_encode (encode u ++ (0xf6 :: encode s))
    (h.of_mem (x := p) (by simp)).outer
  have hu := L.ciborium.fromReader_encode (0xf6 :: encode s) (h.of_mem (x := u) (by simp)).outer
  have henc : encode (.tag 18 (.array [p, u, .null, s])) =
      0xd2 :: 0x84 :: (encode p ++ (encode u ++ (0xf6 :: encode s))) := by
    simp [encode, encodeList, head, initial]
  rw [henc, payloadSlotIsNull, skipHead_cons (by decide), ok_bind]
  simp only
  rw [skipHead_cons (by decide), ok_bind]
  simp only [skipItem, hp, hu, Option.bind_some]
  rfl

/-- The walk of the encoding rule, on octets a machine holds. -/
theorem checkEncoding_gives {octets : Octets} (hlen : octets.length < 2 ^ 63) (what : String)
    (outerTag : Bool) :
    Gives (checkEncoding octets what outerTag)
      ((EncodingRule.read outerTag octets).map fun _ => ()) := by
  rw [checkEncoding, toSlice_eq hlen, ok_bind]
  exact (EncodingRule.gives_of_check_eq (EncodingRule.Rust.check_eq _ _ _)).explain _

/-- What `verify_receipt` reads of an envelope before its proofs: a map and a signature of octets. -/
def message (receipt : Octets) : Option (Sign1 × Dict) :=
  (Envelope.read receipt).bind fun e =>
    (sign1Of e.item).map fun sign1 => (sign1, e.protectedHeader)

/-- The protected header is decoded as `readHeader` does. -/
theorem readProtected_gives (sign1 : Sign1) (hlen : sign1.protectedBstr.length < 2 ^ 63) :
    Gives (if sign1.protectedBstr = [] then .ok (sign1, [])
      else do
        checkEncoding sign1.protectedBstr "the protected header" false
        match L.ciborium.fromReader sign1.protectedBstr with
        | .ok (.map protectedHeader, _) => .ok (sign1, protectedHeader)
        | _ => .error (.refused "protected header is not a map"))
      ((readHeader sign1.protectedBstr).map fun d => (sign1, d)) := by
  rw [readHeader]
  split_ifs with hnil
  · exact .ok _
  have hcheck := checkEncoding_gives hlen "the protected header" false
  cases h : EncodingRule.read false sign1.protectedBstr with
  | none =>
      rw [h] at hcheck
      obtain ⟨m, hm⟩ := hcheck.exists_refused
      rw [hm]
      exact .refused m
  | some i =>
      rw [h] at hcheck
      obtain ⟨hg, henc⟩ := EncodingRule.read_eq_some_iff.mp h
      have hread := L.ciborium.fromReader_encode [] hg.outer
      rw [List.append_nil, henc] at hread
      rw [hcheck.eq_ok, ok_bind, hread]
      cases i <;> first | exact .ok _ | exact .refused _

theorem readHeaders_gives (receipt : Octets) : Gives (readHeaders L receipt) (message receipt) := by
  rw [readHeaders]
  split_ifs with hsize
  · rw [message]
    have hnone : Envelope.read receipt = none := by
      rcases hsize with rfl | hlong
      · rfl
      · exact if_pos hlong
    rw [hnone]
    exact .refused _
  obtain ⟨hne, hle⟩ := not_or.mp hsize
  have hlen : receipt.length < 2 ^ 63 := by
    rw [maxReceiptOctets] at hle
    omega
  have hcheck := checkEncoding_gives hlen "the receipt" true
  cases h : EncodingRule.read true receipt with
  | none =>
      -- whatever the octets, nothing before the walk faults, and the walk refuses them
      rw [h] at hcheck
      obtain ⟨m, hm⟩ := hcheck.exists_refused
      rw [message, Envelope.read_eq_none h]
      obtain ⟨b, hb⟩ := @exists_payloadSlotIsNull L receipt
      have hparse := @parseSign1_ne_fault L receipt
      cases hp : parseSign1 L receipt with
      | error stop =>
          cases stop with
          | fault => exact absurd hp hparse
          | refused e => exact .refused _
      | ok sign1 =>
          simp only [explain, Except.mapError, ok_bind, hm, hb]
          by_cases hnull : sign1.payload = .null
          · rw [if_neg (not_not.mpr hnull)]
            cases b <;> exact .refused _
          · rw [if_pos hnull]
            exact .refused _
  | some i =>
      rw [h] at hcheck
      obtain ⟨hg, rfl⟩ := EncodingRule.read_eq_some_iff.mp h
      have hitem : ∀ e, Envelope.read (encode i) = some e → e.item = i := by
        intro e he
        rw [Envelope.read_item he] at h
        exact Option.some.inj h
      have hparse := parseSign1_encode (L := L) hg
      cases hs : sign1Of i with
      | none =>
          rw [hs] at hparse
          obtain ⟨m, hm⟩ := hparse.exists_refused
          have hnone : message (encode i) = none := by
            rw [message, Option.bind_eq_none_iff]
            intro e he
            rw [hitem e he, hs]
            rfl
          rw [hm, hnone]
          exact .refused _
      | some sign1 =>
          rw [hs] at hparse
          rw [hparse.eq_ok]
          simp only [explain, Except.mapError, ok_bind, hcheck.eq_ok]
          rw [sign1Of.eq_def] at hs
          split at hs
          · next p u payload s =>
              obtain rfl := Option.some.inj hs
              by_cases hnull : payload = .null
              · subst hnull
                have hmem : Item.bytes p ∈ [Item.bytes p, .map u, .null, .bytes s] := by simp
                have hprot : p.length < 2 ^ 63 := by
                  have h1 := (length_le_encode_bytes p).trans (length_encode_le_of_mem hmem)
                  have h2 := length_le_encode_tag 18 (.array [.bytes p, .map u, .null, .bytes s])
                  omega
                have hread : message (encode (.tag 18 (.array [.bytes p, .map u, .null, .bytes s]))) =
                    (readHeader p).map fun d => (⟨p, u, .null, s⟩, d) := by
                  rw [message, Envelope.read, if_neg (show ¬ maxMessageBytes < _ from hle), h]
                  simp only [Option.bind_map]
                  cases readHeader p <;> rfl
                rw [if_neg (not_not.mpr rfl), payloadSlotIsNull_encode hg, ok_bind, if_neg (by decide),
                  hread]
                exact readProtected_gives ⟨p, u, .null, s⟩ hprot
              · have hread : message (encode (.tag 18 (.array [.bytes p, .map u, payload, .bytes s]))) =
                    none := by
                  rw [message, Option.bind_eq_none_iff]
                  intro e he
                  have hi := hitem e he
                  simp only [Envelope.item, Item.tag.injEq, Item.array.injEq, List.cons.injEq] at hi
                  exact absurd hi.2.2.2.1.symm hnull
                rw [if_pos hnull, if_pos trivial, hread]
                exact .refused _
          · cases hs

/-! ## Headers -/

/-- A label is understood when it is one of the labels of the Python verifier. -/
theorem mem_receiptUnderstood_iff (label : Item) :
    label ∈ receiptUnderstood ↔
      ((asInteger label).bind tryI64).any understoodLabels.contains = true := by
  cases label with
  | int n =>
      simp only [receiptUnderstood, asInteger, Option.bind_some, tryI64, List.mem_cons,
        Item.int.injEq, List.not_mem_nil, or_false, understoodLabels, hdrAlg, hdrCrit, hdrVds,
        hdrCwtClaims]
      split_ifs with h
      · simp only [Option.any_some, List.contains_eq_mem, List.mem_cons, List.not_mem_nil, or_false,
          decide_eq_true_eq]
        omega
      · simp only [Option.any_none, Bool.false_eq_true, iff_false]
        omega
  | _ => simp [receiptUnderstood, asInteger]

theorem checkCritLabels_gives (d : Dict) (labels : List Item) :
    Gives (checkCritLabels d labels)
      (if ∀ label ∈ labels, (d.get label).isSome ∧ label ∈ receiptUnderstood then some ()
        else none) := by
  induction labels with
  | nil => exact .ok ()
  | cons label labels ih =>
      have hpresent : (d.any fun p => p.1 = label) = true ↔ (d.get label).isSome := by
        rw [Dict.get, List.lookup_isSome_iff, List.any_eq_true]
        refine exists_congr fun p => and_congr_right fun _ => ?_
        rw [decide_eq_true_eq, beq_iff_eq, eq_comm]
      simp only [checkCritLabels, List.forall_mem_cons]
      by_cases hkind : (asInteger label).isNone ∧ (asText label).isNone
      · rw [if_pos hkind, if_neg]
        · exact .refused _
        · rintro ⟨⟨-, hund⟩, -⟩
          rw [mem_receiptUnderstood_iff, Option.isNone_iff_eq_none.mp hkind.1] at hund
          cases hund
      rw [if_neg hkind]
      by_cases hget : (d.get label).isSome
      · rw [if_neg (not_not.mpr (hpresent.mpr hget))]
        by_cases hund : label ∈ receiptUnderstood
        · rw [if_neg (not_not.mpr ((mem_receiptUnderstood_iff label).mp hund))]
          simp only [hget, hund, and_self, true_and]
          exact ih
        · rw [if_pos (mt (mem_receiptUnderstood_iff label).mpr hund), if_neg fun h => hund h.1.2]
          exact .refused _
      · rw [if_pos (mt hpresent.mp hget), if_neg fun h => hget h.1.1]
        exact .refused _

/-- `check_crit` decides what the Python check does. -/
theorem checkCrit_gives (h : Headers) :
    Gives (checkCrit h.protectedHeader)
      (if h.Critical receiptUnderstood then some () else none) :=
  Headers.critical_gives _ (checkCritLabels_gives h.protectedHeader)

/-- The entries `verify_receipt` goes on with, and the algorithm. -/
def acceptedEntries (h : Headers) : Option (ℤ × List Item) :=
  if h.Critical receiptUnderstood ∧ h.vds = some vdsRfc9162Sha256 then
    (h.alg.bind tryI64).bind fun algCode =>
      ((h.entries proofSlot).filter fun ps => ps.length ≤ maxInclusionProofs).map fun ps =>
        (algCode, ps)
  else none

theorem readProofs_gives {h : Headers} {sign1 : Sign1} (hu : h.unprotected = .map sign1.unprotected) :
    Gives (readProofs sign1 h.protectedHeader) (acceptedEntries h) := by
  have hvds : (findLabel h.protectedHeader hdrVds).bind asInteger = h.vds := by
    rw [findLabel, Headers.vds]
    cases h.protectedHeader.get (.int hdrVds) with
    | none => rfl
    | some value => cases value <;> rfl
  have halg : ∀ {β : Type} (f : ℤ → Option β), ((findLabel h.protectedHeader hdrAlg).bind fun alg =>
      ((asInteger alg).bind tryI64).bind f) = (h.alg.bind tryI64).bind f := by
    intro β f
    rw [findLabel, Headers.alg]
    cases h.protectedHeader.get (.int hdrAlg) with
    | none => rfl
    | some value => cases value <;> rfl
  have hentries : ∀ {β : Type} (f : List Item → Option β),
      (((findLabel sign1.unprotected hdrVdp).bind asMap).bind fun vdp =>
        (((findLabel vdp vdpInclusionProofs).bind asArray).filter fun p => p ≠ []).bind f) =
        (h.entries proofSlot).bind f := by
    intro β f
    rw [Headers.entries, hu]
    simp only [findLabel, proofSlot]
    cases Dict.get sign1.unprotected (.int hdrVdp) with
    | none => rfl
    | some vdp =>
        cases vdp with
        | map vdp =>
            simp only [Option.bind_some, asMap]
            cases Dict.get vdp (.int vdpInclusionProofs) with
            | none => rfl
            | some proofs =>
                cases proofs with
                | array ps => cases ps <;> rfl
                | _ => rfl
        | _ => rfl
  -- the steps of `readProofs`, each with the value it gives
  have hsteps : Gives (readProofs sign1 h.protectedHeader)
      ((if h.Critical receiptUnderstood then some () else none).bind fun _ =>
        ((findLabel h.protectedHeader hdrVds).bind asInteger).bind fun vds =>
        (findLabel h.protectedHeader hdrAlg).bind fun alg =>
        ((asInteger alg).bind tryI64).bind fun algCode =>
        if vds ≠ vdsRfc9162Sha256 then none
        else
          ((findLabel sign1.unprotected hdrVdp).bind asMap).bind fun vdp =>
          (((findLabel vdp vdpInclusionProofs).bind asArray).filter fun p => p ≠ []).bind fun proofs =>
          if maxInclusionProofs < proofs.length then none else some (algCode, proofs)) := by
    refine (checkCrit_gives h).bind fun _ _ => ?_
    refine (Gives.okOr _ _).bind fun vds _ => ?_
    refine (Gives.okOr _ _).bind fun alg _ => ?_
    refine (Gives.okOr _ _).bind fun algCode _ => ?_
    refine Gives.ite (fun _ => .refused _) fun _ => ?_
    refine (Gives.okOr _ _).bind fun vdp _ => ?_
    refine (Gives.okOr _ _).bind fun proofs _ => ?_
    exact Gives.ite (fun _ => .refused _) fun _ => .ok _
  have hcap : ∀ algCode : ℤ, ((h.entries proofSlot).bind fun ps =>
      if maxInclusionProofs < ps.length then none else some (algCode, ps)) =
        ((h.entries proofSlot).filter fun ps => ps.length ≤ maxInclusionProofs).map fun ps =>
          (algCode, ps) := by
    intro algCode
    cases h.entries proofSlot with
    | none => rfl
    | some ps =>
        rw [Option.bind_some, Option.filter_some]
        by_cases hlen : maxInclusionProofs < ps.length
        · rw [if_pos hlen, if_neg (by simpa using hlen)]
          rfl
        · rw [if_neg hlen, if_pos (by simpa using hlen)]
          rfl
  convert hsteps using 1
  rw [acceptedEntries, hvds]
  by_cases hcrit : h.Critical receiptUnderstood
  · rw [if_pos hcrit, Option.bind_some]
    cases hv : h.vds with
    | none => rw [if_neg (by simp), Option.bind_none]
    | some vds =>
        rw [Option.bind_some, halg]
        by_cases h1 : vds = vdsRfc9162Sha256
        · rw [if_pos ⟨hcrit, congrArg some h1⟩]
          refine Option.bind_congr fun algCode _ => ?_
          rw [if_neg (not_not.mpr h1), hentries, hcap]
        · rw [if_neg fun h => h1 (Option.some.inj h.2)]
          simp [h1]
  · rw [if_neg fun h => hcrit h.1, if_neg hcrit]
    rfl

/-! ## Proofs -/

theorem proofNumber_int {n : ℤ} (h0 : 0 ≤ n) (h : n < 2 ^ 64) (message : String) :
    proofNumber (.int n) message = .ok n.toNat := by
  have hfilter : (asInteger (.int n)).filter (fun n => 0 ≤ n) = some n := by
    rw [asInteger, Option.filter_some, if_pos (by simpa using h0)]
  rw [proofNumber, hfilter, okOr, ok_bind, asU64, Int.emod_eq_of_lt h0 h]

theorem proofNumber_of_neg {n : ℤ} (h : n < 0) (message : String) :
    proofNumber (.int n) message = .error (.refused message) := by
  have hfilter : (asInteger (.int n)).filter (fun n => 0 ≤ n) = none := by
    rw [asInteger, Option.filter_some, if_neg (by simpa using h)]
  rw [proofNumber, hfilter]
  rfl

theorem proofNode_gives (node : Item) :
    Gives (proofNode node) ((asBytes node).filter fun b => b.length = 32) := by
  rw [proofNode]
  cases asBytes node with
  | none => exact .refused _
  | some b =>
      simp only [okOr, ok_bind, Option.filter_some]
      by_cases h : b.length = 32
      · rw [if_neg (not_not.mpr h), if_pos (by simpa using h)]
        exact .ok b
      · rw [if_pos h, if_neg (by simpa using h)]
        exact .refused _

/-- No candidate has a negative number, or a path longer than 64. -/
theorem read_eq_none_of_not_shape {n m : ℤ} {path : List Item}
    (h : ∀ nodes, path.mapM asBytes = some nodes → ¬ Candidate.Shape n m nodes) :
    Candidate.read asBytes (.array [.int n, .int m, .array path]) = none := by
  rw [Candidate.read, Option.bind_eq_none_iff]
  intro nodes hnodes
  exact dif_neg (h nodes hnodes)

/-- The checks of `decode_inclusion_proof` on the numbers and the nodes of a proof. -/
theorem decodeInclusionProof_gives_array {n m : ℤ} {path : List Item}
    (hi : Grammar false (.array [.int n, .int m, .array path])) :
    Gives (decodeInclusionProof L (encode (.array [.int n, .int m, .array path])))
      ((Candidate.read asBytes (.array [.int n, .int m, .array path])).map Candidate.parts) := by
  have hread := L.ciborium.fromReader_encode [] hi.outer
  rw [List.append_nil] at hread
  have hplain := EncodingRule.plainList_iff.mp hi.1.2
  have hn : n < 2 ^ 64 := (hplain (.int n) (by simp)).2
  have hm : m < 2 ^ 64 := (hplain (.int m) (by simp)).2
  rw [decodeInclusionProof, hread]
  dsimp only
  rw [if_neg (not_not.mpr rfl)]
  simp only [asArray, okOr, ok_bind, unwrap, List.getElem?_cons_zero, List.getElem?_cons_succ]
  rw [if_neg (by simp)]
  by_cases h0 : 0 ≤ n ∧ 0 ≤ m
  · rw [proofNumber_int h0.1 hn, ok_bind, proofNumber_int h0.2 hm, ok_bind]
    by_cases hcap : maxAuditPath < path.length
    · rw [if_pos hcap, read_eq_none_of_not_shape]
      · exact .refused _
      · intro nodes hnodes hshape
        have := Candidate.length_auditPath_le ⟨_, _, nodes, hshape.lt, hshape.le, hshape.length,
          hshape.node⟩
        rw [← Octets.length_of_mapM hnodes, maxAuditPath] at hcap
        simp only at this
        omega
    rw [if_neg hcap]
    have hnodes : Gives (path.mapM proofNode)
        ((path.mapM asBytes).filter fun nodes => nodes.all fun b => b.length = 32) := by
      rw [← Octets.mapM_filter]
      exact Gives.mapM fun node _ => proofNode_gives node
    cases hbytes : path.mapM asBytes with
    | none =>
        rw [hbytes] at hnodes
        obtain ⟨e, he⟩ := hnodes.exists_refused
        rw [he, read_eq_none_of_not_shape fun nodes h => by rw [hbytes] at h; cases h]
        exact .refused _
    | some nodes =>
        rw [hbytes, Option.filter_some] at hnodes
        by_cases h32 : ∀ b ∈ nodes, b.length = 32
        · rw [if_pos (by simpa using h32)] at hnodes
          rw [hnodes.eq_ok, ok_bind, Candidate.read, hbytes, Option.bind_some]
          by_cases hrange : m < n ∧ n ≤ 2 ^ 62
          · have hlt : m.toNat < n.toNat := by omega
            have hle : n.toNat ≤ 2 ^ 62 := by omega
            rw [if_neg (by rw [Merkle.Rust.maxTreeSize]; omega),
              Merkle.Rust.expectedInclusionPathLen_eq hlt hle, ok_bind]
            by_cases hlen : nodes.length = Merkle.expectedInclusionPathLen n.toNat m.toNat
            · rw [if_neg (not_not.mpr hlen), dif_pos ⟨h0.2, hrange.1, hrange.2, hlen, h32⟩]
              exact .ok _
            · rw [if_pos hlen, dif_neg fun h => hlen h.length]
              exact .refused _
          · rw [if_pos (by rw [Merkle.Rust.maxTreeSize]; omega),
              dif_neg fun h => hrange ⟨h.2.1, h.2.2.1⟩]
            exact .refused _
        · rw [if_neg (by simpa using h32)] at hnodes
          obtain ⟨e, he⟩ := hnodes.exists_refused
          rw [he, read_eq_none_of_not_shape]
          · exact .refused _
          · intro nodes' h hshape
            rw [hbytes] at h
            cases h
            exact h32 hshape.node
  · rw [read_eq_none_of_not_shape fun nodes _ hshape => h0 (by
      obtain ⟨hm0, hmn, -⟩ := hshape
      omega)]
    by_cases hn0 : 0 ≤ n
    · rw [proofNumber_int hn0 hn, ok_bind, proofNumber_of_neg (by omega)]
      exact .refused _
    · rw [proofNumber_of_neg (by omega)]
      exact .refused _

/-- `decode_inclusion_proof` reads the proofs with the shape of one. -/
theorem decodeInclusionProof_gives {i : Item} (hi : Grammar false i) :
    Gives (decodeInclusionProof L (encode i))
      ((Candidate.read asBytes i).map Candidate.parts) := by
  by_cases hshape : ∃ n m path, i = .array [.int n, .int m, .array path]
  · obtain ⟨n, m, path, rfl⟩ := hshape
    exact decodeInclusionProof_gives_array hi
  have hnone : Candidate.read asBytes i = none :=
    Candidate.read_eq_none fun n m path h => hshape ⟨n, m, path, h⟩
  have hread := L.ciborium.fromReader_encode [] hi.outer
  rw [List.append_nil] at hread
  rw [hnone, decodeInclusionProof, hread]
  dsimp only
  rw [if_neg (not_not.mpr rfl)]
  cases i with
  | array arr =>
      simp only [asArray, okOr, ok_bind]
      by_cases h3 : arr.length = 3
      · rw [if_neg (not_not.mpr h3)]
        obtain ⟨a, b, c, rfl⟩ := List.length_eq_three.mp h3
        simp only [unwrap, List.getElem?_cons_zero, List.getElem?_cons_succ, ok_bind]
        have hplain := EncodingRule.plainList_iff.mp hi.1.2
        cases a with
        | int n =>
            by_cases hn0 : 0 ≤ n
            · rw [proofNumber_int hn0 (hplain (.int n) (by simp)).2, ok_bind]
              cases b with
              | int m =>
                  by_cases hm0 : 0 ≤ m
                  · rw [proofNumber_int hm0 (hplain (.int m) (by simp)).2, ok_bind]
                    cases c with
                    | array path => exact absurd ⟨n, m, path, rfl⟩ hshape
                    | _ => exact .refused _
                  · rw [proofNumber_of_neg (by omega)]
                    exact .refused _
              | _ => exact .refused _
            · rw [proofNumber_of_neg (by omega)]
              exact .refused _
        | _ => exact .refused _
      · rw [if_pos h3]
        exact .refused _
  | _ => exact .refused _

theorem readCandidate_gives {proof : Item} (hlen : ∀ b, proof = .bytes b → b.length < 2 ^ 63) :
    Gives (readCandidate L proof)
      (((readProof proof).bind (Candidate.read asBytes)).map Candidate.parts) := by
  cases proof with
  | bytes blob =>
      have hcheck := checkEncoding_gives (hlen blob rfl) "an inclusion proof" false
      have hproof : readProof (.bytes blob) = EncodingRule.read false blob := rfl
      simp only [readCandidate, asBytes, okOr, ok_bind, hproof]
      cases h : EncodingRule.read false blob with
      | none =>
          rw [h] at hcheck
          obtain ⟨e, he⟩ := hcheck.exists_refused
          rw [he]
          exact .refused _
      | some i =>
          rw [h] at hcheck
          obtain ⟨hg, rfl⟩ := EncodingRule.read_eq_some_iff.mp h
          rw [hcheck.eq_ok, ok_bind]
          exact decodeInclusionProof_gives hg
  | _ => exact .refused _

/-! ## Signatures -/

/-- Writing a Sig_structure cannot fail. -/
theorem sigStructure_eq (protectedBstr payload : Octets) :
    sigStructure L protectedBstr payload = .ok (encode (sigItem protectedBstr payload)) := by
  have hw : Writable (sigItem protectedBstr payload) := by simp [sigItem, Writable, WritableList]
  rw [sigStructure, L.ciborium.intoWriter_eq hw]
  rfl

/-- A key of another kind, or a signature of another length, verifies nothing. -/
theorem verifyWith_gives {alg : Alg} (h64 : alg.signatureLength = 64) (publicKeyPem wrongLength : String)
    (tbs signature : Octets) :
    Gives (verifyWith L alg publicKeyPem wrongLength tbs signature)
      (bif (L.crypto.loadPublicKey publicKeyPem).toOption.any fun key =>
          L.crypto.verify alg key tbs signature then some () else none) := by
  rw [verifyWith]
  cases L.crypto.loadPublicKey publicKeyPem with
  | error e => exact .refused _
  | ok key =>
      simp only [Except.toOption, Option.any_some]
      cases hv : L.crypto.verify alg key tbs signature with
      | true =>
          have hlen := L.crypto.length_of_verify hv
          rw [if_neg (not_not.mpr (L.crypto.kind_of_verify hv)), if_neg (by omega), if_neg (by simp)]
          exact .ok ()
      | false =>
          rw [if_pos rfl]
          split_ifs <;> exact .refused _

/-- The signature of an envelope verifies under an algorithm this verifier knows. -/
def verifies (C : Crypto) (publicKeyPem : String) (e : Envelope) (root : Octets) : Bool :=
  e.alg.bind Alg.ofCode ≠ some .es384 && e.verifies C publicKeyPem root

theorem verifySignature_gives {e : Envelope} {sign1 : Sign1} {algCode : ℤ}
    (hprot : sign1.protectedBstr = e.protectedBstr) (hsig : e.signature = .bytes sign1.signature)
    (halg : e.alg = some algCode) (publicKeyPem : String) (root : Octets) :
    Gives (verifySignature L sign1 algCode publicKeyPem root)
      (bif verifies L.crypto publicKeyPem e root then some () else none) := by
  have hverifies : ∀ alg, Alg.ofCode algCode = some alg →
      e.verifies L.crypto publicKeyPem root =
        (L.crypto.loadPublicKey publicKeyPem).toOption.any fun key =>
          L.crypto.verify alg key (encode (sigItem e.protectedBstr root)) sign1.signature := by
    intro alg hcode
    rw [Envelope.verifies, hsig, halg, Option.bind_some, hcode]
    cases L.crypto.loadPublicKey publicKeyPem <;> rfl
  rw [verifySignature, sigStructure_eq, ok_bind, hprot, verifies, halg, Option.bind_some]
  cases hcode : Alg.ofCode algCode with
  | none =>
      have hfalse : e.verifies L.crypto publicKeyPem root = false := by
        rw [Envelope.verifies, hsig, halg, Option.bind_some, hcode]
      rw [hfalse]
      exact .refused _
  | some alg =>
      rw [hverifies alg hcode]
      cases alg with
      | edDSA => exact verifyWith_gives rfl _ _ _ _
      | es256 => exact verifyWith_gives rfl _ _ _ _
      | es384 => exact .refused _

/-! ## The verifier -/

/-- What the loop over the candidates finds: the first whose root verifies, or the first of all as a
diagnostic. -/
theorem tryCandidates_eq {e : Envelope} {sign1 : Sign1} {algCode : ℤ}
    (hprot : sign1.protectedBstr = e.protectedBstr) (hsig : e.signature = .bytes sign1.signature)
    (halg : e.alg = some algCode) (leafEntry : Octets) (publicKeyPem : String)
    (cs : List Candidate) (diagnostic : Option (ℕ × ℕ × Octets)) (lastError : Option String) :
    ∃ error : Option String, error.isSome = (lastError.isSome || !cs.isEmpty) ∧
      tryCandidates L sign1 algCode leafEntry publicKeyPem (cs.map Candidate.parts) diagnostic
          lastError =
        .ok (match cs.find? fun c => verifies L.crypto publicKeyPem e (c.root L.hash leafEntry) with
          | some c => .matched c.treeSize c.leafIndex (c.root L.hash leafEntry)
          | none => .exhausted (diagnostic.or (cs.head?.map fun c =>
              (c.treeSize, c.leafIndex, c.root L.hash leafEntry))) error) := by
  induction cs generalizing diagnostic lastError with
  | nil => exact ⟨lastError, by simp, by simp [tryCandidates]⟩
  | cons c cs ih =>
      have hroot : Merkle.Rust.rootFromInclusionProof L.hash leafEntry c.leafIndex c.treeSize
          c.auditPath = .ok (some (c.root L.hash leafEntry)) := by
        rw [Merkle.Rust.rootFromInclusionProof_eq, c.rootOfProof_eq]
      have hverify := verifySignature_gives (L := L) hprot hsig halg publicKeyPem
        (c.root L.hash leafEntry)
      rw [List.map_cons, Candidate.parts, tryCandidates, hroot, ok_bind]
      simp only [unwrap, ok_bind, List.find?_cons]
      cases hv : verifies L.crypto publicKeyPem e (c.root L.hash leafEntry) with
      | true =>
          rw [hv] at hverify
          rw [hverify.eq_ok]
          exact ⟨some "", by simp, rfl⟩
      | false =>
          rw [hv] at hverify
          obtain ⟨error, herror⟩ := hverify.exists_refused
          obtain ⟨last, hlast, hcs⟩ := ih (diagnostic.or
            (some (c.treeSize, c.leafIndex, c.root L.hash leafEntry))) (some error)
          rw [herror]
          refine ⟨last, by simpa using hlast, hcs.trans ?_⟩
          cases diagnostic <;> rfl

/-- The envelopes whose headers this verifier admits: a map, a signature of octets, critical labels it
understands, `vds` 1 and an algorithm within `i64`. -/
def Admitted (e : Envelope) : Prop :=
  (asMap e.unprotected).isSome ∧ (asBytes e.signature).isSome ∧ e.Critical receiptUnderstood ∧
    e.vds = some vdsRfc9162Sha256 ∧ (e.alg.bind tryI64).isSome

instance (e : Envelope) : Decidable (Admitted e) := inferInstanceAs (Decidable (_ ∧ _ ∧ _ ∧ _ ∧ _))

/-- What `verify_receipt` returns when a part refuses. -/
theorem verifyReceipt_of_refused {receipt leafEntry : Octets} {logPublicKeyPem message : String}
    (h : verifyReceiptSteps L receipt leafEntry logPublicKeyPem = .error (.refused message)) :
    verifyReceipt L receipt leafEntry logPublicKeyPem = .ok (ReceiptResult.fail {} message) := by
  rw [verifyReceipt, h]

theorem sign1Of_item_eq_some {e : Envelope} {sign1 : Sign1} (h : sign1Of e.item = some sign1) :
    e.unprotected = .map sign1.unprotected ∧ e.signature = .bytes sign1.signature ∧
      sign1.protectedBstr = e.protectedBstr := by
  rw [sign1Of.eq_def] at h
  split at h
  · next p u payload s heq =>
      obtain rfl := Option.some.inj h
      simp only [Envelope.item, Item.tag.injEq, Item.array.injEq, List.cons.injEq,
        Item.bytes.injEq] at heq
      exact ⟨heq.2.2.1, heq.2.2.2.2.1, heq.2.1.symm⟩
  · cases h

theorem sign1Of_eq_none_of_not {e : Envelope} (h : sign1Of e.item = none) : ¬ Admitted e := by
  rintro ⟨hu, hsig, -⟩
  rw [Envelope.item, EncodingRule.coseSign1Tag] at h
  cases hmap : e.unprotected with
  | map u =>
      cases hbytes : e.signature with
      | bytes s => rw [hmap, hbytes] at h; cases h
      | _ => rw [hbytes] at hsig; cases hsig
  | _ => rw [hmap] at hu; cases hu

/-- The entries that are accepted are those of an admitted envelope. -/
theorem acceptedEntries_bind {e : Envelope} {sign1 : Sign1} (hu : e.unprotected = .map sign1.unprotected)
    (hsig : e.signature = .bytes sign1.signature) :
    ((acceptedEntries e.toHeaders).bind fun q => q.2.mapM (readEntry asBytes)) =
      if Admitted e then e.candidates proofSlot asBytes else none := by
  have hadmitted : Admitted e ↔ (e.Critical receiptUnderstood ∧ e.vds = some vdsRfc9162Sha256) ∧
      (e.alg.bind tryI64).isSome := by
    rw [Admitted, hu, hsig]
    simp [asMap, asBytes, and_assoc]
  rw [acceptedEntries]
  by_cases hc : e.Critical receiptUnderstood ∧ e.vds = some vdsRfc9162Sha256
  · rw [if_pos hc]
    cases halg : e.alg.bind tryI64 with
    | none =>
        rw [if_neg fun h => by rw [hadmitted, halg] at h; cases h.2]
        rfl
    | some algCode =>
        rw [if_pos (hadmitted.mpr ⟨hc, by rw [halg]; rfl⟩), e.candidates_eq_entries, Option.bind_some,
          Option.bind_map]
        rfl
  · rw [if_neg hc, if_neg fun h => hc (hadmitted.mp h).1]
    rfl

theorem alg_of_acceptedEntries {h : Headers} {q : ℤ × List Item} (hq : acceptedEntries h = some q) :
    h.alg = some q.1 ∧ h.entries proofSlot = some q.2 := by
  rw [acceptedEntries] at hq
  split_ifs at hq
  simp only [Option.bind_eq_some_iff, Option.map_eq_some_iff, Option.filter_eq_some_iff, tryI64] at hq
  obtain ⟨algCode, ⟨n, hn, hrange⟩, ps, ⟨hps, -⟩, rfl⟩ := hq
  split_ifs at hrange
  obtain rfl := Option.some.inj hrange
  exact ⟨hn, hps⟩

/-- No step of `verify_receipt` faults on octets that carry an envelope, and its verdict is the outcome
over the candidates. The time of an accepted receipt is the one the Python verifier reads. -/
theorem verifyReceipt_of_read {receipt : Octets} {e : Envelope} (he : Envelope.read receipt = some e)
    (leafEntry : Octets) (logPublicKeyPem : String) :
    ∃ r, verifyReceipt L receipt leafEntry logPublicKeyPem = .ok r ∧
      r.verdict = verdictOver L.hash leafEntry (verifies L.crypto logPublicKeyPem e)
        (if Admitted e then e.candidates proofSlot asBytes else none) ∧
      (r.ok = true → r.iat = readIat e.protectedHeader) := by
  have hrefused : ∀ message,
      verifyReceiptSteps L receipt leafEntry logPublicKeyPem = .error (.refused message) →
      (if Admitted e then e.candidates proofSlot asBytes else none) = none →
      ∃ r, verifyReceipt L receipt leafEntry logPublicKeyPem = .ok r ∧
        r.verdict = verdictOver L.hash leafEntry (verifies L.crypto logPublicKeyPem e)
          (if Admitted e then e.candidates proofSlot asBytes else none) ∧
        (r.ok = true → r.iat = readIat e.protectedHeader) := by
    intro message h hnone
    refine ⟨_, verifyReceipt_of_refused h, ?_, fun hok => absurd hok Bool.false_ne_true⟩
    rw [hnone]
    rfl
  have hheaders := readHeaders_gives (L := L) receipt
  rw [message, he, Option.bind_some] at hheaders
  cases hs : sign1Of e.item with
  | none =>
      rw [hs] at hheaders
      obtain ⟨m, hm⟩ := hheaders.exists_refused
      refine hrefused m ?_ (if_neg (sign1Of_eq_none_of_not hs))
      rw [verifyReceiptSteps, hm]
      rfl
  | some sign1 =>
      rw [hs] at hheaders
      obtain ⟨hu, hsig, hprot⟩ := sign1Of_item_eq_some hs
      have hproofs := readProofs_gives (h := e.toHeaders) hu
      have hcands := acceptedEntries_bind hu hsig
      cases ha : acceptedEntries e.toHeaders with
      | none =>
          rw [ha] at hproofs hcands
          obtain ⟨m, hm⟩ := hproofs.exists_refused
          refine hrefused m ?_ hcands.symm
          rw [verifyReceiptSteps, hheaders.eq_ok, ok_bind]
          simp only
          rw [hm]
          rfl
      | some q =>
          rw [ha] at hproofs hcands
          obtain ⟨halg, hps⟩ := alg_of_acceptedEntries ha
          have hblobs : Gives (q.2.mapM (readCandidate L))
              ((q.2.mapM (readEntry asBytes)).map (List.map Candidate.parts)) := by
            rw [← Octets.mapM_map]
            refine Gives.mapM fun p hp => readCandidate_gives fun b hb => ?_
            subst hb
            obtain ⟨hlen, -, henc, -⟩ := Envelope.read_eq_some_iff.mp he
            have h1 := length_le_encode_bytes b
            have h2 := Headers.length_encode_le_of_entries
              (fun vdp v hv => ⟨_, Dict.mem_of_get hv⟩) hps hp
            have h3 := e.length_encode_le (x := e.unprotected) (by simp)
            rw [henc] at h3
            rw [maxMessageBytes] at hlen
            omega
          have hsteps := verifyReceiptSteps.eq_1 L receipt leafEntry logPublicKeyPem
          rw [hheaders.eq_ok, ok_bind] at hsteps
          simp only at hsteps
          rw [hproofs.eq_ok, ok_bind] at hsteps
          rw [Option.bind_some] at hcands
          cases hcs : q.2.mapM (readEntry asBytes) with
          | none =>
              rw [hcs] at hblobs hcands
              obtain ⟨m, hm⟩ := hblobs.exists_refused
              refine hrefused m ?_ hcands.symm
              rw [hsteps, hm]
              rfl
          | some cs =>
              rw [hcs] at hblobs hcands
              obtain ⟨error, hsome, htry⟩ := @tryCandidates_eq L e sign1 q.1 hprot hsig halg leafEntry
                logPublicKeyPem cs none none
              have hne : cs ≠ [] := by
                rintro rfl
                have := Octets.length_of_mapM hcs
                exact Headers.ne_nil_of_entries hps (List.length_eq_zero_iff.mp this.symm)
              rw [hblobs.eq_ok, ok_bind, htry, ok_bind] at hsteps
              rw [← hcands, verdictOver, outcome.eq_def]
              rw [verifyReceipt]
              cases hfind : cs.find? fun c =>
                  verifies L.crypto logPublicKeyPem e (c.root L.hash leafEntry) with
              | some c =>
                  rw [hfind] at hsteps
                  rw [hsteps]
                  exact ⟨_, rfl, rfl, fun _ => rfl⟩
              | none =>
                  rw [hfind] at hsteps
                  obtain ⟨c, cs, rfl⟩ := List.exists_cons_of_ne_nil hne
                  obtain ⟨text, rfl⟩ := Option.isSome_iff_exists.mp (hsome.trans (by simp))
                  rw [hsteps]
                  exact ⟨_, rfl, rfl, fun hok => absurd hok Bool.false_ne_true⟩

/-- Octets that carry no envelope are malformed. -/
theorem verifyReceipt_of_read_none {receipt : Octets} (h : Envelope.read receipt = none)
    (leafEntry : Octets) (logPublicKeyPem : String) :
    ∃ r, verifyReceipt L receipt leafEntry logPublicKeyPem = .ok r ∧ r.verdict = .malformed ∧
      r.ok = false := by
  have hheaders := readHeaders_gives (L := L) receipt
  rw [message, h] at hheaders
  obtain ⟨m, hm⟩ := hheaders.exists_refused
  have hrefused : verifyReceiptSteps L receipt leafEntry logPublicKeyPem = .error (.refused m) := by
    rw [verifyReceiptSteps, hm]
    rfl
  exact ⟨_, verifyReceipt_of_refused hrefused, rfl, rfl⟩

/-- `verify_receipt` never panics: whatever the octets, the leaf and the key, it returns a result. -/
theorem verifyReceipt_returns (L : Libraries) (receipt leafEntry : Octets) (logPublicKeyPem : String) :
    ∃ r, verifyReceipt L receipt leafEntry logPublicKeyPem = .ok r := by
  cases h : Envelope.read receipt with
  | none =>
      obtain ⟨r, hr, -⟩ := @verifyReceipt_of_read_none L receipt h leafEntry logPublicKeyPem
      exact ⟨r, hr⟩
  | some e =>
      obtain ⟨r, hr, -⟩ := @verifyReceipt_of_read L receipt e h leafEntry logPublicKeyPem
      exact ⟨r, hr⟩

end ScittCose.Receipt.Rust
