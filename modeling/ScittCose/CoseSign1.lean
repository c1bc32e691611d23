import ScittCose.EncodingRule.Walk
import ScittCose.Libraries

/-!
# COSE_Sign1 (`scitt_cose/cose_sign1.py`)

The strict decode, the critical-header check, signing and verification. A `CoseError` is its text;
what else a function may raise is named by its exception (`Raised`).

`strictDecode_encode` says the strict decode refuses no message whose octets and protected header
meet the receipt encoding rule.
-/

namespace ScittCose

open Cbor
open EncodingRule (IsKey Plain Grammar)

/-- A decoded CBOR map, pairs in the order of the octets. -/
abbrev Dict := List (Item × Item)

/-- `d.get(key)`. The keys are integers and text wherever this is used, so that equal keys are equal
items. -/
def Dict.get (d : Dict) (key : Item) : Option Item := List.lookup key d

/-- What a signing function raises. -/
inductive Raised where
  | coseError (message : String)
  | other (exception : String)
deriving DecidableEq

/-! ## Constants -/

/-- `HDR_ALG` -/
def hdrAlg : ℤ := 1

/-- `HDR_CRIT` -/
def hdrCrit : ℤ := 2

/-- `MAX_MESSAGE_BYTES` -/
def maxMessageBytes : ℕ := 10 * 1024 * 1024

/-- `_ECDSA`: the algorithm of a code point, its curve and the octets of `r` and `s`. -/
def ecdsa : ℤ → Option (Alg × Curve × ℕ)
  | -7 => some (.es256, .p256, 32)
  | -35 => some (.es384, .p384, 48)
  | _ => none

section Source

variable (L : Libraries)

/-! ## Decoding -/

/-- `_strict_decode_item` -/
def strictDecodeItem (raw : Octets) (what : String) : Except String Item :=
  match L.cbor2.decode raw with
  | .error e => .error s!"{what} is not valid CBOR ({e})"
  | .ok (value, _) =>
    match L.cbor2.dumpsCanonical value with
    | .error e => .error s!"{what} could not be re-encoded ({e})"
    | .ok recanonical =>
      -- the length, not the octets, is compared: reordering the keys of a map keeps it
      if recanonical.length < raw.length ∧ recanonical <+: raw then
        .error (s!"trailing bytes after {what} ({raw.length - recanonical.length} extra)" ++
          " — rejected as malleable")
      else if recanonical.length ≠ raw.length then
        .error (s!"non-deterministic {what} (indefinite-length, non-minimal, or " ++
          "duplicate keys) — rejected as malleable")
      else .ok value

/-- `strict_decode` -/
def strictDecode (data : Octets) : Except String Item :=
  if maxMessageBytes < data.length then
    .error s!"COSE message too large ({data.length} > {maxMessageBytes} bytes)"
  else
    match strictDecodeItem L data "the COSE_Sign1 message" with
    | .error e => .error e
    | .ok (.tag n x) =>
      match x with
      | .array [.bytes prot, _, _, _] =>
        -- an empty protected header is not CBOR
        if prot = [] then .ok (.tag n x)
        else
          match strictDecodeItem L prot "the protected header" with
          | .error e => .error e
          | .ok _ => .ok (.tag n x)
      | _ => .ok (.tag n x)
    | .ok _ => .error "top-level value is not a CBOR tag; expected COSE_Sign1 (tag 18)"

/-- `_decode_envelope`: protected header, unprotected header, payload and signature. -/
def decodeEnvelope (msg : Octets) : Except String (Item × Item × Item × Item) :=
  match strictDecode L msg with
  | .error e => .error e
  | .ok (.tag 18 (.array [protectedBstr, unprotected, payloadSlot, signature])) =>
    .ok (protectedBstr, unprotected, payloadSlot, signature)
  | .ok (.tag 18 _) =>
    .error ("COSE_Sign1 value must be a 4-element array " ++
      "[protected, unprotected, payload, signature]")
  | .ok (.tag n _) => .error s!"wrong CBOR tag {n}; expected COSE_Sign1 (tag 18)"
  | .ok _ => .error "top-level value is not a CBOR tag; expected COSE_Sign1 (tag 18)"

/-! ## Critical headers -/

/-- `{label!r}` of a label. -/
def reprLabel : Item → String
  | .int n => toString n
  | .text s => L.strRepr s
  | _ => ""

/-- The loop of `_check_critical_headers`. -/
def checkCriticalLabels (protectedHeader : Dict) (understoodLabels : List Item) :
    List Item → Except String Unit
  | [] => .ok ()
  | label :: labels =>
    if ¬ IsKey label then
      .error "crit lists a label that is not an integer or a text string"
    else if (protectedHeader.get label).isNone then
      .error s!"crit lists header {reprLabel L label} which is absent from the protected header"
    else if label ∉ understoodLabels then
      .error (s!"crit marks header {reprLabel L label} as critical, but this verifier does " ++
        "not understand it; rejecting (RFC 9052 §3.1)")
    else checkCriticalLabels protectedHeader understoodLabels labels

/-- `_check_critical_headers` -/
def checkCriticalHeaders (protectedHeader : Dict) (understoodLabels : List Item) :
    Except String Unit :=
  match protectedHeader.get (.int hdrCrit) with
  | none => .ok ()
  | some (.array (label :: labels)) =>
    checkCriticalLabels L protectedHeader understoodLabels (label :: labels)
  | some _ => .error "crit (label 2) must be a non-empty array (RFC 9052 §3.1)"

/-! ## Signatures -/

/-- `_sig_structure` as a value: the `Signature1` Sig_structure with empty external data. -/
def sigItem (protectedBstr payload : Octets) : Item :=
  .array [.text "Signature1", .bytes protectedBstr, .bytes [], .bytes payload]

/-- `_sig_structure` -/
def sigStructure (protectedBstr payload : Octets) : Octets :=
  L.cbor2.dumps (sigItem protectedBstr payload)

/-- The signature check of `verify_sign1`, once the key is loaded. -/
def checkSignature (alg : ℤ) (pubkey : L.crypto.PublicKey) (tbs signature : Octets) :
    Except String Unit :=
  if alg = -8 then
    if L.crypto.kind pubkey ≠ .ed25519 then
      .error "alg is EdDSA (-8) but the public key is not Ed25519"
    else if L.crypto.verify .edDSA pubkey tbs signature then .ok ()
    else .error "signature verification FAILED (InvalidSignature)"
  else
    match ecdsa alg with
    | some (a, curve, width) =>
      match L.crypto.kind pubkey with
      | .ec c =>
        if c ≠ curve then
          .error s!"alg is {a.name} ({alg}) but the public key is not {curve.name}"
        else if signature.length ≠ 2 * width then
          .error (s!"{a.name} COSE signature must be {2 * width} raw bytes (r||s), " ++
            s!"got {signature.length}")
        else if L.crypto.verify a pubkey tbs signature then .ok ()
        else .error "signature verification FAILED (InvalidSignature)"
      | _ => .error s!"alg is {a.name} ({alg}) but the public key is not EC"
    | none => .error s!"unsupported alg code point {alg} for verification"

/-- `Sign1` -/
structure Sign1 where
  protectedHeader : Dict
  unprotected : Dict
  payload : Octets

/-- The protected header of `verify_sign1`. -/
def decodeProtected (protectedBstr : Octets) : Except String Dict :=
  if protectedBstr = [] then .ok []
  else
    match L.cbor2.loads protectedBstr with
    | .error e => .error s!"protected header is not valid CBOR ({e})"
    | .ok (.map protectedHeader) =>
      if protectedHeader.any fun p => ¬ IsKey p.1 then
        .error "protected header has a label that is not an integer or a text string"
      else .ok protectedHeader
    | .ok _ => .error "decoded protected header is not a map"

/-- `verify_sign1` -/
def verifySign1 (msg : Octets) (publicKeyPem : String) (detachedPayload : Option Octets)
    (understoodLabels : List Item) : Except String Sign1 := do
  let (protectedItem, unprotected, payloadSlot, signatureItem) ← decodeEnvelope L msg
  let protectedBstr ← match protectedItem with
    | .bytes b => .ok b
    | _ => .error "protected header must be a bstr-wrapped map"
  let protectedHeader ← decodeProtected L protectedBstr
  let unprotected ← match unprotected with
    | .map u => .ok u
    | .null => .ok []
    | _ => .error "unprotected header is not a map"
  let payload ← match payloadSlot with
    | .null =>
      match detachedPayload with
      | some payload => .ok payload
      | none => .error "payload is detached (nil); supply detached_payload to verify"
    | .bytes payload => .ok payload
    | _ => .error "attached payload must be a byte string"
  let signature ← match signatureItem with
    | .bytes b => .ok b
    | _ => .error "signature element is not a byte string"
  let alg ← match protectedHeader.get (.int hdrAlg) with
    | some (.int alg) => .ok alg
    | _ => .error "protected header has no integer alg (label 1)"
  checkCriticalHeaders L protectedHeader understoodLabels
  let tbs := sigStructure L protectedBstr payload
  let pubkey ← match L.crypto.loadPublicKey publicKeyPem with
    | .ok pubkey => .ok pubkey
    | .error e => .error s!"could not load public key: {e}"
  checkSignature L alg pubkey tbs signature
  return { protectedHeader := protectedHeader, unprotected := unprotected, payload := payload }

/-- `protected[label] = value`: a new label goes to the end. -/
def Dict.set (d : Dict) (label value : Item) : Dict :=
  match d with
  | [] => [(label, value)]
  | (k, v) :: d => if k = label then (k, value) :: d else (k, v) :: Dict.set d label value

/-- `sign_sign1`; `nonce` is the randomness of the signature. -/
def signSign1 (payload : Octets) (alg privateKeyPem : String)
    (protectedHeader unprotected : Dict) (detached : Bool) (nonce : ℕ) : Except Raised Octets :=
  match Alg.ofName alg with
  | none =>
    .error (.coseError
      s!"unsupported alg {L.strRepr alg}; expected one of ['ES256', 'ES384', 'EdDSA']")
  | some a =>
    let protectedHeader := protectedHeader.set (.int hdrAlg) (.int a.code)
    let protectedBstr := L.cbor2.dumps (.map protectedHeader)
    let tbs := sigStructure L protectedBstr payload
    match L.crypto.loadPrivateKey privateKeyPem with
    | .error e => .error (.other e)
    | .ok key =>
      if L.crypto.privateKind key ≠ a.kind then
        .error (.coseError (match a with
          | .edDSA => "alg EdDSA requires an Ed25519 private key"
          | .es256 => s!"alg {alg} requires an EC ({Curve.p256.name}) private key"
          | .es384 => s!"alg {alg} requires an EC ({Curve.p384.name}) private key"))
      else
        let signature := L.crypto.sign a key nonce tbs
        let payloadSlot := if detached then .null else .bytes payload
        .ok (L.cbor2.dumps (.tag EncodingRule.coseSign1Tag
          (.array [.bytes protectedBstr, .map unprotected, payloadSlot, .bytes signature])))

end Source

theorem Dict.mem_of_get {d : Dict} {key value : Item} (h : d.get key = some value) :
    (key, value) ∈ d := by
  obtain ⟨before, after, rfl, -⟩ := List.lookup_eq_some_iff.mp h
  simp

/-! ## The strict decode of conforming octets -/

variable {L : Libraries}

/-- Canonical order keeps the length, so the length gate refuses no conforming octets. -/
theorem strictDecodeItem_encode {i : Item} (hi : Grammar true i) (what : String) :
    strictDecodeItem L (encode i) what = .ok i := by
  have hlen := length_encode_canonical i
  rw [strictDecodeItem, L.cbor2.decode_encode hi]
  simp only [L.cbor2.dumpsCanonical_eq hi, hlen, lt_irrefl, false_and, if_false, ne_eq,
    not_true_eq_false]

/-- The strict decode of a conforming message whose protected header conforms too. -/
theorem strictDecode_encode {n : ℕ} {x : Item} (hi : Grammar true (.tag n x))
    (hlen : (encode (.tag n x)).length ≤ maxMessageBytes)
    (hprot : ∀ prot u p s, x = .array [.bytes prot, u, p, s] →
      prot = [] ∨ ∃ j, Grammar true j ∧ encode j = prot) :
    strictDecode L (encode (.tag n x)) = .ok (.tag n x) := by
  rw [strictDecode, if_neg (not_lt.mpr hlen), strictDecodeItem_encode hi]
  simp only
  split
  · next prot u p s =>
      obtain rfl | ⟨j, hj, rfl⟩ := hprot prot u p s rfl
      · rfl
      · rw [if_neg (encode_ne_nil hj.encodable), strictDecodeItem_encode hj]
  · rfl

/-- What the strict decode returns for conforming octets. -/
theorem eq_of_strictDecode {i value : Item} (hi : Grammar true i)
    (h : strictDecode L (encode i) = .ok value) :
    (encode i).length ≤ maxMessageBytes ∧ value = i := by
  rw [strictDecode] at h
  split_ifs at h with hlen
  rw [strictDecodeItem_encode hi] at h
  refine ⟨not_lt.mp hlen, ?_⟩
  cases i with
  | tag n x =>
      simp only at h
      split at h
      · split_ifs at h
        · exact (Except.ok.inj h).symm
        · split at h
          · cases h
          · exact (Except.ok.inj h).symm
      · exact (Except.ok.inj h).symm
  | _ => cases h

/-! ## Signatures -/

/-- The signature check of an algorithm the table names. -/
theorem checkSignature_isOk (code : ℤ) (pubkey : L.crypto.PublicKey) (tbs signature : Octets) :
    (checkSignature L code pubkey tbs signature).isOk =
      ((Alg.ofCode code).any fun alg => L.crypto.verify alg pubkey tbs signature) := by
  have hkind : ∀ alg, L.crypto.verify alg pubkey tbs signature = true →
      L.crypto.kind pubkey = alg.kind := fun alg h => L.crypto.kind_of_verify h
  have hlen : ∀ alg, L.crypto.verify alg pubkey tbs signature = true →
      signature.length = alg.signatureLength := fun alg h => L.crypto.length_of_verify h
  -- ECDSA: a key of another kind or curve, or a signature of another length, verifies nothing
  have hec : ∀ (alg : Alg) (curve : Curve) (w : ℕ), ecdsa alg.code = some (alg, curve, w) →
      alg.kind = .ec curve → alg.signatureLength = 2 * w → alg.code ≠ -8 →
      (checkSignature L alg.code pubkey tbs signature).isOk =
        L.crypto.verify alg pubkey tbs signature := by
    intro alg curve w hcode hk hs h8
    rw [checkSignature, if_neg h8, hcode]
    simp only
    cases hv : L.crypto.verify alg pubkey tbs signature with
    | true =>
        rw [hkind alg hv, hk]
        simp only [ne_eq, not_true_eq_false, if_false, hlen alg hv, hs, if_true]
        rfl
    | false =>
        split
        · simp only [Bool.false_eq_true, if_false]
          split_ifs <;> rfl
        · rfl
  by_cases h8 : code = -8
  · subst h8
    rw [checkSignature, if_pos rfl]
    change _ = L.crypto.verify .edDSA pubkey tbs signature
    cases hv : L.crypto.verify .edDSA pubkey tbs signature with
    | true =>
        have hk : L.crypto.kind pubkey = .ed25519 := hkind .edDSA hv
        rw [if_neg (not_not.mpr hk), if_pos rfl]
        rfl
    | false => split_ifs <;> simp_all [Except.isOk, Except.toBool]
  by_cases h7 : code = -7
  · subst h7
    exact hec .es256 .p256 32 rfl rfl rfl (by decide)
  by_cases h35 : code = -35
  · subst h35
    exact hec .es384 .p384 48 rfl rfl rfl (by decide)
  · have hnone : Alg.ofCode code = none := by
      rw [Alg.ofCode, if_neg h8, if_neg h7, if_neg h35]
    have hecdsa : ecdsa code = none := by
      unfold ecdsa
      split <;> first | contradiction | rfl
    rw [checkSignature, if_neg h8, hecdsa, hnone]
    rfl

/-! ## What `verify_sign1` accepts -/

/-- The entries of an unprotected header that `verify_sign1` takes. -/
def headerEntries : Item → Option Dict
  | .map u => some u
  | .null => some []
  | _ => none

/-- The payload of the message, or the detached one. -/
def payloadOf (detachedPayload : Option Octets) : Item → Option Octets
  | .null => detachedPayload
  | .bytes payload => some payload
  | _ => none

/-- The checks of `verify_sign1` from the signature element on. -/
def verifyDecoded (L : Libraries) (publicKeyPem : String) (understoodLabels : List Item)
    (protectedBstr : Octets) (protectedHeader unprotected : Dict) (payload : Octets)
    (signatureItem : Item) : Except String Sign1 := do
  let signature ← match signatureItem with
    | .bytes b => .ok b
    | _ => .error "signature element is not a byte string"
  let alg ← match protectedHeader.get (.int hdrAlg) with
    | some (.int alg) => .ok alg
    | _ => .error "protected header has no integer alg (label 1)"
  checkCriticalHeaders L protectedHeader understoodLabels
  let tbs := sigStructure L protectedBstr payload
  let pubkey ← match L.crypto.loadPublicKey publicKeyPem with
    | .ok pubkey => .ok pubkey
    | .error e => .error s!"could not load public key: {e}"
  checkSignature L alg pubkey tbs signature
  return { protectedHeader := protectedHeader, unprotected := unprotected, payload := payload }

/-- What `verify_sign1` has checked of a message it accepts. -/
structure Sign1Accepted (L : Libraries) (publicKeyPem : String) (understoodLabels : List Item)
    (protectedItem signatureItem : Item) (protectedHeader : Dict) (payload : Octets) : Prop where
  critical : checkCriticalHeaders L protectedHeader understoodLabels = .ok ()
  signature : ∃ protectedBstr signature alg key, protectedItem = .bytes protectedBstr ∧
    signatureItem = .bytes signature ∧ decodeProtected L protectedBstr = .ok protectedHeader ∧
    protectedHeader.get (.int hdrAlg) = some (.int alg) ∧
    L.crypto.loadPublicKey publicKeyPem = .ok key ∧
    checkSignature L alg key (sigStructure L protectedBstr payload) signature = .ok ()

theorem verifyDecoded_eq_ok_iff {pem : String} {labels : List Item} {b : Octets} {header u : Dict}
    {payload : Octets} {sig : Item} {m : Sign1} (hprot : decodeProtected L b = .ok header) :
    verifyDecoded L pem labels b header u payload sig = .ok m ↔
      Sign1Accepted L pem labels (.bytes b) sig header payload ∧ m = ⟨header, u, payload⟩ := by
  constructor
  · intro h
    unfold verifyDecoded at h
    cases sig with
    | bytes s =>
        cases halg : header.get (.int hdrAlg) with
        | none => simp only [halg, bind, Except.bind] at h; cases h
        | some a =>
            cases a with
            | int alg =>
                simp only [halg, bind, Except.bind] at h
                cases hcrit : checkCriticalHeaders L header labels with
                | error e => simp only [hcrit] at h; cases h
                | ok _ =>
                    cases hkey : L.crypto.loadPublicKey pem with
                    | error e => simp only [hcrit, hkey] at h; cases h
                    | ok key =>
                        cases hcheck : checkSignature L alg key (sigStructure L b payload) s with
                        | error e => simp only [hcrit, hkey, hcheck] at h; cases h
                        | ok _ =>
                            simp only [hcrit, hkey, hcheck, pure, Except.pure] at h
                            cases h
                            exact
                              ⟨⟨hcrit, b, s, alg, key, rfl, rfl, hprot, halg, hkey, hcheck⟩, rfl⟩
            | _ => simp only [halg, bind, Except.bind] at h; cases h
    | _ => cases h
  · rintro ⟨⟨hcrit, b', s, alg, key, hb, rfl, -, halg, hkey, hcheck⟩, rfl⟩
    cases hb
    unfold verifyDecoded
    simp only [bind, Except.bind, halg, hcrit, hkey, hcheck, pure, Except.pure]

/-- **What `verify_sign1` accepts.** -/
theorem verifySign1_eq_ok_iff {msg : Octets} {pem : String} {detached : Option Octets}
    {labels : List Item} {m : Sign1} :
    verifySign1 L msg pem detached labels = .ok m ↔
      ∃ p u pay sig, decodeEnvelope L msg = .ok (p, u, pay, sig) ∧
        headerEntries u = some m.unprotected ∧ payloadOf detached pay = some m.payload ∧
        Sign1Accepted L pem labels p sig m.protectedHeader m.payload := by
  rw [verifySign1]
  cases henvelope : decodeEnvelope L msg with
  | error e => exact iff_of_false (by rintro ⟨⟩) (by rintro ⟨_, _, _, _, ⟨⟩, -⟩)
  | ok elements =>
      obtain ⟨p, u, pay, sig⟩ := elements
      constructor
      · intro h
        refine ⟨p, u, pay, sig, rfl, ?_⟩
        cases p with
        | bytes b =>
            cases hprot : decodeProtected L b with
            | error e => simp only [bind, Except.bind, hprot] at h; cases h
            | ok header =>
                -- the two headers and the two payloads it takes lead to the same checks
                have key : ∀ d payload, headerEntries u = some d →
                    payloadOf detached pay = some payload →
                    verifyDecoded L pem labels b header d payload sig = .ok m →
                    headerEntries u = some m.unprotected ∧ payloadOf detached pay = some m.payload ∧
                      Sign1Accepted L pem labels (.bytes b) sig m.protectedHeader m.payload := by
                  intro d payload hu hpay hok
                  obtain ⟨haccepted, rfl⟩ := (verifyDecoded_eq_ok_iff hprot).mp hok
                  exact ⟨hu, hpay, haccepted⟩
                simp only [bind, Except.bind, hprot] at h
                cases u with
                | map d =>
                    cases pay with
                    | null =>
                        cases detached with
                        | none => cases h
                        | some payload => exact key d payload rfl rfl h
                    | bytes payload => exact key d payload rfl rfl h
                    | _ => cases h
                | null =>
                    cases pay with
                    | null =>
                        cases detached with
                        | none => cases h
                        | some payload => exact key [] payload rfl rfl h
                    | bytes payload => exact key [] payload rfl rfl h
                    | _ => cases h
                | _ => cases h
        | _ => cases h
      · rintro ⟨p', u', pay', sig', h, hu, hpay, haccepted⟩
        cases h
        obtain ⟨header, entries, payload⟩ := m
        obtain ⟨b, s, alg, key, rfl, rfl, hprot, -⟩ := haccepted.signature
        have hok := (verifyDecoded_eq_ok_iff (u := entries) hprot).mpr ⟨haccepted, rfl⟩
        simp only [bind, Except.bind, hprot]
        cases u with
        | map d =>
            cases hu
            cases pay with
            | null =>
                cases detached with
                | none => cases hpay
                | some payload => cases hpay; exact hok
            | bytes payload => cases hpay; exact hok
            | _ => cases hpay
        | null =>
            cases hu
            cases pay with
            | null =>
                cases detached with
                | none => cases hpay
                | some payload => cases hpay; exact hok
            | bytes payload => cases hpay; exact hok
            | _ => cases hpay
        | _ => cases hu

end ScittCose
