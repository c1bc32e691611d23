import ScittCose.EncodingRule.Grammar
import ScittCose.Lib.CborCanonical
import ScittCose.Lib.Hash

/-!
# The libraries under the verifiers

The CBOR libraries (`cbor2` for Python, `ciborium` for Rust, `fxamacker/cbor` for Go) and the
signature libraries are parameters. A CBOR library is only asked to read the items of the receipt
encoding rule from their preferred serialization, and to write that serialization; on any other
octets it may return anything. The three verifiers share one `Crypto`.
-/

namespace ScittCose

open Cbor
open EncodingRule (Grammar)

/-! ## CBOR -/

mutual

/-- The items every library writes in preferred serialization: no float and no host value. -/
def Writable : Item → Prop
  | .int n => -2 ^ 64 ≤ n ∧ n < 2 ^ 64
  | .array xs => WritableList xs
  | .map ps => WritablePairs ps
  | .tag n x => n < 2 ^ 64 ∧ Writable x
  | .bytes _ => True
  | .text _ => True
  | .bool _ => True
  | .null => True
  | _ => False

/-- Every member is writable. -/
def WritableList : List Item → Prop
  | [] => True
  | x :: xs => Writable x ∧ WritableList xs

/-- Every key and value is writable. -/
def WritablePairs : List (Item × Item) → Prop
  | [] => True
  | (k, v) :: ps => Writable k ∧ Writable v ∧ WritablePairs ps

end

theorem writableList_iff {xs : List Item} : WritableList xs ↔ ∀ x ∈ xs, Writable x := by
  induction xs with
  | nil => simp [WritableList]
  | cons x xs ih => simp [WritableList, ih]

theorem writablePairs_iff {ps : List (Item × Item)} :
    WritablePairs ps ↔ ∀ p ∈ ps, Writable p.1 ∧ Writable p.2 := by
  induction ps with
  | nil => simp [WritablePairs]
  | cons p ps ih => obtain ⟨k, v⟩ := p; simp [WritablePairs, ih, and_assoc]

/-- Python's `cbor2`; an error is the name of the exception. -/
structure Cbor2 where
  /-- `CBORDecoder(io.BytesIO(b)).decode()`, and what a further `read` finds in the stream. -/
  decode : Octets → Except String (Item × Octets)
  /-- `dumps(value)` -/
  dumps : Item → Octets
  /-- `dumps(value, canonical=True)` -/
  dumpsCanonical : Item → Except String Octets
  decode_encode : ∀ {i}, Grammar true i → decode (encode i) = .ok (i, [])
  dumps_eq : ∀ {i}, Writable i → dumps i = encode i
  dumpsCanonical_eq : ∀ {i}, Grammar true i → dumpsCanonical i = .ok (encode i.canonical)

/-- `cbor2.loads`: octets after the item are ignored. -/
def Cbor2.loads (cbor2 : Cbor2) (b : Octets) : Except String Item :=
  (cbor2.decode b).map Prod.fst

/-- Rust's `ciborium`; an error is its debug text. -/
structure Ciborium where
  /-- `from_reader(&mut b)`, and what is left of `b`. -/
  fromReader : Octets → Except String (Item × Octets)
  /-- `into_writer` to a vector. -/
  intoWriter : Item → Except String Octets
  fromReader_encode : ∀ {i} (rest : Octets), Grammar true i →
    fromReader (encode i ++ rest) = .ok (i, rest)
  intoWriter_eq : ∀ {i}, Writable i → intoWriter i = .ok (encode i)

/-- An item read into a `uint8`: CBOR null leaves the zero value. -/
def goOctet : Item → Option UInt8
  | .int n => if 0 ≤ n ∧ n < 256 then some (UInt8.ofNat n.toNat) else none
  | .null => some 0
  | _ => none

/-- An item read into a `[]byte`: a byte string, or an array read member by member as any slice
is. -/
def goBytes : Item → Option Octets
  | .bytes b => some b
  | .array xs => xs.mapM goOctet
  | .null => some []
  | _ => none

/-- Go's `fxamacker/cbor` with the options the verifier passes. Each function reads the octets into
one Go type, and a law says what that makes of an item of the encoding rule. In an `any`, a
non-negative integer is a `uint64` and a negative one an `int64`. -/
structure Fxamacker where
  /-- into a `cbor.RawTag` -/
  rawTag : Octets → Except String (ℕ × Octets)
  /-- into a `[]cbor.RawMessage` -/
  rawMessages : Octets → Except String (List Octets)
  /-- into a `[]byte` -/
  bytes : Octets → Except String Octets
  /-- into a `map[any]any`; CBOR null gives a nil map -/
  anyMap : Octets → Except String (Option (List (Item × Item)))
  /-- into an `int64` -/
  int64 : Octets → Except String ℤ
  /-- into a `[][]byte` -/
  byteSlices : Octets → Except String (List Octets)
  /-- `Marshal` of a value of non-nil slices -/
  marshal : Item → Octets
  rawTag_encode : ∀ {i}, Grammar true i → (rawTag (encode i)).toOption = match i with
    | .tag n x => some (n, encode x)
    | .null => some (0, [])
    | _ => none
  rawMessages_encode : ∀ {i}, Grammar true i → (rawMessages (encode i)).toOption = match i with
    | .array xs => some (xs.map encode)
    | .null => some []
    | _ => none
  bytes_encode : ∀ {i}, Grammar false i → (bytes (encode i)).toOption = goBytes i
  anyMap_encode : ∀ {i}, Grammar false i → (anyMap (encode i)).toOption = match i with
    | .map d => some (some d)
    | .null => some none
    | _ => none
  int64_encode : ∀ {i}, Grammar false i → (int64 (encode i)).toOption = match i with
    | .int n => if n < 2 ^ 63 then some n else none
    | .null => some 0
    | _ => none
  byteSlices_encode : ∀ {i}, Grammar false i → (byteSlices (encode i)).toOption = match i with
    | .array xs => xs.mapM goBytes
    | .null => some []
    | _ => none
  marshal_eq : ∀ {i}, Writable i → marshal i = encode i

/-! ## Signatures -/

/-- The signature algorithms (`ALG_NAME_TO_CODE`). -/
inductive Alg where
  | edDSA
  | es256
  | es384
deriving DecidableEq

/-- The code point of an algorithm. -/
def Alg.code : Alg → ℤ
  | .edDSA => -8
  | .es256 => -7
  | .es384 => -35

/-- The name of an algorithm. -/
def Alg.name : Alg → String
  | .edDSA => "EdDSA"
  | .es256 => "ES256"
  | .es384 => "ES384"

/-- `ALG_CODE_TO_NAME`. -/
def Alg.ofCode (code : ℤ) : Option Alg :=
  if code = -8 then some .edDSA else if code = -7 then some .es256
  else if code = -35 then some .es384 else none

/-- `ALG_NAME_TO_CODE`. -/
def Alg.ofName (name : String) : Option Alg :=
  if name = "EdDSA" then some .edDSA else if name = "ES256" then some .es256
  else if name = "ES384" then some .es384 else none

@[simp] theorem Alg.ofCode_code (alg : Alg) : Alg.ofCode alg.code = some alg := by
  cases alg <;> rfl

@[simp] theorem Alg.ofName_name (alg : Alg) : Alg.ofName alg.name = some alg := by
  cases alg <;> decide

theorem Alg.ofCode_eq_some_iff {code : ℤ} {alg : Alg} :
    Alg.ofCode code = some alg ↔ code = alg.code := by
  constructor
  · intro h
    rw [Alg.ofCode] at h
    split_ifs at h with h1 h2 h3 <;> cases h
    · exact h1
    · exact h2
    · exact h3
  · rintro rfl
    exact ofCode_code alg

/-- The curve of an elliptic-curve key. -/
inductive Curve where
  | p256
  | p384
  | other (name : String)
deriving DecidableEq

/-- The name of a curve (`_CURVE_NAME`). -/
def Curve.name : Curve → String
  | .p256 => "P-256"
  | .p384 => "P-384"
  | .other name => name

/-- What kind of key a PEM text holds. -/
inductive KeyKind where
  | ed25519
  | ec (curve : Curve)
  | other (typeName : String)
deriving DecidableEq

/-- The kind of key an algorithm is bound to (RFC 9053 §2.1). -/
def Alg.kind : Alg → KeyKind
  | .edDSA => .ed25519
  | .es256 => .ec .p256
  | .es384 => .ec .p384

/-- Octets of a signature as COSE carries it. -/
def Alg.signatureLength : Alg → ℕ
  | .edDSA => 64
  | .es256 => 64
  | .es384 => 96

/-- Keys and signatures. A signature is what COSE carries: raw Ed25519, or `r || s` for ECDSA. -/
structure Crypto where
  PublicKey : Type
  PrivateKey : Type
  /-- Load a PEM public key; the error is the library's text. -/
  loadPublicKey : String → Except String PublicKey
  /-- Load a PEM private key; the error is the name of the exception. -/
  loadPrivateKey : String → Except String PrivateKey
  kind : PublicKey → KeyKind
  privateKind : PrivateKey → KeyKind
  /-- Verify a signature over the octets to be signed. -/
  verify : Alg → PublicKey → Octets → Octets → Bool
  /-- Sign; ECDSA draws `nonce` at random. -/
  sign : Alg → PrivateKey → ℕ → Octets → Octets
  /-- A private key and its public key. -/
  Matches : PrivateKey → PublicKey → Prop
  kind_of_verify : ∀ {alg key tbs signature}, verify alg key tbs signature = true →
    kind key = alg.kind
  length_of_verify : ∀ {alg key tbs signature}, verify alg key tbs signature = true →
    signature.length = alg.signatureLength
  kind_of_matches : ∀ {priv key}, Matches priv key → privateKind priv = kind key
  verify_sign : ∀ {priv key alg}, Matches priv key → kind key = alg.kind →
    ∀ nonce tbs, verify alg key tbs (sign alg priv nonce tbs) = true

/-- Everything the verifiers take from elsewhere. -/
structure Libraries where
  hash : Hash
  cbor2 : Cbor2
  ciborium : Ciborium
  fxamacker : Fxamacker
  crypto : Crypto
  /-- Python's `repr` of a string. -/
  strRepr : String → String

/-! ## Reference CBOR libraries -/

/-- The item an octet string holds, with nothing after it. -/
def decodeAll (b : Octets) : Option Item :=
  match Cbor.decode b with
  | some (i, []) => some i
  | _ => none

theorem decodeAll_encode {i : Item} (hi : i.Encodable) : decodeAll (encode i) = some i := by
  have h := Cbor.decode_encode hi []
  rw [List.append_nil] at h
  rw [decodeAll, h]

/-- A value, or an error without text. -/
def orError {α : Type} (o : Option α) : Except String α :=
  match o with
  | some a => .ok a
  | none => .error ""

@[simp] theorem toOption_orError {α : Type} (o : Option α) : (orError o).toOption = o := by
  cases o <;> rfl

/-- `cbor2` as a reader of all well-formed CBOR. -/
def Cbor2.reference : Cbor2 where
  decode b := match Cbor.decode b with
    | some r => .ok r
    | none => .error "CBORDecodeError"
  dumps := encode
  dumpsCanonical i := .ok (encode i.canonical)
  decode_encode hi := by
    have h := Cbor.decode_encode hi.encodable []
    rw [List.append_nil] at h
    simp only [h]
  dumps_eq _ := rfl
  dumpsCanonical_eq _ := rfl

/-- `ciborium` as a reader of all well-formed CBOR. -/
def Ciborium.reference : Ciborium where
  fromReader b := orError (Cbor.decode b)
  intoWriter i := .ok (encode i)
  fromReader_encode rest hi := by rw [Cbor.decode_encode hi.encodable]; rfl
  intoWriter_eq _ := rfl

/-- `fxamacker/cbor` as a reader of all well-formed CBOR. -/
def Fxamacker.reference : Fxamacker where
  rawTag b := orError do
    match ← decodeAll b with
    | .tag n x => some (n, encode x)
    | .null => some (0, [])
    | _ => none
  rawMessages b := orError do
    match ← decodeAll b with
    | .array xs => some (xs.map encode)
    | .null => some []
    | _ => none
  bytes b := orError do goBytes (← decodeAll b)
  anyMap b := orError do
    match ← decodeAll b with
    | .map d => some (some d)
    | .null => some none
    | _ => none
  int64 b := orError do
    match ← decodeAll b with
    | .int n => if n < 2 ^ 63 then some n else none
    | .null => some 0
    | _ => none
  byteSlices b := orError do
    match ← decodeAll b with
    | .array xs => xs.mapM goBytes
    | .null => some []
    | _ => none
  marshal := encode
  rawTag_encode hi := by rw [decodeAll_encode hi.encodable, toOption_orError]; rfl
  rawMessages_encode hi := by rw [decodeAll_encode hi.encodable, toOption_orError]; rfl
  bytes_encode hi := by rw [decodeAll_encode hi.encodable, toOption_orError]; rfl
  anyMap_encode hi := by rw [decodeAll_encode hi.encodable, toOption_orError]; rfl
  int64_encode hi := by rw [decodeAll_encode hi.encodable, toOption_orError]; rfl
  byteSlices_encode hi := by rw [decodeAll_encode hi.encodable, toOption_orError]; rfl
  marshal_eq _ := rfl

/-- One Ed25519 key pair: the signature over `tbs` is `signature`, and no other octets of a
signature verify over `tbs`. -/
def Crypto.ed25519 (publicPem privatePem : String) (tbs signature : Octets)
    (hlen : signature.length = 64) : Crypto where
  PublicKey := Unit
  PrivateKey := Unit
  loadPublicKey pem := if pem = publicPem then .ok () else .error "Unable to load PEM file"
  loadPrivateKey pem := if pem = privatePem then .ok () else .error "ValueError"
  kind _ := .ed25519
  privateKind _ := .ed25519
  verify alg _ m s := alg = .edDSA ∧ s = if m = tbs then signature else List.replicate 64 0
  sign _ _ _ m := if m = tbs then signature else List.replicate 64 0
  Matches _ _ := True
  kind_of_verify h := by
    simp only [decide_eq_true_eq] at h
    rw [h.1]
    rfl
  length_of_verify h := by
    simp only [decide_eq_true_eq] at h
    rw [h.1, h.2]
    split_ifs
    · exact hlen
    · rfl
  kind_of_matches _ := rfl
  verify_sign _ hkind nonce m := by
    simp only [decide_eq_true_eq, and_true]
    rename_i alg _
    cases alg with
    | edDSA => rfl
    | _ => cases hkind

@[simp] theorem Crypto.loadPublicKey_ed25519 (publicPem privatePem : String)
    (tbs signature : Octets) (hlen : signature.length = 64) :
    (Crypto.ed25519 publicPem privatePem tbs signature hlen).loadPublicKey publicPem = .ok () :=
  if_pos rfl

@[simp] theorem Crypto.loadPrivateKey_ed25519 (publicPem privatePem : String)
    (tbs signature : Octets) (hlen : signature.length = 64) :
    (Crypto.ed25519 publicPem privatePem tbs signature hlen).loadPrivateKey privatePem = .ok () :=
  if_pos rfl

/-- A plain item is writable. -/
theorem writable_of_plain {i : Item} (h : EncodingRule.Plain i) : Writable i := by
  induction i using Item.induction with
  | int n => exact ⟨by have := h.1; omega, h.2⟩
  | bytes b => trivial
  | text s => trivial
  | array xs ih =>
      exact writableList_iff.mpr fun x hx => ih x hx (EncodingRule.plainList_iff.mp h.2 x hx)
  | map ps ih =>
      refine writablePairs_iff.mpr fun p hp => ?_
      obtain ⟨-, hk, hv⟩ := EncodingRule.plainPairs_iff.mp h.2.2 p hp
      exact ⟨(ih p hp).1 hk, (ih p hp).2 hv⟩
  | tag n x _ => exact h.elim
  | bool b => trivial
  | null => trivial
  | simple n => exact h.elim
  | float w b => exact h.elim
  | foreign k => exact h.elim

end ScittCose
