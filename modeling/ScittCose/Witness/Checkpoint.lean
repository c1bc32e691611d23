import ScittCose.Cll.Browser
import ScittCose.Pages.Completeness
import ScittCose.Witness.EntryHash
import ScittCose.Witness.Receipt

/-!
# The browser's checkpoint verifier (`verifyCheckpoint` in `viewer/src/witness.js`)

A signed checkpoint is a COSE_Sign1 of one profile, in canonical CBOR. The page reads the size and the peaks of
the log from its claims, asks that it extends the checkpoint before it, and verifies its signature under the key
it names. As before a value of JavaScript is an `Item`, and `none` is an exception.

What is accepted is `Signed`: canonical, with a signature and a consistency proof (`signed_of_verifyCheckpoint`).
-/

namespace ScittCose.Witness

open Cbor Json

/-- What the module takes from the page beside its cryptography: the texts of values, `bytesToHex` of what is no
octets, and the double nearest to an integer. -/
structure Page extends Platform where
  js : Pages.Js
  hexOfValue : Item → Option String
  doubleOf : ℕ → ℕ

/-- The hashes of a log by its peaks. -/
def Page.root (P : Page) (peaks : List Octets) : Option String :=
  (MmrJs.rootFromPeaks P.hash peaks).map Octets.toHex

section Source

variable (P : Page)

/-- `CHECKPOINT_CONTENT_TYPE` -/
def checkpointContentType : String := "application/cll-checkpoint+cbor"

/-- `allowed` -/
def allowedClaims : List String :=
  ["kind", "log_size", "commitment", "prev_size", "prev_commitment", "issued_at", "cadence", "consistency_proof"]

/-- `bytesToHex` -/
def Page.hexOf : Item → Option String
  | .bytes b => some (Octets.toHex b)
  | i => P.hexOfValue i

/-- `decodePeaks`; the inner `none` is `undefined`. -/
def decodePeaks (value : Option Item) : Option (Option (List Octets)) :=
  match value with
  | some (.bytes b) => do
    let peaks ← P.cborg.decodeObjects b
    match peaks with
    | .array items =>
      match items.mapM pathNode with
      | some hashes => if P.cborg.encode peaks = b then return some hashes else return none
      | none => return none
    | _ => return none
  | _ => some none

/-- What the protected header of the profile names: the key, the log and the subject. -/
def readProfile (headers : Dict) : Except String (Octets × String × String) :=
  match headers.get (.int 4), headers.get (.int 15) with
  | some (.bytes kid), some (.map cwt) =>
    if headers.length ≠ 4 ∨ headers.get (.int 1) ≠ some (.int (-8)) ∨
        headers.get (.int 3) ≠ some (.text checkpointContentType) ∨ kid.length ≠ 32 ∨ cwt.length ≠ 2 then
      .error "not the checkpoint profile's protected header"
    else
      match Dict.get cwt (.int 1), Dict.get cwt (.int 2) with
      | some (.text logId), some (.text subject) => .ok (kid, logId, subject)
      | _, _ => .error "malformed CWT claims"
  | _, _ => .error "not the checkpoint profile's protected header"

/-- A claim that may stand in a checkpoint. -/
def isAllowed : Item → Bool
  | .text key => allowedClaims.contains key
  | _ => false

/-- The sizes and the time a checkpoint claims. -/
def readSizes (claims : Dict) : Except String (ℤ × ℤ × String) :=
  if claims.length < 6 ∨ ¬ (claims.all fun claim => isAllowed claim.1) ∨
      claims.get (.text "kind") ≠ some (.text "cll-checkpoint") then
    .error "not a CLL checkpoint"
  else
    match (claims.get (.text "log_size")).bind safeInteger, (claims.get (.text "prev_size")).bind safeInteger,
      claims.get (.text "issued_at") with
    | some size, some prevSize, some (.text issuedAt) =>
      if size < 1 ∨ prevSize < 0 ∨ size ≤ prevSize then .error "malformed sizes or time"
      else .ok (size, prevSize, issuedAt)
    | _, _, _ => .error "malformed sizes or time"

/-- Whether a value of the wire is true in a condition. -/
def isTrue : Option Item → Bool
  | none => false
  | some (.int n) => n != 0
  | some (.text s) => s != ""
  | some (.bool b) => b
  | some .null => false
  | some (.simple n) => n != 23
  | some (.float _ bits) => bits != 0 && bits != 0x8000000000000000 && bits != 0x7ff8000000000000
  | _ => true

/-- `(value || []).map(...)`; the inner `none` is an array of another kind, which no verifier accepts. -/
def mapItems {α : Type} (f : Item → Option α) (value : Option Item) : Option (Option (List α)) :=
  if !isTrue value then some (some [])
  else
    match value with
    | some (.array items) => (items.mapM f).map some
    | some (.bytes _) => some none
    | _ => none

/-- `Array.isArray(w) ? w.map(bytesToHex) : w` -/
def wirePath : Item → Option (Option (List String))
  | .array items => (items.mapM P.hexOf).map some
  | _ => some none

/-- The consistency proof of a checkpoint, as the verifier of the log takes it. -/
def wireProof (proof : Dict) : Option (Option Cll.ConsistencyProof) := do
  let oldPeaks ← mapItems P.hexOf (proof.get (.text "old_peaks"))
  let witness ← mapItems (wirePath P) (proof.get (.text "witness"))
  let newPeaks ← mapItems P.hexOf (proof.get (.text "new_peaks"))
  return do
    let sizeA ← (proof.get (.text "size_a")).bind safeInteger
    let sizeB ← (proof.get (.text "size_b")).bind safeInteger
    let witness ← witness
    return ⟨1, "consistency", sizeA, sizeB, ← oldPeaks, ← witness.mapM id, ← newPeaks⟩

/-- The root before, when the checkpoint extends it; the error is the reason. -/
def previousRoot (claims : Dict) (size prevSize : ℤ) (peaks : List Octets) : Option (Except String String) :=
  match claims.get (.text "prev_commitment") with
  | some (.bytes prevCommitment) =>
    if prevSize = 0 then
      if prevCommitment ≠ [] ∨ (claims.get (.text "consistency_proof")).isSome then
        some (.error "a first checkpoint carries no previous commitment")
      else some (.ok "")
    else do
      let prevPeaks ← decodePeaks P (some (.bytes prevCommitment))
      match prevPeaks, claims.get (.text "consistency_proof") with
      | some prevPeaks, some (.map proof) =>
        let wire ← wireProof P proof
        let oldRoot ← P.root prevPeaks
        let newRoot ← P.root peaks
        match wire with
        | some wire =>
          if proof.length ≠ 5 ∨ wire.sizeA ≠ prevSize ∨ wire.sizeB ≠ size ∨
              ¬ MmrJs.verifyConsistency P.hash oldRoot prevSize newRoot size wire then
            return .error "the checkpoint does not extend its previous one"
          else return .ok oldRoot
        | none => return .error "the checkpoint does not extend its previous one"
      | _, _ => return .error "missing consistency proof"
  | _ => some (.error "malformed previous commitment")

/-- The claims of a checkpoint, once its headers are read. -/
def readClaims (kid : Octets) (logId subject : String) (claims : Dict) :
    Option (Except String VerifiedCheckpoint) :=
  match readSizes claims with
  | .error reason => some (.error reason)
  | .ok (size, prevSize, issuedAt) =>
    if subject ≠ s!"{logId}#{size}" then some (.error "CWT subject does not name this log and size")
    else do
      let peaks ← decodePeaks P (claims.get (.text "commitment"))
      match peaks with
      | none => return .error "malformed commitment"
      | some peaks =>
        let positions ← MmrJs.peaks size
        if peaks.length ≠ positions.length then return .error "malformed commitment"
        let prevRoot ← previousRoot P claims size prevSize peaks
        let root ← P.root peaks
        return prevRoot.map fun prevRoot => ⟨logId, size, root, prevSize, prevRoot, Octets.toHex kid, issuedAt⟩

/-- The parts of a tagged COSE_Sign1 without an unprotected header: the protected header, the payload and the
signature. -/
def signedParts : Item → Option (Octets × Octets × Octets)
  | .array [.bytes protectedBstr, .map [], .bytes payload, .bytes signature] =>
    some (protectedBstr, payload, signature)
  | _ => none

/-- What a checkpoint of these parts claims, once its signature is verified. -/
def readParts (protectedBstr payload signature : Octets) : Option (Except String VerifiedCheckpoint) := do
  let headers ← P.cborg.decode protectedBstr
  match headers with
  | .map headers =>
    match readProfile headers with
    | .error reason => return .error reason
    | .ok (kid, logId, subject) =>
      let claims ← P.cborg.decode payload
      match claims with
      | .map claims =>
        if P.cborg.encode (.map claims) ≠ payload then return .error "claims are not canonical CBOR"
        let found ← readClaims P kid logId subject claims
        if P.ed25519Verify kid (sigStructure P.toPlatform protectedBstr payload) signature then return found
        else return found.bind fun _ => .error "signature does not verify under the key the checkpoint names"
      | _ => return .error "claims are not canonical CBOR"
  | _ => return .error "malformed protected header"

/-- The body of `verifyCheckpoint`. -/
def checkpointBody (cose : Octets) : Option (Except String VerifiedCheckpoint) := do
  if cose.length < 2 ∨ cose[0]? ≠ some 0xd2 ∨ cose[1]? ≠ some 0x84 then
    return .error "not a tagged COSE_Sign1"
  let items ← P.cborg.decode cose.tail
  match signedParts items with
  | none => return .error "malformed COSE_Sign1"
  | some (protectedBstr, payload, signature) =>
    if 0xd2 :: P.cborg.encode items ≠ cose then return .error "not canonical CBOR"
    else readParts P protectedBstr payload signature

/-- `verifyCheckpoint`; the message of an exception is left out. -/
def verifyCheckpoint (cose : Octets) : Except String VerifiedCheckpoint :=
  (checkpointBody P cose).getD (.error "malformed: ")

end Source

/-! ## What is accepted -/

/-- A checkpoint extends the one before it: it is the first, or the verifier of the log accepts a consistency
proof between the two roots. -/
def Extends (H : Hash) (cp : VerifiedCheckpoint) : Prop :=
  cp.prevSize = 0 ∧ cp.prevRoot = "" ∨
    0 < cp.prevSize ∧ ∃ proof, MmrJs.verifyConsistency H cp.prevRoot cp.prevSize cp.root cp.size proof = true

/-- The octets of a checkpoint: canonical, for its log and size, an extension of the one before it, and signed
by the key it names. -/
structure Signed (P : Page) (cose : Octets) (cp : VerifiedCheckpoint) : Prop where
  signature : ∃ protectedBstr payload signature kid claims,
    cose = 0xd2 :: P.cborg.encode (.array [.bytes protectedBstr, .map [], .bytes payload, .bytes signature]) ∧
    payload = P.cborg.encode (.map claims) ∧
    Dict.get claims (.text "log_size") = some (.int cp.size) ∧
    kid.length = 32 ∧ cp.kid = Octets.toHex kid ∧
    P.ed25519Verify kid (sigStructure P.toPlatform protectedBstr payload) signature = true
  prevSize_nonneg : 0 ≤ cp.prevSize
  prevSize_lt : cp.prevSize < cp.size
  extends_previous : Extends P.hash cp

variable {P : Page}

theorem eq_int_of_safeInteger {i : Option Item} {n : ℤ} (h : i.bind safeInteger = some n) : i = some (.int n) := by
  obtain ⟨item, rfl, hitem⟩ := Option.bind_eq_some_iff.mp h
  cases item with
  | int m =>
      rw [safeInteger] at hitem
      split_ifs at hitem
      rw [Option.some.inj hitem]
  | _ => cases hitem

/-- The profile names a key of thirty-two octets. -/
theorem length_of_readProfile {headers : Dict} {kid : Octets} {logId subject : String}
    (h : readProfile headers = .ok (kid, logId, subject)) : kid.length = 32 := by
  unfold readProfile at h
  split at h
  · next key cwt hkid hcwt =>
      split_ifs at h with hbad
      split at h
      · obtain ⟨rfl, -⟩ := Prod.mk.inj (Except.ok.inj h)
        by_contra hlength
        exact hbad (.inr (.inr (.inr (.inl hlength))))
      · cases h
  · cases h

theorem readSizes_ok {claims : Dict} {size prevSize : ℤ} {issuedAt : String}
    (h : readSizes claims = .ok (size, prevSize, issuedAt)) :
    claims.get (.text "log_size") = some (.int size) ∧ 0 ≤ prevSize ∧ prevSize < size := by
  unfold readSizes at h
  split_ifs at h
  split at h
  · next size' prevSize' issuedAt' hsize hprev hissued =>
      split_ifs at h with hbad
      obtain ⟨rfl, hrest⟩ := Prod.mk.inj (Except.ok.inj h)
      obtain ⟨rfl, -⟩ := Prod.mk.inj hrest
      exact ⟨eq_int_of_safeInteger hsize, by omega, by omega⟩
  · cases h

/-- A previous root is found for a first checkpoint, or with a consistency proof. -/
theorem previousRoot_ok {claims : Dict} {size prevSize : ℤ} {peaks : List Octets} {prevRoot root : String}
    (hroot : P.root peaks = some root) (hprev : 0 ≤ prevSize)
    (h : previousRoot P claims size prevSize peaks = some (.ok prevRoot)) :
    prevSize = 0 ∧ prevRoot = "" ∨
      0 < prevSize ∧ ∃ proof, MmrJs.verifyConsistency P.hash prevRoot prevSize root size proof = true := by
  unfold previousRoot at h
  split at h
  · next prevCommitment hcommitment =>
      by_cases hzero : prevSize = 0
      · rw [if_pos hzero] at h
        split_ifs at h
        · cases h
        · exact .inl ⟨hzero, (Except.ok.inj (Option.some.inj h)).symm⟩
      · rw [if_neg hzero] at h
        obtain ⟨prevPeaks, -, h⟩ := Option.bind_eq_some_iff.mp h
        split at h
        · next prevPeaks proof hproof =>
            obtain ⟨wire, -, h⟩ := Option.bind_eq_some_iff.mp h
            obtain ⟨oldRoot, -, h⟩ := Option.bind_eq_some_iff.mp h
            obtain ⟨newRoot, hnew, h⟩ := Option.bind_eq_some_iff.mp h
            rw [hroot] at hnew
            obtain rfl := Option.some.inj hnew
            cases wire with
            | none => cases h
            | some wire =>
                simp only at h
                split_ifs at h with hbad
                · cases h
                · obtain rfl := Except.ok.inj (Option.some.inj h)
                  refine .inr ⟨by omega, wire, ?_⟩
                  by_contra hrefused
                  exact hbad (.inr (.inr (.inr hrefused)))
        · cases h
  · cases h

theorem readClaims_ok {kid : Octets} {logId subject : String} {claims : Dict} {cp : VerifiedCheckpoint}
    (h : readClaims P kid logId subject claims = some (.ok cp)) :
    claims.get (.text "log_size") = some (.int cp.size) ∧ cp.kid = Octets.toHex kid ∧ cp.logId = logId ∧
      0 ≤ cp.prevSize ∧ cp.prevSize < cp.size ∧ Extends P.hash cp := by
  unfold readClaims at h
  split at h
  · cases h
  · next size prevSize issuedAt hsizes =>
      obtain ⟨hsize, hprev, hlt⟩ := readSizes_ok hsizes
      split_ifs at h
      · cases h
      · obtain ⟨peaks, -, h⟩ := Option.bind_eq_some_iff.mp h
        split at h
        · cases h
        · next peaks =>
            obtain ⟨positions, -, h⟩ := Option.bind_eq_some_iff.mp h
            split_ifs at h
            · cases h
            · obtain ⟨prevRoot, hprevRoot, h⟩ := Option.bind_eq_some_iff.mp h
              obtain ⟨root, hroot, h⟩ := Option.bind_eq_some_iff.mp h
              cases prevRoot with
              | error reason => cases h
              | ok prevRoot =>
                  obtain rfl := Except.ok.inj (Option.some.inj h)
                  exact ⟨hsize, rfl, rfl, hprev, hlt, previousRoot_ok hroot hprev hprevRoot⟩

theorem eq_array_of_signedParts {items : Item} {protectedBstr payload signature : Octets}
    (h : signedParts items = some (protectedBstr, payload, signature)) :
    items = .array [.bytes protectedBstr, .map [], .bytes payload, .bytes signature] := by
  unfold signedParts at h
  split at h
  · obtain ⟨rfl, hrest⟩ := Prod.mk.inj (Option.some.inj h)
    obtain ⟨rfl, rfl⟩ := Prod.mk.inj hrest
    rfl
  · cases h

/-- The parts of a checkpoint that is found carry a key, canonical claims and a signature. -/
theorem readParts_ok {protectedBstr payload signature : Octets} {cp : VerifiedCheckpoint}
    (h : readParts P protectedBstr payload signature = some (.ok cp)) :
    ∃ kid claims, payload = P.cborg.encode (.map claims) ∧
      Dict.get claims (.text "log_size") = some (.int cp.size) ∧ kid.length = 32 ∧ cp.kid = Octets.toHex kid ∧
      P.ed25519Verify kid (sigStructure P.toPlatform protectedBstr payload) signature = true ∧
      0 ≤ cp.prevSize ∧ cp.prevSize < cp.size ∧ Extends P.hash cp := by
  obtain ⟨headers, -, h⟩ := Option.bind_eq_some_iff.mp h
  split at h
  · next headers =>
      split at h
      · cases h
      · next kid logId subject hprofile =>
          obtain ⟨claims, -, h⟩ := Option.bind_eq_some_iff.mp h
          split at h
          · next claims =>
              by_cases hpayload : P.cborg.encode (.map claims) = payload
              · rw [if_neg (not_not.mpr hpayload)] at h
                obtain ⟨found, hfound, h⟩ := Option.bind_eq_some_iff.mp h
                by_cases hverified :
                    P.ed25519Verify kid (sigStructure P.toPlatform protectedBstr payload) signature = true
                · rw [if_pos hverified] at h
                  rw [Option.some.inj h] at hfound
                  obtain ⟨hsize, hkid, -, hprev, hlt, hextends⟩ := readClaims_ok hfound
                  exact ⟨kid, claims, hpayload.symm, hsize, length_of_readProfile hprofile, hkid, hverified,
                    hprev, hlt, hextends⟩
                · rw [if_neg hverified] at h
                  cases found <;> cases h
              · rw [if_pos hpayload] at h
                cases h
          · cases h
  · cases h

/-- What the page accepts as a checkpoint is signed. -/
theorem signed_of_verifyCheckpoint {cose : Octets} {cp : VerifiedCheckpoint}
    (h : verifyCheckpoint P cose = .ok cp) : Signed P cose cp := by
  have hbody : checkpointBody P cose = some (.ok cp) := by
    rw [verifyCheckpoint] at h
    cases hbody : checkpointBody P cose with
    | none => rw [hbody] at h; cases h
    | some found => rw [hbody] at h; exact congrArg some h
  unfold checkpointBody at hbody
  by_cases htagged : List.length cose < 2 ∨ cose[0]? ≠ some 0xd2 ∨ cose[1]? ≠ some 0x84
  · rw [if_pos htagged] at hbody
    cases hbody
  · rw [if_neg htagged] at hbody
    obtain ⟨items, -, hbody⟩ := Option.bind_eq_some_iff.mp hbody
    split at hbody
    · cases hbody
    · next protectedBstr payload signature hparts =>
        rw [eq_array_of_signedParts hparts] at hbody
        by_cases hcanonical : 0xd2 :: P.cborg.encode
            (.array [.bytes protectedBstr, .map [], .bytes payload, .bytes signature]) = cose
        · rw [if_neg (not_not.mpr hcanonical)] at hbody
          obtain ⟨kid, claims, hpayload, hsize, hlength, hkid, hverified, hprev, hlt, hextends⟩ :=
            readParts_ok hbody
          exact ⟨⟨protectedBstr, payload, signature, kid, claims, hcanonical.symm, hpayload, hsize, hlength, hkid,
            hverified⟩, hprev, hlt, hextends⟩
        · rw [if_pos hcanonical] at hbody
          cases hbody

theorem verifyCheckpoint_of_body {cose : Octets} {cp : VerifiedCheckpoint}
    (h : checkpointBody P cose = some (.ok cp)) : verifyCheckpoint P cose = .ok cp := by
  rw [verifyCheckpoint, h, Option.getD_some]

end ScittCose.Witness
