import ScittCose.Lib.Base64
import ScittCose.Witness.Checkpoint

/-!
# Receipts against a witness list (`checkReceipts` in `viewer/src/witness.js`)

The reader of a bundle may choose a list of witnesses. A receipt passes when it is for the checkpoint, the list
has a row for its witness, and it verifies under a key of that row; without a list or a row it is "present, not
checked". `none` is an exception, which fails one receipt.

A receipt that passes is `Accepted` (`accepted_of_checkReceipt`), so that none does without a list; receipts that
pass together are those of a `Registered` checkpoint (`registered_of_overall`).
-/

namespace ScittCose.Witness

open Cbor Json
open Pages (truthy orElse strOf)

/-! ## Texts -/

/-- The white space of `trim`. -/
def isJsSpace (c : Char) : Bool :=
  let n := c.toNat
  (9 ≤ n && n ≤ 13) || n == 0x20 || n == 0xa0 || n == 0x1680 || (0x2000 ≤ n && n ≤ 0x200a) || n == 0x2028 ||
    n == 0x2029 || n == 0x202f || n == 0x205f || n == 0x3000 || n == 0xfeff

/-- `s.trim()` -/
def trim (cs : List Char) : List Char := (cs.dropWhile isJsSpace).rdropWhile isJsSpace

/-- `b64Decode`. What has a character outside the basic plane, whose length counts double, is refused anyway. -/
def b64Decode (s : String) (urlSafe : Bool) : Option Octets :=
  let t := trim s.toList
  let t := if urlSafe then t.map Base64.ofUrl else t
  Base64.decode (t ++ List.replicate (Base64.padding t.length) '=')

theorem isJsSpace_toUrl {n : ℕ} (h : n < 64) : isJsSpace (Base64.toUrl (Base64.digit n)) = false := by
  revert n
  decide

/-- There is nothing to trim of the URL-safe form. -/
theorem trim_encodeUrl (b : Octets) : trim (Base64.encodeUrl b) = Base64.encodeUrl b := by
  have hspace : ∀ c ∈ Base64.encodeUrl b, ¬ isJsSpace c = true := by
    intro c hc
    rw [Base64.encodeUrl_eq] at hc
    obtain ⟨digit, hdigit, rfl⟩ := List.mem_map.mp hc
    obtain ⟨n, hn, rfl⟩ := List.mem_map.mp hdigit
    rw [isJsSpace_toUrl (Base64.lt_of_mem_sextets hn)]
    exact Bool.false_ne_true
  unfold trim
  have hleft : (Base64.encodeUrl b).dropWhile isJsSpace = Base64.encodeUrl b :=
    List.dropWhile_eq_self_iff.mpr fun hne => hspace _ (List.getElem_mem hne)
  rw [hleft, List.rdropWhile_eq_self_iff]
  exact fun hne => hspace _ (List.getLast_mem hne)

/-- What is written in the URL-safe form is read back. -/
theorem b64Decode_encodeUrl (b : Octets) : b64Decode (String.ofList (Base64.encodeUrl b)) true = some b := by
  unfold b64Decode
  rw [String.toList_ofList, trim_encodeUrl]
  exact Base64.decodeUrl_encodeUrl b

/-- `/^\d+$/` -/
def isDigits (s : String) : Bool := s.toList != [] && s.toList.all isDigit

/-- `asInt`, on texts of less than three hundred digits. -/
def asInt : Option Tree → Option Tree
  | some (.str s) => if isDigits s then some (.int (Js.num (number s.toList))) else some (.str s)
  | v => v

/-- What comes before `://`, if anything does. -/
def schemeOf : List Char → Option (List Char)
  | ':' :: '/' :: '/' :: _ => some []
  | c :: cs => (schemeOf cs).map (c :: ·)
  | [] => none

/-- `toLowerCase` of a character, as far as it can give a letter of ASCII; the Kelvin sign is the one that is not
a letter of ASCII itself. -/
def toLower (c : Char) : Char :=
  if 'A' ≤ c ∧ c ≤ 'Z' then Char.ofNat (c.toNat + 32) else if c.toNat = 0x212a then 'k' else c

/-- `witnessBinding` -/
def witnessBinding (url : String) : String :=
  match schemeOf url.toList with
  | none => "cll"
  | some scheme =>
    let scheme := scheme.map toLower
    if "rekor+".toList.isPrefixOf scheme then "rekor"
    else if "scrapi+".toList.isPrefixOf scheme then "scrapi"
    else "cll"

/-- `url.replace(/\/+$/, "")` -/
def stripSlashes (url : String) : String := String.ofList (url.toList.rdropWhile fun c => c = '/')

/-- `witnessEndpoint` -/
def witnessEndpoint (url : String) : String :=
  stripSlashes (if witnessBinding url ≠ "cll" then String.ofList ((url.toList.dropWhile fun c => c ≠ '+').drop 1)
    else url)

/-! ## The list of the reader -/

section Source

variable (P : Page)

/-- `ED25519_SPKI_PREFIX` -/
def ed25519SpkiPrefix : Octets := [0x30, 0x2a, 0x30, 0x05, 0x06, 0x03, 0x2b, 0x65, 0x70, 0x03, 0x21, 0x00]

/-- The items of a member that is an array. -/
def itemsAt (row : Tree) (key : String) : List Tree :=
  match row.member? key with
  | some (.arr items) => items
  | _ => []

/-- A public key of a row, by the hash of its encoding; what is no key is passed over. -/
def publicKey (b64 : Tree) : Option (String × Octets) := do
  let text ← strOf (some b64)
  let der ← b64Decode text false
  if der.length = 44 ∧ der.take 12 = ed25519SpkiPrefix then
    return (Octets.toHex (P.hash.digest der), der.drop 12)
  else none

/-- `/^[0-9a-f]{64}$/` -/
def isLowerHex64 (s : String) : Bool :=
  s.toList.length == 64 && s.toList.all fun c => "0123456789abcdef".toList.contains c

/-- `rowKeys`; of two keys of one hash the last counts. -/
def rowKeys (row : Tree) : List Octets :=
  let byHash := ((itemsAt row "public_keys").filterMap (publicKey P)).reverse
  (itemsAt row "key_ids").filterMap fun id => do
    let id ← strOf (some id)
    match byHash.lookup id with
    | some key => some key
    | none => if isLowerHex64 id then MmrJs.hexToBytes id else none

/-- Whether a row of the list is that of a witness. -/
def isRowOf (url : String) (row : Tree) : Bool :=
  strOf (some (orElse (row.member? "binding") (.str "cll"))) == some (witnessBinding url) &&
    (strOf (row.member? "endpoint")).any fun endpoint => stripSlashes endpoint == witnessEndpoint url

/-! ## The receipts -/

/-- A status of the evidence or of a part of it. -/
inductive EvidenceStatus where
  | pass
  | fail
  | withheld
  | absent
deriving DecidableEq

/-- What is shown of a receipt. -/
structure ReceiptCheck where
  witness : String
  status : EvidenceStatus
  reason : String

/-- A JSON value as `verifyReceipt` is given it. -/
def itemOf : Option Tree → Item
  | none => .simple 23
  | some .null => .null
  | some (.bool b) => .bool b
  | some (.int n) => if -2 ^ 53 < n ∧ n < 2 ^ 53 then .int n else .float 8 (P.doubleOf n.natAbs)
  | some (.float bits) => .float 8 bits.toNat
  | some (.str s) => .text s
  | some _ => .foreign 0

/-- The witness a carried receipt names. -/
def witnessUrl (e : Tree) : String := (strOf (e.member? "ts_url")).getD ""

/-- Whether a carried receipt verifies under a key. -/
def verifiesUnder (entry : Octets) (e : Tree) (bytes key : Octets) : Bool :=
  verifyReceipt P.toPlatform entry bytes (itemOf P (asInt (e.member? "leaf_index")))
    (itemOf P (asInt (e.member? "tree_size"))) key

/-- What is found of one receipt; `none` is an exception. -/
def receiptBody (entry : Octets) (list : Option (List Tree)) (e : Tree) : Option (EvidenceStatus × String) := do
  let url := witnessUrl e
  let stated ← Pages.prop (some e) "entry_hash"
  if strOf stated ≠ some (Octets.toHex entry) then return (.fail, "the receipt is for a different checkpoint")
  match list with
  | none => return (.withheld, "present, not checked: choose a witness list to check it")
  | some rows =>
    match rows.find? (isRowOf url) with
    | none => return (.withheld, "present, not checked: your witness list has no entry for this witness")
    | some row =>
      if witnessBinding url ≠ "cll" then
        return (.withheld, "present, not checked: this page checks cll receipts only, not " ++ witnessBinding url)
      if rowKeys P row = [] then
        return (.withheld, "present, not checked: your witness list names no usable key for this witness")
      let text ← strOf (e.member? "receipt_b64")
      let bytes ← b64Decode text false
      if (rowKeys P row).any (verifiesUnder P entry e bytes) then
        let name ← P.js.text (orElse (row.member? "name") (.str (witnessEndpoint url)))
        return (.pass, "verified under " ++ name ++ "'s key from your witness list")
      else return (.fail, "does not verify under the key your witness list names")

/-- One round of the loop of `checkReceipts`. -/
def checkReceipt (entry : Octets) (list : Option (List Tree)) (e : Tree) : ReceiptCheck :=
  let found := (receiptBody P entry list e).getD (.fail, "malformed receipt")
  ⟨witnessUrl e, found.1, found.2⟩

/-- What `for (const e of entries || [])` goes through. -/
def entriesOf (entries : Option Tree) : Option (List Tree) :=
  match orElse entries (.arr []) with
  | .arr items => some items
  | .str s => some (s.toList.map fun c => .str (String.ofList [c]))
  | _ => none

/-- `checkReceipts` -/
def checkReceipts (cp : VerifiedCheckpoint) (entries : Option Tree) (list : Option (List Tree)) :
    Option (List ReceiptCheck) := do
  let entry ← checkpointEntryHash P.hash cp
  let items ← entriesOf entries
  return items.map (checkReceipt P entry list)

/-- `overall` -/
def overall (receipts : List ReceiptCheck) : EvidenceStatus :=
  if receipts.any fun r => r.status = .fail then .fail
  else if receipts.any fun r => r.status = .pass then .pass
  else .withheld

end Source

/-! ## A receipt that passes -/

/-- A carried receipt is for the entry of a checkpoint, and verifies under a key of the row its witness has in a
list. -/
def Accepted (P : Page) (cp : VerifiedCheckpoint) (rows : List Tree) (e : Tree) : Prop :=
  ∃ entry text bytes row key, checkpointEntryHash P.hash cp = some entry ∧
    strOf (e.member? "entry_hash") = some (Octets.toHex entry) ∧ strOf (e.member? "receipt_b64") = some text ∧
    b64Decode text false = some bytes ∧ rows.find? (isRowOf (witnessUrl e)) = some row ∧ key ∈ rowKeys P row ∧
    verifiesUnder P entry e bytes key = true

variable {P : Page}

theorem receiptBody_pass {cp : VerifiedCheckpoint} {entry : Octets} {list : Option (List Tree)} {e : Tree}
    {reason : String} (hentry : checkpointEntryHash P.hash cp = some entry)
    (h : receiptBody P entry list e = some (.pass, reason)) :
    ∃ rows, list = some rows ∧ Accepted P cp rows e := by
  obtain ⟨stated, hstated, h⟩ := Option.bind_eq_some_iff.mp h
  have hmember : stated = e.member? "entry_hash" := by
    cases e with
    | null => cases hstated
    | _ => exact (Option.some.inj hstated).symm
  rw [hmember] at h
  by_cases hhash : strOf (e.member? "entry_hash") = some (Octets.toHex entry)
  · rw [if_neg (not_not.mpr hhash)] at h
    cases list with
    | none => cases h
    | some rows =>
        simp only at h
        cases hrow : rows.find? (isRowOf (witnessUrl e)) with
        | none => rw [hrow] at h; cases h
        | some row =>
            rw [hrow] at h
            simp only at h
            -- a row of another binding, or without a key, leaves the receipt unchecked
            split_ifs at h
            · cases h
            · cases h
            · obtain ⟨text, htext, h⟩ := Option.bind_eq_some_iff.mp h
              obtain ⟨bytes, hbytes, h⟩ := Option.bind_eq_some_iff.mp h
              split_ifs at h with hany
              · obtain ⟨key, hkey, hverified⟩ := List.any_eq_true.mp hany
                exact ⟨rows, rfl, entry, text, bytes, row, key, hentry, hhash, htext, hbytes, hrow, hkey, hverified⟩
              · cases h
  · rw [if_pos hhash] at h
    cases h

theorem accepted_of_checkReceipt {cp : VerifiedCheckpoint} {entry : Octets} {list : Option (List Tree)} {e : Tree}
    (hentry : checkpointEntryHash P.hash cp = some entry) (h : (checkReceipt P entry list e).status = .pass) :
    ∃ rows, list = some rows ∧ Accepted P cp rows e := by
  unfold checkReceipt at h
  cases hbody : receiptBody P entry list e with
  | none => rw [hbody] at h; cases h
  | some found =>
      rw [hbody] at h
      have hfound : found = (.pass, found.2) := Prod.ext h rfl
      exact receiptBody_pass hentry (hbody.trans (congrArg some hfound))

/-- The status of several receipts is a pass when none fails and one passes. -/
theorem overall_eq_pass_iff {receipts : List ReceiptCheck} :
    overall receipts = .pass ↔ (∀ r ∈ receipts, r.status ≠ .fail) ∧ ∃ r ∈ receipts, r.status = .pass := by
  unfold overall
  simp only [List.any_eq_true, decide_eq_true_eq]
  split_ifs with hfail hpass
  · obtain ⟨r, hr, hstatus⟩ := hfail
    exact iff_of_false nofun fun h => h.1 r hr hstatus
  · exact iff_of_true rfl ⟨fun r hr hstatus => hfail ⟨r, hr, hstatus⟩, hpass⟩
  · exact iff_of_false nofun fun h => hpass h.2

/-- Receipts carried for a registered checkpoint: none fails, and one is accepted under a key of the list. -/
structure Registered (P : Page) (cp : VerifiedCheckpoint) (entries : Option Tree) (rows : List Tree)
    (receipts : List ReceiptCheck) : Prop where
  checked : checkReceipts P cp entries (some rows) = some receipts
  none_fails : ∀ r ∈ receipts, r.status ≠ .fail
  accepted : ∃ carried, entriesOf entries = some carried ∧ ∃ e ∈ carried, Accepted P cp rows e

/-- Receipts that pass together are those of a registered checkpoint, and there is a list. -/
theorem registered_of_overall {cp : VerifiedCheckpoint} {entries : Option Tree} {list : Option (List Tree)}
    {receipts : List ReceiptCheck} (h : checkReceipts P cp entries list = some receipts)
    (hpass : overall receipts = .pass) :
    ∃ rows, list = some rows ∧ Registered P cp entries rows receipts := by
  obtain ⟨hnone, r, hr, hstatus⟩ := overall_eq_pass_iff.mp hpass
  obtain ⟨entry, hentry, hitems⟩ := Option.bind_eq_some_iff.mp h
  obtain ⟨items, hentries, hitems⟩ := Option.bind_eq_some_iff.mp hitems
  rw [← Option.some.inj hitems] at hr
  obtain ⟨e, he, rfl⟩ := List.mem_map.mp hr
  obtain ⟨rows, rfl, haccepted⟩ := accepted_of_checkReceipt hentry hstatus
  exact ⟨rows, rfl, h, hnone, items, hentries, e, he, haccepted⟩

end ScittCose.Witness
