import ScittCose.Cll.SigningBody
import ScittCose.Lib.JsonTree

/-!
# The browser's entry hash of a checkpoint (`checkpointEntryHash` in `viewer/src/witness.js`)

The entry a witness logs for a checkpoint is the hash of the hash of its JSON. The page and
`Checkpoint.ts_entry_hash` render the same nine fields with different writers. The log id is the only field
that may leave ASCII, and the two entries are one exactly when it stays below `DEL`
(`checkpointEntryHash_eq_iff`).
-/

namespace ScittCose.Witness

open Json (Tree Ascii)

/-! ## Times -/

section Time

/-- `\d` -/
def isDigit (c : Char) : Bool := '0' ≤ c && c ≤ '9'

/-- Whether characters match a template: a `0` of it is any digit, every other character itself. -/
def fits (template cs : List Char) : Bool :=
  template.length == cs.length &&
    (template.zip cs).all fun p => if p.1 = '0' then isDigit p.2 else p.1 = p.2

/-- The number of a run of digits. -/
def number (cs : List Char) : ℕ := cs.foldl (fun n c => n * 10 + (c.toNat - 48)) 0

/-- The digits of a number, to a width. -/
def padded (width n : ℕ) : List Char :=
  let digits := Nat.toDigits 10 n
  List.replicate (width - digits.length) '0' ++ digits

/-- `MakeDay`: the days from the epoch to a day of the Gregorian calendar. -/
def makeDay (year : ℤ) (month day : ℕ) : ℤ :=
  let y := if month ≤ 2 then year - 1 else year
  let dayOfYear := (153 * ((month + 9) % 12) + 2) / 5 + day - 1
  let yearOfEra := y % 400
  y / 400 * 146097 + (yearOfEra * 365 + yearOfEra / 4 - yearOfEra / 100 + dayOfYear) - 719468

/-- The year, month and day of a day from the epoch on. -/
def dateOfDay (day : ℤ) : ℤ × ℕ × ℕ :=
  let z := day + 719468
  let dayOfEra := (z % 146097).toNat
  let yearOfEra := (dayOfEra - dayOfEra / 1460 + dayOfEra / 36524 - dayOfEra / 146096) / 365
  let dayOfYear := dayOfEra - (365 * yearOfEra + yearOfEra / 4 - yearOfEra / 100)
  let m := (5 * dayOfYear + 2) / 153
  let month := if m < 10 then m + 3 else m - 9
  let year := z / 146097 * 400 + yearOfEra
  (if month ≤ 2 then year + 1 else year, month, dayOfYear - (153 * m + 2) / 5 + 1)

/-- `new Date(...)` on a date and time with a zone, as the milliseconds from the epoch on; a field out of its
range is an invalid date. -/
def parseDate (dateTime millis zone : List Char) : Option ℤ :=
  let field i n := number ((dateTime.drop i).take n)
  let month := field 5 2
  let day := field 8 2
  let hour := field 11 2
  let minute := field 14 2
  let second := field 17 2
  let zoneHour := number ((zone.drop 1).take 2)
  let zoneMinute := number (zone.drop 4)
  let midnight := minute = 0 ∧ second = 0 ∧ number millis = 0
  if (1 ≤ month ∧ month ≤ 12) ∧ (1 ≤ day ∧ day ≤ 31) ∧ (hour ≤ 23 ∨ hour = 24 ∧ midnight) ∧ minute ≤ 59 ∧
      second ≤ 59 ∧ zoneHour ≤ 23 ∧ zoneMinute ≤ 59 then
    let offset : ℤ := zoneHour * 60 + zoneMinute
    let offset := if zone.head? = some '-' then -offset else offset
    let minutes := makeDay (field 0 4) month day * 1440 + hour * 60 + minute - offset
    some ((minutes * 60 + second) * 1000 + number millis)
  else none

/-- `toISOString` -/
def toISOString (time : ℤ) : List Char :=
  let seconds := time / 1000
  let (year, month, day) := dateOfDay (seconds / 86400)
  let second := (seconds % 86400).toNat
  let years :=
    if 0 ≤ year ∧ year ≤ 9999 then padded 4 year.toNat
    else (if year < 0 then '-' else '+') :: padded 6 year.natAbs
  years ++ '-' :: padded 2 month ++ '-' :: padded 2 day ++ 'T' :: padded 2 (second / 3600) ++
    ':' :: padded 2 (second / 60 % 60) ++ ':' :: padded 2 (second % 60) ++
    '.' :: padded 3 (time % 1000).toNat ++ ['Z']

/-- `\d{4}-\d\d-\d\dT\d\d:\d\d:\d\d` -/
def dateTimeTemplate : List Char :=
  ['0', '0', '0', '0', '-', '0', '0', '-', '0', '0', 'T', '0', '0', ':', '0', '0', ':', '0', '0']

/-- `[+-]\d\d:\d\d`, with its sign -/
def zoneTemplate (sign : Char) : List Char := [sign, '0', '0', ':', '0', '0']

/-- `(?:\.(\d{1,9}))?`, and what follows it. -/
def fractionGroup : List Char → Option (List Char × List Char)
  | '.' :: rest =>
    let fraction := rest.takeWhile isDigit
    if 1 ≤ fraction.length ∧ fraction.length ≤ 9 then some (fraction, rest.dropWhile isDigit) else none
  | rest => some ([], rest)

/-- The three groups of the pattern of `goRFC3339Nano`. -/
def groups (value : List Char) : Option (List Char × List Char × List Char) := do
  let dateTime := value.take 19
  let (fraction, zone) ← fractionGroup (value.drop 19)
  if fits dateTimeTemplate dateTime ∧
      (zone = ['Z'] ∨ fits (zoneTemplate '+') zone ∨ fits (zoneTemplate '-') zone) then
    some (dateTime, fraction, zone)
  else none

/-- `goRFC3339Nano`; `none` is an exception. -/
def goRFC3339Nano (value : String) : Option String := do
  let (dateTime, fraction, zone) ← groups value.toList
  let fraction := fraction ++ List.replicate (9 - fraction.length) '0'
  let parsed ← parseDate dateTime (fraction.take 3) zone
  let trimmed := fraction.rdropWhile fun c => c == '0'
  let point := if trimmed = [] then [] else '.' :: trimmed
  return String.ofList ((toISOString parsed).take 19 ++ point ++ ['Z'])

end Time

/-! ## The entry hash -/

/-- What `verifyCheckpoint` returns of an accepted checkpoint, as far as the entry hash reads it. -/
structure VerifiedCheckpoint where
  logId : String
  size : ℤ
  root : String
  prevSize : ℤ
  prevRoot : String
  kid : String
  issuedAt : String

section Source

variable (H : Hash)

/-- `Number.isSafeInteger` -/
def isSafeInteger (n : ℤ) : Bool := -(2 ^ 53 - 1) ≤ n && n ≤ 2 ^ 53 - 1

/-- The projection of a checkpoint with its time as `goRFC3339Nano` renders it. -/
def projection (cp : VerifiedCheckpoint) (timestamp : String) : Tree :=
  .obj [("v", .int 1), ("kind", .str "mmr_checkpoint"), ("log_id", .str cp.logId), ("mmr_size", .int cp.size),
    ("root", .str cp.root), ("prev_size", .int cp.prevSize), ("prev_root", .str cp.prevRoot),
    ("key_id", .str cp.kid), ("timestamp", .str timestamp)]

mutual

/-- Whether `canonicalJson` throws at none of the numbers of a value; a double that is no integer is not safe. -/
def safeNumbers : Tree → Bool
  | .int n => isSafeInteger n
  | .float _ => false
  | .arr items => safeItems items
  | .obj fields => safeFields fields
  | _ => true

def safeItems : List Tree → Bool
  | [] => true
  | t :: items => safeNumbers t && safeItems items

def safeFields : List (String × Tree) → Bool
  | [] => true
  | (_, t) :: fields => safeNumbers t && safeFields fields

end

/-- `canonicalJson`; `none` is an exception. -/
def canonicalJson (value : Tree) : Option String :=
  if safeNumbers value then some (String.ofList (value.render (.jcs fun _ => []))) else none

/-- `checkpointEntryHash`; `none` is an exception. -/
def checkpointEntryHash (cp : VerifiedCheckpoint) : Option Octets := do
  let timestamp ← goRFC3339Nano cp.issuedAt
  let text ← canonicalJson (projection cp timestamp)
  return H.digest (H.digest (Utf8.encode text))

end Source

/-- The checkpoint of the library with the same fields. -/
def VerifiedCheckpoint.toCheckpoint (cp : VerifiedCheckpoint) (signature : String) : Cll.Checkpoint where
  v := 1
  kind := "mmr_checkpoint"
  logId := cp.logId
  mmrSize := cp.size
  root := cp.root
  prevSize := cp.prevSize
  prevRoot := cp.prevRoot
  keyId := cp.kid
  timestamp := cp.issuedAt
  signature := signature

/-- Digits and `a` to `f`. -/
def LowerHex (s : String) : Prop := ∀ c ∈ s.toList, c ∈ "0123456789abcdef".toList

instance (s : String) : Decidable (LowerHex s) := List.decidableBAll _ s.toList

/-! ## Characters of a time -/

theorem lt_of_isDigit {c : Char} (h : isDigit c = true) : c.toNat < 0x7f := by
  simp only [isDigit, Bool.and_eq_true, decide_eq_true_eq] at h
  have hle : c.toNat ≤ 57 := h.2
  omega

/-- What fits a template of ASCII is ASCII. -/
theorem ascii_of_fits {template cs : List Char} (ht : Ascii template) (h : fits template cs = true) :
    Ascii cs := by
  unfold fits at h
  rw [Bool.and_eq_true, beq_iff_eq, List.all_eq_true] at h
  obtain ⟨hlen, hall⟩ := h
  intro c hc
  obtain ⟨i, hi, rfl⟩ := List.getElem_of_mem hc
  have hmem : (template[i], cs[i]) ∈ template.zip cs :=
    List.mem_iff_getElem.mpr ⟨i, by simp [hlen, hi], List.getElem_zip⟩
  have hp := hall _ hmem
  dsimp only at hp
  split_ifs at hp with hzero
  · exact lt_of_isDigit hp
  · rw [← of_decide_eq_true hp]
    exact ht _ (List.getElem_mem _)

theorem ascii_of_fractionGroup {rest fraction zone : List Char}
    (h : fractionGroup rest = some (fraction, zone)) (hzone : Ascii zone) : Ascii rest := by
  unfold fractionGroup at h
  split at h
  · next rest =>
      dsimp only at h
      split_ifs at h
      obtain ⟨-, rfl⟩ := Prod.mk.inj (Option.some.inj h)
      refine List.forall_mem_cons.mpr ⟨by decide, ?_⟩
      rw [← List.takeWhile_append_dropWhile (p := isDigit) (l := rest)]
      exact Json.ascii_append.mpr ⟨fun c hc => lt_of_isDigit (List.mem_takeWhile_imp hc), hzone⟩
  · obtain ⟨-, rfl⟩ := Prod.mk.inj (Option.some.inj h)
    exact hzone

/-- A time the page accepts is written in ASCII. -/
theorem ascii_of_goRFC3339Nano {value text : String} (h : goRFC3339Nano value = some text) :
    Ascii value.toList := by
  have hdate : Ascii dateTimeTemplate := by decide
  have hplus : Ascii (zoneTemplate '+') := by decide
  have hminus : Ascii (zoneTemplate '-') := by decide
  have hz : Ascii ['Z'] := by decide
  unfold goRFC3339Nano at h
  obtain ⟨_, hgroups, -⟩ := Option.bind_eq_some_iff.mp h
  unfold groups at hgroups
  obtain ⟨⟨fraction, zone⟩, hfraction, hrest⟩ := Option.bind_eq_some_iff.mp hgroups
  dsimp only at hrest
  split_ifs at hrest with hcond
  have hzone : Ascii zone := by
    rcases hcond.2 with rfl | h | h
    · exact hz
    · exact ascii_of_fits hplus h
    · exact ascii_of_fits hminus h
  rw [← List.take_append_drop 19 value.toList]
  exact Json.ascii_append.mpr
    ⟨ascii_of_fits hdate hcond.1, ascii_of_fractionGroup hfraction hzone⟩

/-! ## Agreement -/

theorem ascii_of_lowerHex {s : String} (h : LowerHex s) : Ascii s.toList := by
  have hdigits : Ascii "0123456789abcdef".toList := by decide
  exact fun c hc => hdigits c (h c hc)

theorem signingBody_toCheckpoint (cp : VerifiedCheckpoint) (signature : String)
    {repr : UInt64 → List Char} :
    (cp.toCheckpoint signature).signingBody =
      String.ofList ((projection cp cp.issuedAt).render (.python repr)) :=
  congrArg String.ofList (Json.object_sortKeys _)

theorem floats_projection (cp : VerifiedCheckpoint) (timestamp : String) :
    (projection cp timestamp).floats = [] := rfl

/-- The keys and the kind of a projection. -/
theorem ascii_fixed : ∀ s ∈ ["v", "kind", "mmr_checkpoint", "log_id", "mmr_size", "root", "prev_size",
    "prev_root", "key_id", "timestamp"], Ascii s.toList := by decide

/-- A projection leaves ASCII only by its log id. -/
theorem ascii_projection_iff {cp : VerifiedCheckpoint} {timestamp : String} (hroot : Ascii cp.root.toList)
    (hprevRoot : Ascii cp.prevRoot.toList) (hkid : Ascii cp.kid.toList)
    (htime : Ascii timestamp.toList) :
    Ascii (projection cp timestamp).chars ↔ Ascii cp.logId.toList := by
  have hfixed := ascii_fixed
  simp only [List.forall_mem_cons, List.not_mem_nil, false_implies, implies_true, and_true] at hfixed
  obtain ⟨h1, h2, h3, h4, h5, h6, h7, h8, h9, h10⟩ := hfixed
  have hnil : Ascii [] := fun c hc => by cases hc
  simp only [projection, Tree.chars, Json.charsFields, Json.ascii_append, h1, h2, h3, h4, h5, h6, h7, h8,
    h9, h10, hroot, hprevRoot, hkid, htime, hnil, true_and, and_true]

theorem canonicalJson_projection {cp : VerifiedCheckpoint} {timestamp : String}
    (hsize : isSafeInteger cp.size = true) (hprevSize : isSafeInteger cp.prevSize = true) :
    canonicalJson (projection cp timestamp) =
      some (String.ofList ((projection cp timestamp).render (.jcs fun _ => []))) := by
  refine if_pos ?_
  simp only [projection, safeNumbers, safeFields, hsize, hprevSize, Bool.and_true]
  decide

/-- The text the page hashes, of a checkpoint whose time stays as it is. -/
def entryText (cp : VerifiedCheckpoint) : String :=
  String.ofList ((projection cp cp.issuedAt).render (.jcs fun _ => []))

theorem checkpointEntryHash_eq {H : Hash} {cp : VerifiedCheckpoint}
    (hsize : isSafeInteger cp.size = true) (hprevSize : isSafeInteger cp.prevSize = true)
    (htime : goRFC3339Nano cp.issuedAt = some cp.issuedAt) :
    checkpointEntryHash H cp = some (H.digest (H.digest (Utf8.encode (entryText cp)))) := by
  unfold checkpointEntryHash
  rw [htime, Option.bind_eq_bind, Option.bind_some, canonicalJson_projection hsize hprevSize]
  rfl

/-- What the two entries of a checkpoint hash. -/
def entryHashInputs (H : Hash) (cp : VerifiedCheckpoint) (signature : String) : List Octets :=
  [Utf8.encode (entryText cp), H.digest (Utf8.encode (entryText cp))] ++
    (cp.toCheckpoint signature).tsEntryHashInputs H

/-- The page and the library compute one entry hash for a checkpoint whose log id stays below `DEL`, and for
no other, but for a collision. -/
theorem checkpointEntryHash_eq_iff (H : Hash) (cp : VerifiedCheckpoint) (signature : String)
    (hsize : isSafeInteger cp.size = true) (hprevSize : isSafeInteger cp.prevSize = true)
    (hroot : LowerHex cp.root) (hprevRoot : LowerHex cp.prevRoot) (hkid : LowerHex cp.kid)
    (htime : goRFC3339Nano cp.issuedAt = some cp.issuedAt) :
    ∃ entry, checkpointEntryHash H cp = some entry ∧
      (Ascii cp.logId.toList →
        (cp.toCheckpoint signature).tsEntryHash H = some (Octets.toHex entry)) ∧
      ((cp.toCheckpoint signature).tsEntryHash H = some (Octets.toHex entry) →
        Ascii cp.logId.toList ∨ H.Collision (entryHashInputs H cp signature)) := by
  have hascii := @ascii_projection_iff cp _ (ascii_of_lowerHex hroot) (ascii_of_lowerHex hprevRoot)
    (ascii_of_lowerHex hkid) (ascii_of_goRFC3339Nano htime)
  have hrender := Json.render_eq_iff (fun _ => []) (fun _ => []) (floats_projection cp cp.issuedAt)
  have hbody := @signingBody_toCheckpoint cp signature fun _ => []
  refine ⟨_, checkpointEntryHash_eq hsize hprevSize htime, ?_, ?_⟩
  · intro hlog
    rw [Cll.tsEntryHash_eq, hbody, hrender.mpr (hascii.mpr hlog)]
    rfl
  · intro heq
    rw [Cll.tsEntryHash_eq, Option.some.injEq, Octets.toHex_inj] at heq
    refine or_iff_not_imp_right.mpr fun hno => ?_
    have hmem : ∀ x ∈ (cp.toCheckpoint signature).tsEntryHashInputs H,
        x ∈ entryHashInputs H cp signature := fun x hx => List.mem_append_right _ hx
    have hdigest := Hash.eq_of_digest_eq hno (hmem _ (by simp [Cll.Checkpoint.tsEntryHashInputs]))
      (by simp [entryHashInputs]) heq
    have htext := Hash.eq_of_digest_eq hno (hmem _ (by simp [Cll.Checkpoint.tsEntryHashInputs]))
      (by simp [entryHashInputs]) hdigest
    have hchars := Utf8.encode_injective htext
    rw [hbody] at hchars
    exact hascii.mp (hrender.mp (String.ofList_injective hchars))

/-- A checkpoint of a log by its id. -/
def sampleCheckpoint (logId : String) : VerifiedCheckpoint where
  logId := logId
  size := 7
  root := "0a"
  prevSize := 4
  prevRoot := "0b"
  kid := "0c"
  issuedAt := "2026-02-28T09:30:00.25Z"

set_option maxRecDepth 100000 in
theorem checkpointEntryHash_eq_iff_sample :
    ∃ entry, checkpointEntryHash Hash.sha256 (sampleCheckpoint "log/1") = some entry ∧
      ((sampleCheckpoint "log/1").toCheckpoint "").tsEntryHash Hash.sha256 = some (Octets.toHex entry) := by
  obtain ⟨entry, hentry, hagree, -⟩ := checkpointEntryHash_eq_iff Hash.sha256 (sampleCheckpoint "log/1") ""
    (by decide) (by decide) (by decide) (by decide) (by decide) (by decide +kernel)
  exact ⟨entry, hentry, hagree (by decide)⟩

set_option maxRecDepth 100000 in
/-- A log id outside ASCII: a receipt over one entry is not one over the other. -/
theorem checkpointEntryHash_differs :
    let cp := sampleCheckpoint "é"
    goRFC3339Nano cp.issuedAt = some cp.issuedAt ∧
      (checkpointEntryHash Hash.sha256 cp).map Octets.toHex ≠
        (cp.toCheckpoint "").tsEntryHash Hash.sha256 := by
  decide +kernel

end ScittCose.Witness
