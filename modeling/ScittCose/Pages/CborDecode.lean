import ScittCose.Lib.CborFloat
import ScittCose.Lib.JsNumber

/-!
# The CBOR reader of the capsule page (`_cborDecode` in `hosted_profiles/hosted.py`)

The page reads just enough CBOR for a statement. A value of JavaScript is an `Item`: a number that is an integer is
an `int`, any other number a `float` of eight octets, a `Map` a `map` whose keys are pairwise different, an object
with a `cborTag` a `tag`, and `undefined` the simple value 23. A thrown error is `none`.

The page reads on past the end: an octet that is not there counts as 0, and the text of octets is whatever the
platform makes of them. So it takes octets that hold no item. Of octets that do, it reads the item or throws
(`valueOf_of_decode`), and it reads all that is written with definite lengths, finite floats and no simple value
but those of JSON (`cborDecode_encode`).
-/

namespace Cbor

/-! ## What a read leaves -/

theorem length_of_readArgument {info n : ℕ} {b rest : Octets} (h : readArgument info b = some (n, rest)) :
    rest.length ≤ b.length := by
  rw [readArgument] at h
  split_ifs at h with h24 h28
  · cases h
    exact le_rfl
  · dsimp only at h
    split_ifs at h
    cases h
    rw [List.length_drop]
    exact Nat.sub_le _ _

theorem length_of_readOctets {n : ℕ} {b s rest : Octets} (h : readOctets n b = some (s, rest)) :
    n ≤ b.length ∧ rest.length ≤ b.length ∧ s = b.take n ∧ rest = b.drop n := by
  rw [readOctets] at h
  split_ifs at h with hlen
  cases h
  rw [List.length_drop]
  exact ⟨not_lt.mp hlen, by omega, rfl, rfl⟩

section Read

variable {α : Type} {read : Octets → Option (α × Octets)}

/-- Things of an octet each are no more than the octets. -/
theorem length_of_readMany (hread : ∀ {b x rest}, read b = some (x, rest) → rest.length < b.length) {n : ℕ}
    {b rest : Octets} {xs : List α} (h : readMany read n b = some (xs, rest)) : rest.length + n ≤ b.length := by
  induction n generalizing b xs with
  | zero =>
      cases h
      exact le_rfl
  | succ n ih =>
      simp only [readMany, Option.bind_eq_bind, Option.bind_eq_some_iff] at h
      obtain ⟨⟨x, b'⟩, hx, ⟨ys, b''⟩, hys, h⟩ := h
      cases h
      have hx' : b'.length < b.length := hread hx
      have hys' : b''.length + n ≤ b'.length := ih hys
      change b''.length + (n + 1) ≤ b.length
      omega

theorem length_le_of_readMany (hread : ∀ {b x rest}, read b = some (x, rest) → rest.length ≤ b.length) {n : ℕ}
    {b rest : Octets} {xs : List α} (h : readMany read n b = some (xs, rest)) : rest.length ≤ b.length := by
  induction n generalizing b xs with
  | zero =>
      cases h
      exact le_rfl
  | succ n ih =>
      simp only [readMany, Option.bind_eq_bind, Option.bind_eq_some_iff] at h
      obtain ⟨⟨x, b'⟩, hx, ⟨ys, b''⟩, hys, h⟩ := h
      cases h
      exact (ih hys).trans (hread hx)

theorem length_readMany {n : ℕ} {b rest : Octets} {xs : List α} (h : readMany read n b = some (xs, rest)) :
    xs.length = n := by
  induction n generalizing b xs with
  | zero =>
      cases h
      rfl
  | succ n ih =>
      simp only [readMany, Option.bind_eq_bind, Option.bind_eq_some_iff] at h
      obtain ⟨⟨x, b'⟩, hx, ⟨ys, b''⟩, hys, h⟩ := h
      cases h
      exact congrArg (· + 1) (ih hys)

/-- Reading many things only goes by how what is left is read. -/
theorem readMany_congr {read' : Octets → Option (α × Octets)} {l : ℕ}
    (hread : ∀ b, b.length ≤ l → read b = read' b)
    (hle : ∀ {b x rest}, read b = some (x, rest) → rest.length ≤ b.length) (n : ℕ) {b : Octets}
    (hb : b.length ≤ l) : readMany read n b = readMany read' n b := by
  induction n generalizing b with
  | zero => rfl
  | succ n ih =>
      rw [readMany, readMany, ← hread b hb]
      cases hx : read b with
      | none => rfl
      | some r =>
          have := ih ((hle hx).trans hb)
          simp only [Option.bind_eq_bind, Option.bind_some, this]

theorem length_of_readToBreak (hread : ∀ {b x rest}, read b = some (x, rest) → rest.length < b.length)
    {fuel : ℕ} {b rest : Octets} {xs : List α} (h : readToBreak read fuel b = some (xs, rest)) :
    rest.length < b.length := by
  induction fuel generalizing b xs with
  | zero => cases h
  | succ fuel ih =>
      cases b with
      | nil => cases h
      | cons a b =>
          rw [readToBreak] at h
          split_ifs at h
          · cases h
            exact Nat.lt_succ_self _
          · simp only [Option.bind_eq_bind, Option.bind_eq_some_iff] at h
            obtain ⟨⟨x, b'⟩, hx, ⟨ys, b''⟩, hys, h⟩ := h
            cases h
            have hx' : b'.length < (a :: b).length := hread hx
            exact (ih hys).trans hx'

end Read

theorem length_of_readChunk {major : ℕ} {b s rest : Octets} (h : readChunk major b = some (s, rest)) :
    rest.length < b.length := by
  cases b with
  | nil => cases h
  | cons a b =>
      rw [readChunk] at h
      split_ifs at h
      simp only [Option.bind_eq_bind, Option.bind_eq_some_iff] at h
      obtain ⟨⟨n, b'⟩, hn, h⟩ := h
      have hle : rest.length ≤ b'.length := (length_of_readOctets h).2.1
      exact Nat.lt_succ_of_le (hle.trans (length_of_readArgument hn))

theorem length_of_readString {major info : ℕ} {b s rest : Octets}
    (h : readString major info b = some (s, rest)) : rest.length ≤ b.length := by
  rw [readString] at h
  split_ifs at h
  · simp only [Option.bind_eq_bind, Option.bind_eq_some_iff] at h
    obtain ⟨⟨chunks, b'⟩, hchunks, h⟩ := h
    cases h
    exact (length_of_readToBreak length_of_readChunk hchunks).le
  · simp only [Option.bind_eq_bind, Option.bind_eq_some_iff] at h
    obtain ⟨⟨n, b'⟩, hn, h⟩ := h
    exact (length_of_readOctets h).2.1.trans (length_of_readArgument hn)

theorem length_of_readText {info : ℕ} {b rest : Octets} {s : String} (h : readText info b = some (s, rest)) :
    rest.length ≤ b.length := by
  rw [readText] at h
  split_ifs at h
  · simp only [Option.bind_eq_bind, Option.bind_eq_some_iff] at h
    obtain ⟨⟨chunks, b'⟩, hchunks, h⟩ := h
    cases h
    refine (length_of_readToBreak ?_ hchunks).le
    intro b x rest hread
    simp only [Option.bind_eq_some_iff] at hread
    obtain ⟨⟨c, b'⟩, hc, s, -, h⟩ := hread
    cases h
    exact length_of_readChunk hc
  · simp only [Option.bind_eq_bind, Option.bind_eq_some_iff] at h
    obtain ⟨⟨c, b'⟩, hc, s, -, h⟩ := h
    cases h
    exact length_of_readString hc

theorem length_of_readSimple {info : ℕ} {b rest : Octets} {i : Item} (h : readSimple info b = some (i, rest)) :
    rest.length ≤ b.length := by
  rw [readSimple] at h
  split_ifs at h
  · cases h; exact le_rfl
  · cases h; exact le_rfl
  · cases h; exact le_rfl
  · cases h; exact le_rfl
  all_goals
    simp only [Option.bind_eq_bind, Option.bind_eq_some_iff] at h
    obtain ⟨⟨n, b'⟩, hn, h⟩ := h
    dsimp only at h
  · split_ifs at h
    cases h
    exact length_of_readArgument hn
  · cases h
    exact length_of_readArgument hn

theorem length_of_readPair_lt {read : Octets → Option (Item × Octets)}
    (hread : ∀ {b x rest}, read b = some (x, rest) → rest.length < b.length) {b rest : Octets} {p : Item × Item}
    (h : readPair read b = some (p, rest)) : rest.length < b.length := by
  simp only [readPair, Option.bind_eq_bind, Option.bind_eq_some_iff] at h
  obtain ⟨⟨k, b'⟩, hk, ⟨v, b''⟩, hv, h⟩ := h
  cases h
  exact (hread hv).trans (hread hk)

/-- Every item takes an octet. -/
theorem length_of_decodeFuel {fuel : ℕ} {b rest : Octets} {i : Item} (h : decodeFuel fuel b = some (i, rest)) :
    rest.length < b.length := by
  induction fuel generalizing b rest i with
  | zero => cases h
  | succ fuel ih =>
      have hpair : ∀ {b : Octets} {p rest}, readPair (decodeFuel fuel) b = some (p, rest) →
          rest.length < b.length := length_of_readPair_lt ih
      cases b with
      | nil => cases h
      | cons a b =>
          suffices hle : rest.length ≤ b.length from Nat.lt_succ_of_le hle
          rw [decodeFuel] at h
          dsimp only at h
          split at h
          · simp only [Option.bind_eq_bind, Option.bind_eq_some_iff] at h
            obtain ⟨⟨n, b'⟩, hn, h⟩ := h
            cases h
            exact length_of_readArgument hn
          · simp only [Option.bind_eq_bind, Option.bind_eq_some_iff] at h
            obtain ⟨⟨n, b'⟩, hn, h⟩ := h
            cases h
            exact length_of_readArgument hn
          · simp only [Option.bind_eq_bind, Option.bind_eq_some_iff] at h
            obtain ⟨⟨s, b'⟩, hs, h⟩ := h
            cases h
            exact length_of_readString hs
          · simp only [Option.bind_eq_bind, Option.bind_eq_some_iff] at h
            obtain ⟨⟨s, b'⟩, hs, h⟩ := h
            cases h
            exact length_of_readText hs
          · split_ifs at h
            · simp only [Option.bind_eq_bind, Option.bind_eq_some_iff] at h
              obtain ⟨⟨xs, b'⟩, hxs, h⟩ := h
              cases h
              exact (length_of_readToBreak ih hxs).le
            · simp only [Option.bind_eq_bind, Option.bind_eq_some_iff] at h
              obtain ⟨⟨n, b'⟩, hn, ⟨xs, b''⟩, hxs, h⟩ := h
              cases h
              have hle : b''.length + n ≤ b'.length := length_of_readMany ih hxs
              exact (Nat.le_of_add_right_le hle).trans (length_of_readArgument hn)
          · split_ifs at h
            · simp only [Option.bind_eq_bind, Option.bind_eq_some_iff] at h
              obtain ⟨⟨ps, b'⟩, hps, h⟩ := h
              cases h
              exact (length_of_readToBreak hpair hps).le
            · simp only [Option.bind_eq_bind, Option.bind_eq_some_iff] at h
              obtain ⟨⟨n, b'⟩, hn, ⟨ps, b''⟩, hps, h⟩ := h
              cases h
              have hle : b''.length + n ≤ b'.length := length_of_readMany hpair hps
              exact (Nat.le_of_add_right_le hle).trans (length_of_readArgument hn)
          · simp only [Option.bind_eq_bind, Option.bind_eq_some_iff] at h
            obtain ⟨⟨n, b'⟩, hn, ⟨x, b''⟩, hx, h⟩ := h
            cases h
            exact (ih hx).le.trans (length_of_readArgument hn)
          · exact length_of_readSimple h

end Cbor

namespace ScittCose.Pages

open Cbor Js

/-! ## Numbers and maps -/

/-- The sign of a double. -/
def doubleSign (bits : ℕ) : ℤ := if signOf 8 bits = 0 then 1 else -1

/-- The digits of a finite double; the last one counts `2 ^ (exponent - 1075)`, or `2 ^ -1074` in a subnormal. -/
def doubleSignificand (bits : ℕ) : ℕ :=
  if exponentOf 8 bits = 0 then fractionOf 8 bits else 2 ^ 52 + fractionOf 8 bits

/-- The number of a double: an integer is one however it was written, and zero has no sign. -/
def ofDouble (bits : ℕ) : Item :=
  let exponent := exponentOf 8 bits
  if exponent = 2047 then .float 8 bits
  else if 1075 ≤ exponent then
    .int (doubleSign bits * (doubleSignificand bits * 2 ^ (exponent - 1075) : ℕ))
  else if 2 ^ (1075 - max exponent 1) ∣ doubleSignificand bits then
    .int (doubleSign bits * (doubleSignificand bits / 2 ^ (1075 - max exponent 1) : ℕ))
  else .float 8 bits

/-- One, and a half that is not an integer. -/
example : ofDouble 0x3ff0000000000000 = .int 1 ∧ ofDouble 0xc020000000000000 = .int (-8) ∧
    ofDouble 0x3fe0000000000000 = .float 8 0x3fe0000000000000 := by decide

/-- Equal keys of a `Map`: what is not a number, a text, a boolean, `null` or `undefined` equals no other value. -/
def sameValueZero (a b : Item) : Bool :=
  match a with
  | .int _ | .float _ _ | .text _ | .bool _ | .null | .simple _ => a = b
  | _ => false

/-- `m.set(key, value)` -/
def mapSet : List (Item × Item) → Item × Item → List (Item × Item)
  | [], p => [p]
  | (k, v) :: m, p => if sameValueZero k p.1 then (k, p.2) :: m else (k, v) :: mapSet m p

/-! ## The reader -/

section Source

variable (textDecode : Octets → String)

/-- `_cborReadLen` -/
def cborReadLen (ai : ℕ) (b : Octets) : Option (ℕ × Octets) :=
  if ai < 24 then some (ai, b)
  else if ai ≤ 27 then
    let width := 2 ^ (ai - 24)
    if b.length < width then none
    else some ((num (Octets.toNat (b.take width))).toNat, b.drop width)
  else none

/-- A float in place of a length: `getFloat32` and `getFloat64`. -/
def cborReadFloat (width : ℕ) (b : Octets) : Option (Item × Octets) :=
  if b.length < width then none
  else some (ofDouble (widen width (Octets.toNat (b.take width))), b.drop width)

/-- The branch of `_cborDecode` for major type 7. -/
def cborReadSimple (ai : ℕ) (b : Octets) : Option (Item × Octets) :=
  if ai = 20 then some (.bool false, b)
  else if ai = 21 then some (.bool true, b)
  else if ai = 22 then some (.null, b)
  else if ai = 23 then some (.simple 23, b)
  else if ai = 26 then cborReadFloat 4 b
  else if ai = 27 then cborReadFloat 8 b
  else none

/-- `_cborDecode`, of the octets from `offset` on, at most `fuel` levels deep. -/
def cborDecodeFuel : ℕ → Octets → Option (Item × Octets)
  -- `undefined >> 5` and `undefined & 0x1f` are 0: past the end everything reads as the number 0
  | _, [] => some (.int 0, [])
  | 0, _ :: _ => none
  | fuel + 1, ib :: b =>
    let ai := ib.toNat % 32
    if ai = 31 then none
    else
      match ib.toNat / 32 with
      | 0 => (cborReadLen ai b).map fun r => (.int r.1, r.2)
      | 1 => (cborReadLen ai b).map fun r => (.int (num (-1 - r.1)), r.2)
      | 2 => (cborReadLen ai b).map fun r => (.bytes (r.2.take r.1), r.2.drop r.1)
      | 3 => (cborReadLen ai b).map fun r => (.text (textDecode (r.2.take r.1)), r.2.drop r.1)
      | 4 => do
        let (len, b) ← cborReadLen ai b
        -- an array has less than `2 ^ 32` members
        if len < 2 ^ 32 then
          (readMany (cborDecodeFuel fuel) len b).map fun r => (.array r.1, r.2)
        else none
      | 5 => do
        let (len, b) ← cborReadLen ai b
        (readMany (readPair (cborDecodeFuel fuel)) len b).map fun r => (.map (r.1.foldl mapSet []), r.2)
      | 6 => do
        let (cborTag, b) ← cborReadLen ai b
        (cborDecodeFuel fuel b).map fun r => (.tag cborTag r.1, r.2)
      | _ => cborReadSimple ai b

/-- `_cborDecode` from the first octet; every level takes one. -/
def cborDecode (b : Octets) : Option (Item × Octets) := cborDecodeFuel textDecode b.length b

mutual

/-- The value the page has for an item: the simple values but those of JSON and `undefined` have none, nor has a
float of two octets. -/
def valueOf : Item → Option Item
  | .int n => some (.int (if 0 ≤ n then num n else num (-1 - num (-1 - n))))
  | .bytes b => some (.bytes b)
  | .text s => some (.text (textDecode (Utf8.encode s)))
  | .array xs => if xs.length < 2 ^ 32 then (valueOfList xs).map .array else none
  | .map ps => (valueOfPairs ps).map fun ps => .map (ps.foldl mapSet [])
  | .tag n x => (valueOf x).map (.tag (num n).toNat)
  | .bool b => some (.bool b)
  | .null => some .null
  | .simple n => if n = 23 then some (.simple 23) else none
  | .float w bits => if w = 2 then none else some (ofDouble (widen w bits))
  | .foreign _ => none

def valueOfList : List Item → Option (List Item)
  | [] => some []
  | x :: xs => do
    let x ← valueOf x
    let xs ← valueOfList xs
    return x :: xs

def valueOfPairs : List (Item × Item) → Option (List (Item × Item))
  | [] => some []
  | (k, v) :: ps => do
    let k ← valueOf k
    let v ← valueOf v
    let ps ← valueOfPairs ps
    return (k, v) :: ps

end

end Source

variable {textDecode : Octets → String}

/-! ## The levels -/

theorem length_of_cborReadLen {ai n : ℕ} {b rest : Octets} (h : cborReadLen ai b = some (n, rest)) :
    rest.length ≤ b.length := by
  rw [cborReadLen] at h
  split_ifs at h
  · cases h
    exact le_rfl
  · dsimp only at h
    split_ifs at h
    cases h
    rw [List.length_drop]
    exact Nat.sub_le _ _

theorem length_of_cborReadFloat {width : ℕ} {b rest : Octets} {i : Item}
    (h : cborReadFloat width b = some (i, rest)) : rest.length ≤ b.length := by
  rw [cborReadFloat] at h
  split_ifs at h
  cases h
  rw [List.length_drop]
  exact Nat.sub_le _ _

theorem length_of_cborReadSimple {ai : ℕ} {b rest : Octets} {i : Item}
    (h : cborReadSimple ai b = some (i, rest)) : rest.length ≤ b.length := by
  rw [cborReadSimple] at h
  split_ifs at h
  · cases h; exact le_rfl
  · cases h; exact le_rfl
  · cases h; exact le_rfl
  · cases h; exact le_rfl
  · exact length_of_cborReadFloat h
  · exact length_of_cborReadFloat h

theorem length_of_readPair {read : Octets → Option (Item × Octets)}
    (hread : ∀ {b x rest}, read b = some (x, rest) → rest.length ≤ b.length) {b rest : Octets} {p : Item × Item}
    (h : readPair read b = some (p, rest)) : rest.length ≤ b.length := by
  simp only [readPair, Option.bind_eq_bind, Option.bind_eq_some_iff] at h
  obtain ⟨⟨k, b'⟩, hk, ⟨v, b''⟩, hv, h⟩ := h
  cases h
  exact (hread hv).trans (hread hk)

theorem length_of_cborDecodeFuel {fuel : ℕ} {b rest : Octets} {i : Item}
    (h : cborDecodeFuel textDecode fuel b = some (i, rest)) : rest.length ≤ b.length := by
  induction fuel generalizing b rest i with
  | zero =>
      cases b with
      | nil =>
          cases h
          exact le_rfl
      | cons a b => cases h
  | succ fuel ih =>
      cases b with
      | nil =>
          cases h
          exact le_rfl
      | cons ib b =>
          suffices hle : rest.length ≤ b.length from hle.trans (Nat.le_succ _)
          have hlen : ∀ {r : ℕ × Octets}, cborReadLen (ib.toNat % 32) b = some r → r.2.length ≤ b.length :=
            fun {r} hr => length_of_cborReadLen (n := r.1) hr
          rw [cborDecodeFuel] at h
          dsimp only at h
          split_ifs at h
          split at h
          · obtain ⟨r, hr, h⟩ := Option.map_eq_some_iff.mp h
            cases h
            exact hlen hr
          · obtain ⟨r, hr, h⟩ := Option.map_eq_some_iff.mp h
            cases h
            exact hlen hr
          · obtain ⟨r, hr, h⟩ := Option.map_eq_some_iff.mp h
            cases h
            exact ((List.drop_sublist _ _).length_le).trans (hlen hr)
          · obtain ⟨r, hr, h⟩ := Option.map_eq_some_iff.mp h
            cases h
            exact ((List.drop_sublist _ _).length_le).trans (hlen hr)
          · obtain ⟨r, hr, h⟩ := Option.bind_eq_some_iff.mp h
            split_ifs at h
            obtain ⟨s, hs, h⟩ := Option.map_eq_some_iff.mp h
            cases h
            exact (length_le_of_readMany ih hs).trans (hlen hr)
          · obtain ⟨r, hr, h⟩ := Option.bind_eq_some_iff.mp h
            obtain ⟨s, hs, h⟩ := Option.map_eq_some_iff.mp h
            cases h
            exact (length_le_of_readMany (length_of_readPair ih) hs).trans (hlen hr)
          · obtain ⟨r, hr, h⟩ := Option.bind_eq_some_iff.mp h
            obtain ⟨s, hs, h⟩ := Option.map_eq_some_iff.mp h
            cases h
            exact (ih hs).trans (hlen hr)
          · exact length_of_cborReadSimple h

/-- Levels beyond the octets change nothing. -/
theorem cborDecodeFuel_eq {f g : ℕ} {b : Octets} (hf : b.length ≤ f) (hg : b.length ≤ g) :
    cborDecodeFuel textDecode f b = cborDecodeFuel textDecode g b := by
  induction f generalizing g b with
  | zero =>
      obtain rfl := List.length_eq_zero_iff.mp (Nat.le_zero.mp hf)
      cases g <;> rfl
  | succ f ih =>
      cases b with
      | nil => cases g <;> rfl
      | cons ib b =>
          obtain ⟨g, rfl⟩ : ∃ k, g = k + 1 := ⟨g - 1, by rw [List.length_cons] at hg; omega⟩
          have hread : ∀ c : Octets, c.length ≤ b.length →
              cborDecodeFuel textDecode f c = cborDecodeFuel textDecode g c := by
            intro c hc
            rw [List.length_cons] at hf hg
            exact ih (by omega) (by omega)
          have hpair : ∀ c : Octets, c.length ≤ b.length →
              readPair (cborDecodeFuel textDecode f) c = readPair (cborDecodeFuel textDecode g) c := by
            intro c hc
            rw [readPair, readPair, ← hread c hc]
            cases hk : cborDecodeFuel textDecode f c with
            | none => rfl
            | some r =>
                have := hread r.2 ((length_of_cborDecodeFuel hk).trans hc)
                simp only [Option.bind_eq_bind, Option.bind_some, this]
          rw [cborDecodeFuel, cborDecodeFuel]
          dsimp only
          split_ifs
          · rfl
          cases hr : cborReadLen (ib.toNat % 32) b with
          | none => rfl
          | some r =>
              have hb : r.2.length ≤ b.length := length_of_cborReadLen (n := r.1) hr
              have hmany := readMany_congr hread length_of_cborDecodeFuel r.1 hb
              have hpairs := readMany_congr hpair (length_of_readPair length_of_cborDecodeFuel) r.1 hb
              simp only [Option.bind_eq_bind, Option.bind_some, Option.map_some, hmany, hpairs, hread r.2 hb]

/-! ## Octets that hold an item -/

theorem num_nonneg (n : ℕ) : 0 ≤ num n := by
  rw [num]
  apply mul_nonneg
  · exact Int.sign_nonneg_iff.mpr (Int.natCast_nonneg n)
  · exact Int.natCast_nonneg _

theorem cast_toNat_num (n : ℕ) : (((num n).toNat : ℕ) : ℤ) = num n := Int.toNat_of_nonneg (num_nonneg n)

theorem toNat_num {n : ℕ} (h : n < 2 ^ 53) : (num n).toNat = n := by
  rw [num_natCast h, Int.toNat_natCast]

/-- No number above the safe integers is rounded to a safe one. -/
theorem le_num {n : ℕ} (h : 2 ^ 53 ≤ n) : 2 ^ 53 ≤ num n := by
  have hlog : 53 ≤ n.log2 := (Nat.le_log2 (by omega)).mpr h
  have hunit : 2 ^ (n.log2 - 52) * 2 ^ 52 ≤ n := by
    rw [← pow_add, Nat.sub_add_cancel (by omega)]
    exact Nat.log2_self_le (by omega)
  have hq : 2 ^ 52 ≤ n / 2 ^ (n.log2 - 52) := by
    rw [Nat.le_div_iff_mul_le (by positivity), mul_comm]
    exact hunit
  have hbig : 2 ≤ 2 ^ (n.log2 - 52) := by
    calc 2 = 2 ^ 1 := rfl
      _ ≤ 2 ^ (n.log2 - 52) := Nat.pow_le_pow_right (by norm_num) (by omega)
  have hround : ∀ q, 2 ^ 52 ≤ q → (2 ^ 53 : ℤ) ≤ (q * 2 ^ (n.log2 - 52) : ℕ) := by
    intro q hq
    have := Nat.mul_le_mul hq hbig
    exact_mod_cast this
  rw [num, Int.natAbs_natCast, Int.sign_eq_one_of_pos (by omega), one_mul]
  split_ifs
  · exact hround _ hq
  · exact hround _ (by omega)

theorem eq_of_toNat_num {m n : ℕ} (hn : n < 2 ^ 53) (h : (num m).toNat = n) : m = n := by
  by_cases hm : m < 2 ^ 53
  · rwa [toNat_num hm] at h
  · have := le_num (not_lt.mp hm)
    omega

/-- A length is read as the number nearest to it. -/
theorem cborReadLen_of_readArgument {info n : ℕ} {b rest : Octets} (h : readArgument info b = some (n, rest)) :
    cborReadLen info b = some ((num n).toNat, rest) := by
  rw [readArgument] at h
  rw [cborReadLen]
  split_ifs at h ⊢ with h24 h28 h27
  · cases h
    rw [toNat_num (by omega)]
  · dsimp only at h ⊢
    split_ifs at h ⊢
    cases h
    rfl
  · omega

theorem valueOf_natCast (n : ℕ) : valueOf textDecode (.int n) = some (.int (num n).toNat) := by
  rw [valueOf, if_pos (Int.natCast_nonneg n), cast_toNat_num]

theorem valueOf_negative (n : ℕ) :
    valueOf textDecode (.int (-1 - n)) = some (.int (num (-1 - (num n).toNat))) := by
  rw [valueOf, if_neg (by omega), sub_sub_cancel, cast_toNat_num]

theorem valueOfList_eq_some_iff {xs ys : List Item} :
    valueOfList textDecode xs = some ys ↔ List.Forall₂ (fun x y => valueOf textDecode x = some y) xs ys := by
  induction xs generalizing ys with
  | nil =>
      rw [valueOfList, List.forall₂_nil_left_iff, Option.some_inj, eq_comm]
  | cons x xs ih =>
      rw [valueOfList, List.forall₂_cons_left_iff]
      simp only [Option.bind_eq_bind, Option.bind_eq_some_iff, ih]
      constructor
      · rintro ⟨y, hy, ys, hys, h⟩
        cases h
        exact ⟨y, ys, hy, hys, rfl⟩
      · rintro ⟨y, ys, hy, hys, rfl⟩
        exact ⟨y, hy, ys, hys, rfl⟩

theorem valueOfPairs_eq_some_iff {ps qs : List (Item × Item)} :
    valueOfPairs textDecode ps = some qs ↔ List.Forall₂ (fun p q =>
      valueOf textDecode p.1 = some q.1 ∧ valueOf textDecode p.2 = some q.2) ps qs := by
  induction ps generalizing qs with
  | nil =>
      rw [valueOfPairs, List.forall₂_nil_left_iff, Option.some_inj, eq_comm]
  | cons p ps ih =>
      obtain ⟨k, v⟩ := p
      rw [valueOfPairs, List.forall₂_cons_left_iff]
      simp only [Option.bind_eq_bind, Option.bind_eq_some_iff, ih]
      constructor
      · rintro ⟨l, hl, w, hw, qs, hqs, h⟩
        cases h
        exact ⟨(l, w), qs, ⟨hl, hw⟩, hqs, rfl⟩
      · rintro ⟨⟨l, w⟩, qs, ⟨hl, hw⟩, hqs, rfl⟩
        exact ⟨l, hl, w, hw, qs, hqs, rfl⟩

theorem isSome_valueOfList {xs : List Item} :
    (valueOfList textDecode xs).isSome ↔ ∀ x ∈ xs, (valueOf textDecode x).isSome := by
  induction xs with
  | nil => simp [valueOfList]
  | cons x xs ih =>
      rw [valueOfList, List.forall_mem_cons, ← ih]
      cases valueOf textDecode x <;> cases valueOfList textDecode xs <;> simp

theorem isSome_valueOfPairs {ps : List (Item × Item)} :
    (valueOfPairs textDecode ps).isSome ↔
      ∀ p ∈ ps, (valueOf textDecode p.1).isSome ∧ (valueOf textDecode p.2).isSome := by
  induction ps with
  | nil => simp [valueOfPairs]
  | cons p ps ih =>
      obtain ⟨k, v⟩ := p
      rw [valueOfPairs, List.forall_mem_cons, ← ih]
      cases valueOf textDecode k <;> cases valueOf textDecode v <;> cases valueOfPairs textDecode ps <;> simp

theorem valueOfPairs_append (ps qs : List (Item × Item)) :
    valueOfPairs textDecode (ps ++ qs) = (valueOfPairs textDecode ps).bind fun a => (valueOfPairs textDecode qs).map fun b => a ++ b := by
  induction ps with
  | nil =>
      rw [List.nil_append, valueOfPairs, Option.bind_some]
      cases valueOfPairs textDecode qs <;> rfl
  | cons p ps ih =>
      obtain ⟨k, v⟩ := p
      rw [List.cons_append, valueOfPairs, valueOfPairs, ih]
      cases valueOf textDecode k <;> cases valueOf textDecode v <;> cases valueOfPairs textDecode ps <;> cases valueOfPairs textDecode qs <;> rfl

/-- A float is read as a number. -/
theorem ofDouble_cases (bits : ℕ) : (∃ n, ofDouble bits = .int n) ∨ ofDouble bits = .float 8 bits := by
  rw [ofDouble]
  split_ifs
  · exact .inr rfl
  · exact .inl ⟨_, rfl⟩
  · exact .inl ⟨_, rfl⟩
  · exact .inr rfl

theorem valueOf_float_ne {w bits : ℕ} {v : Item} (h : valueOf textDecode (.float w bits) = some v) :
    (∃ n, v = .int n) ∨ v = .float 8 (widen w bits) := by
  rw [valueOf] at h
  split_ifs at h
  cases h
  exact ofDouble_cases _

/-- Octets, a tag and an array come from octets, a tag and an array only. -/
theorem valueOf_eq_bytes {x : Item} {b : Octets} (h : valueOf textDecode x = some (.bytes b)) : x = .bytes b := by
  cases x with
  | bytes c => cases h; rfl
  | array xs =>
      rw [valueOf] at h
      split_ifs at h
      obtain ⟨ys, -, hy⟩ := Option.map_eq_some_iff.mp h
      cases hy
  | map ps => obtain ⟨qs, -, hq⟩ := Option.map_eq_some_iff.mp h; cases hq
  | tag n x => obtain ⟨y, -, hy⟩ := Option.map_eq_some_iff.mp h; cases hy
  | simple n => rw [valueOf] at h; split_ifs at h; cases h
  | float w bits => obtain ⟨n, hn⟩ | hn := valueOf_float_ne h <;> cases hn
  | _ => cases h

theorem valueOf_eq_tag {x y : Item} {n : ℕ} (h : valueOf textDecode x = some (.tag n y)) :
    ∃ m z, x = .tag m z ∧ (num m).toNat = n ∧ valueOf textDecode z = some y := by
  cases x with
  | tag m z =>
      obtain ⟨y, hy, ht⟩ := Option.map_eq_some_iff.mp h
      cases ht
      exact ⟨m, z, rfl, rfl, hy⟩
  | array xs =>
      rw [valueOf] at h
      split_ifs at h
      obtain ⟨ys, -, hy⟩ := Option.map_eq_some_iff.mp h
      cases hy
  | map ps => obtain ⟨qs, -, hq⟩ := Option.map_eq_some_iff.mp h; cases hq
  | simple n => rw [valueOf] at h; split_ifs at h; cases h
  | float w bits => obtain ⟨n, hn⟩ | hn := valueOf_float_ne h <;> cases hn
  | _ => cases h

theorem valueOf_eq_array {x : Item} {ys : List Item} (h : valueOf textDecode x = some (.array ys)) :
    ∃ xs, x = .array xs ∧ List.Forall₂ (fun x y => valueOf textDecode x = some y) xs ys := by
  cases x with
  | array xs =>
      rw [valueOf] at h
      split_ifs at h
      obtain ⟨zs, hzs, hy⟩ := Option.map_eq_some_iff.mp h
      cases hy
      exact ⟨xs, rfl, valueOfList_eq_some_iff.mp hzs⟩
  | map ps => obtain ⟨qs, -, hq⟩ := Option.map_eq_some_iff.mp h; cases hq
  | tag n x => obtain ⟨y, -, hy⟩ := Option.map_eq_some_iff.mp h; cases hy
  | simple n => rw [valueOf] at h; split_ifs at h; cases h
  | float w bits => obtain ⟨n, hn⟩ | hn := valueOf_float_ne h <;> cases hn
  | _ => cases h

/-- Two readers that agree on what is left agree on many things. -/
theorem forall₂_of_readMany {α β : Type} {read : Octets → Option (α × Octets)}
    {page : Octets → Option (β × Octets)} {R : α → β → Prop} {l : ℕ}
    (hread : ∀ {b x rest y r}, b.length ≤ l → read b = some (x, rest) → page b = some (y, r) → R x y ∧ r = rest)
    (hle : ∀ {b x rest}, read b = some (x, rest) → rest.length < b.length) {n : ℕ} {b rest r : Octets}
    {xs : List α} {ys : List β} (hb : b.length ≤ l) (h : readMany read n b = some (xs, rest))
    (hp : readMany page n b = some (ys, r)) : List.Forall₂ R xs ys ∧ r = rest := by
  induction n generalizing b xs ys with
  | zero =>
      cases h
      cases hp
      exact ⟨.nil, rfl⟩
  | succ n ih =>
      simp only [readMany, Option.bind_eq_bind, Option.bind_eq_some_iff] at h hp
      obtain ⟨⟨x, b1⟩, hx, ⟨xs, b2⟩, hxs, h⟩ := h
      obtain ⟨⟨y, c1⟩, hy, ⟨ys, c2⟩, hys, hp⟩ := hp
      cases h
      cases hp
      obtain ⟨hxy, rfl⟩ := hread hb hx hy
      obtain ⟨hrest, rfl⟩ := ih ((hle hx).le.trans hb) hxs hys
      exact ⟨.cons hxy hrest, rfl⟩

theorem agree_of_readPair {read page : Octets → Option (Item × Octets)} {R : Item → Item → Prop} {l : ℕ}
    (hread : ∀ {b x rest y r}, b.length ≤ l → read b = some (x, rest) → page b = some (y, r) → R x y ∧ r = rest)
    (hle : ∀ {b x rest}, read b = some (x, rest) → rest.length < b.length) {b rest r : Octets}
    {p q : Item × Item} (hb : b.length ≤ l) (h : readPair read b = some (p, rest))
    (hp : readPair page b = some (q, r)) : (R p.1 q.1 ∧ R p.2 q.2) ∧ r = rest := by
  simp only [readPair, Option.bind_eq_bind, Option.bind_eq_some_iff] at h hp
  obtain ⟨⟨k, b1⟩, hk, ⟨v, b2⟩, hv, h⟩ := h
  obtain ⟨⟨k', c1⟩, hk', ⟨v', c2⟩, hv', hp⟩ := hp
  cases h
  cases hp
  obtain ⟨hkk, rfl⟩ := hread hb hk hk'
  obtain ⟨hvv, rfl⟩ := hread ((hle hk).le.trans hb) hv hv'
  exact ⟨⟨hkk, hvv⟩, rfl⟩

theorem valueOf_of_readSimple {info : ℕ} {b rest r : Octets} {i v : Item}
    (h : readSimple info b = some (i, rest)) (hp : cborReadSimple info b = some (v, r)) :
    valueOf textDecode i = some v ∧ r = rest := by
  rw [readSimple] at h
  rw [cborReadSimple] at hp
  have hfloat : ∀ {width : ℕ}, width = 2 ^ (info - 24) → 25 < info → info < 28 →
      cborReadFloat width b = some (v, r) →
      (readArgument info b).bind (fun a => some (Item.float width a.1, a.2)) = some (i, rest) →
      valueOf textDecode i = some v ∧ r = rest := by
    intro width hw hlo hhi hv hi
    obtain ⟨⟨n, c⟩, hn, hi⟩ := Option.bind_eq_some_iff.mp hi
    cases hi
    rw [readArgument, if_neg (by omega), if_pos hhi, ← hw] at hn
    rw [cborReadFloat] at hv
    dsimp only at hn
    split_ifs at hn hv
    cases hn
    cases hv
    have h2 : width ≠ 2 := by
      obtain rfl | rfl : info = 26 ∨ info = 27 := by omega
      · rw [hw]; decide
      · rw [hw]; decide
    exact ⟨by rw [valueOf, if_neg h2], rfl⟩
  split_ifs at hp with h20 h21 h22 h23 h26 h27
  · rw [if_pos h20] at h
    cases h
    cases hp
    exact ⟨rfl, rfl⟩
  · rw [if_neg h20, if_pos h21] at h
    cases h
    cases hp
    exact ⟨rfl, rfl⟩
  · rw [if_neg h20, if_neg h21, if_pos h22] at h
    cases h
    cases hp
    exact ⟨rfl, rfl⟩
  · rw [if_neg h20, if_neg h21, if_neg h22, if_pos (by omega), h23] at h
    cases h
    cases hp
    exact ⟨rfl, rfl⟩
  · subst h26
    exact hfloat rfl (by omega) (by omega) hp h
  · subst h27
    exact hfloat rfl (by omega) (by omega) hp h

/-- Of octets that hold an item, the page reads the item or throws. -/
theorem valueOf_of_decodeFuel {fuel f : ℕ} {b rest r : Octets} {i v : Item} (hlen : b.length < 2 ^ 53)
    (h : decodeFuel fuel b = some (i, rest)) (hp : cborDecodeFuel textDecode f b = some (v, r)) :
    valueOf textDecode i = some v ∧ r = rest := by
  induction fuel generalizing f b rest r i v with
  | zero => cases h
  | succ fuel ih =>
      cases b with
      | nil => cases h
      | cons a b =>
          cases f with
          | zero => cases hp
          | succ f =>
              rw [List.length_cons] at hlen
              have hread : ∀ {c x rest y r}, c.length ≤ b.length → decodeFuel fuel c = some (x, rest) →
                  cborDecodeFuel textDecode f c = some (y, r) → valueOf textDecode x = some y ∧ r = rest :=
                fun hc => ih (by omega)
              rw [decodeFuel] at h
              rw [cborDecodeFuel] at hp
              dsimp only at h hp
              split_ifs at hp with h31
              have harg : ∀ {n : ℕ} {c : Octets}, readArgument (a.toNat % 32) b = some (n, c) →
                  cborReadLen (a.toNat % 32) b = some ((num n).toNat, c) ∧ c.length ≤ b.length :=
                fun hn => ⟨cborReadLen_of_readArgument hn, length_of_readArgument hn⟩
              split at h
              · rename_i hmajor
                obtain ⟨⟨n, c⟩, hn, h⟩ := Option.bind_eq_some_iff.mp h
                simp only [hmajor, (harg hn).1, Option.map_some] at hp
                cases h
                cases hp
                exact ⟨valueOf_natCast n, rfl⟩
              · rename_i hmajor
                obtain ⟨⟨n, c⟩, hn, h⟩ := Option.bind_eq_some_iff.mp h
                simp only [hmajor, (harg hn).1, Option.map_some] at hp
                cases h
                cases hp
                exact ⟨valueOf_negative n, rfl⟩
              · rename_i hmajor
                obtain ⟨⟨s, c⟩, hs, h⟩ := Option.bind_eq_some_iff.mp h
                rw [readString, if_neg h31] at hs
                obtain ⟨⟨n, d⟩, hn, hs⟩ := Option.bind_eq_some_iff.mp hs
                simp only [hmajor, (harg hn).1, Option.map_some] at hp
                obtain ⟨hle, -, rfl, rfl⟩ := length_of_readOctets hs
                have hnum := toNat_num (lt_of_le_of_lt (hle.trans (harg hn).2) (by omega))
                simp only [hnum] at hp
                cases h
                cases hp
                exact ⟨rfl, rfl⟩
              · rename_i hmajor
                obtain ⟨⟨s, c⟩, hs, h⟩ := Option.bind_eq_some_iff.mp h
                rw [readText, if_neg h31, readString, if_neg h31] at hs
                simp only [Option.bind_eq_bind, Option.bind_eq_some_iff] at hs
                obtain ⟨⟨t, d⟩, ⟨⟨n, d'⟩, hn, ht⟩, u, hu, hs⟩ := hs
                simp only [hmajor, (harg hn).1, Option.map_some] at hp
                obtain ⟨hle, -, rfl, rfl⟩ := length_of_readOctets ht
                have hnum := toNat_num (lt_of_le_of_lt (hle.trans (harg hn).2) (by omega))
                simp only [hnum] at hp
                cases hs
                cases h
                cases hp
                exact ⟨by rw [valueOf, Utf8.decode_eq_some_iff.mp hu], rfl⟩
              · rename_i hmajor
                rw [if_neg h31] at h
                simp only [Option.bind_eq_bind, Option.bind_eq_some_iff] at h
                obtain ⟨⟨n, c⟩, hn, ⟨xs, d⟩, hxs, h⟩ := h
                have hcount : d.length + n ≤ c.length := length_of_readMany length_of_decodeFuel hxs
                have hc := (harg hn).2
                have hnum := toNat_num (show n < 2 ^ 53 by omega)
                simp only [hmajor, (harg hn).1, hnum, Option.bind_eq_bind, Option.bind_some] at hp
                split_ifs at hp with hsmall
                obtain ⟨⟨ys, d'⟩, hys, hp⟩ := Option.map_eq_some_iff.mp hp
                obtain ⟨hall, rfl⟩ := forall₂_of_readMany hread length_of_decodeFuel hc hxs hys
                cases h
                cases hp
                rw [valueOf, length_readMany hxs, if_pos hsmall, valueOfList_eq_some_iff.mpr hall]
                exact ⟨rfl, rfl⟩
              · rename_i hmajor
                rw [if_neg h31] at h
                simp only [Option.bind_eq_bind, Option.bind_eq_some_iff] at h
                obtain ⟨⟨n, c⟩, hn, ⟨ps, d⟩, hps, h⟩ := h
                have hlt : ∀ {c : Octets} {p rest}, readPair (decodeFuel fuel) c = some (p, rest) →
                    rest.length < c.length := length_of_readPair_lt length_of_decodeFuel
                have hcount : d.length + n ≤ c.length := length_of_readMany hlt hps
                have hc := (harg hn).2
                have hnum := toNat_num (show n < 2 ^ 53 by omega)
                simp only [hmajor, (harg hn).1, hnum, Option.bind_eq_bind, Option.bind_some] at hp
                obtain ⟨⟨qs, d'⟩, hqs, hp⟩ := Option.map_eq_some_iff.mp hp
                obtain ⟨hall, rfl⟩ := forall₂_of_readMany (agree_of_readPair hread length_of_decodeFuel) hlt hc
                  hps hqs
                cases h
                cases hp
                rw [valueOf, valueOfPairs_eq_some_iff.mpr hall]
                exact ⟨rfl, rfl⟩
              · rename_i hmajor
                simp only [Option.bind_eq_bind, Option.bind_eq_some_iff] at h
                obtain ⟨⟨n, c⟩, hn, ⟨x, d⟩, hx, h⟩ := h
                simp only [hmajor, (harg hn).1, Option.bind_eq_bind, Option.bind_some] at hp
                obtain ⟨⟨y, d'⟩, hy, hp⟩ := Option.map_eq_some_iff.mp hp
                obtain ⟨hxy, rfl⟩ := hread (harg hn).2 hx hy
                cases h
                cases hp
                exact ⟨by rw [valueOf, hxy]; rfl, rfl⟩
              · rename_i h0 h1 h2 h3 h4 h5 h6
                rw [imp_false] at h0 h1 h2 h3 h4 h5 h6
                have := a.toNat_lt
                have hmajor : a.toNat / 32 = 7 := by omega
                simp only [hmajor] at hp
                exact valueOf_of_readSimple h hp

theorem valueOf_of_decode {b rest r : Octets} {i v : Item} (hlen : b.length < 2 ^ 53)
    (h : decode b = some (i, rest)) (hp : cborDecode textDecode b = some (v, r)) :
    valueOf textDecode i = some v ∧ r = rest :=
  valueOf_of_decodeFuel hlen h hp

/-! ## Octets that are written -/

/-- A head that is written is read. -/
theorem cborDecodeFuel_head {major a : ℕ} (hm : major < 8) (ha : a < 2 ^ 64) (fuel : ℕ) (rest : Octets) :
    ∃ info arg, info < 28 ∧ (initial major info).toNat / 32 = major ∧ (initial major info).toNat % 32 = info ∧
      cborReadLen info (arg ++ rest) = some ((num a).toNat, rest) ∧
      cborDecodeFuel textDecode (fuel + 1) (head major a ++ rest) =
        cborDecodeFuel textDecode (fuel + 1) (initial major info :: (arg ++ rest)) := by
  obtain ⟨info, arg, hhead, hi, -, -, hr⟩ := exists_head major ha
  have hx := toNat_initial hm (show info < 32 by omega)
  exact ⟨info, arg, hi, by omega, by omega, cborReadLen_of_readArgument (hr rest), by rw [hhead]; rfl⟩

/-- Things that are read one by one are read one after the other. -/
theorem readMany_of_forall₂ {α β : Type} {page : Octets → Option (β × Octets)} {write : α → Octets} {xs : List α}
    {ys : List β} (h : List.Forall₂ (fun x y => ∀ rest, page (write x ++ rest) = some (y, rest)) xs ys)
    (rest : Octets) : readMany page xs.length (xs.flatMap write ++ rest) = some (ys, rest) := by
  induction h with
  | nil => rfl
  | cons hx _ ih => simp [readMany, hx, ih]

theorem forall₂_imp_of_mem {α β : Type} {R S : α → β → Prop} {xs : List α} {ys : List β}
    (h : List.Forall₂ R xs ys) (hRS : ∀ x y, x ∈ xs → R x y → S x y) : List.Forall₂ S xs ys := by
  induction h with
  | nil => exact .nil
  | cons hx _ ih =>
      apply List.Forall₂.cons
      · exact hRS _ _ (by simp) hx
      · exact ih fun x y hx => hRS x y (by simp [hx])

theorem length_encode_lt_of_mem_map {p : Item × Item} {ps : List (Item × Item)} (h : p ∈ ps) :
    (encode p.1).length < (encode (.map ps)).length ∧ (encode p.2).length < (encode (.map ps)).length := by
  obtain ⟨before, after, rfl⟩ := List.append_of_mem h
  have := head_length_pos 5 (before ++ p :: after).length
  simp only [encode, encodePairs_eq_flatMap, List.flatMap_append, List.flatMap_cons, List.length_append] at this ⊢
  omega

theorem length_le_encode_map {ps : List (Item × Item)} (h : EncodablePairs ps) :
    ps.length ≤ (encode (.map ps)).length := by
  have hpairs : ps.length ≤ (encodePairs ps).length := by
    induction ps with
    | nil => exact le_rfl
    | cons p ps ih =>
        obtain ⟨k, v⟩ := p
        have := List.length_pos_of_ne_nil (encode_ne_nil h.1)
        have := ih h.2.2
        simp only [encodePairs, List.length_append, List.length_cons]
        omega
  rw [encode, List.length_append]
  omega

/-- What is written for an item that the page has a value for is read as that value, whatever follows. -/
theorem cborDecodeFuel_encode {i v : Item} (hi : i.Encodable) (hlen : (encode i).length < 2 ^ 53)
    (hv : valueOf textDecode i = some v) {fuel : ℕ} (hf : i.depth < fuel) (rest : Octets) :
    cborDecodeFuel textDecode fuel (encode i ++ rest) = some (v, rest) := by
  induction i using Item.induction generalizing v fuel rest with
  | int n =>
      obtain ⟨fuel, rfl⟩ : ∃ f, fuel = f + 1 := ⟨fuel - 1, by omega⟩
      obtain ⟨hlo, hhi⟩ := hi
      rw [encode]
      split_ifs with hn
      · obtain ⟨n, rfl⟩ := Int.eq_ofNat_of_zero_le hn
        obtain ⟨info, arg, hinfo, hmaj, hinf, hr, hd⟩ :=
          @cborDecodeFuel_head textDecode 0 n (by omega) (by omega) fuel rest
        rw [valueOf_natCast] at hv
        cases hv
        rw [Int.toNat_natCast, hd]
        simp only [cborDecodeFuel, hmaj, hinf, if_neg (show info ≠ 31 by omega), hr]
        rfl
      · obtain ⟨n, rfl⟩ : ∃ k : ℕ, n = -1 - k := ⟨(-1 - n).toNat, by omega⟩
        obtain ⟨info, arg, hinfo, hmaj, hinf, hr, hd⟩ :=
          @cborDecodeFuel_head textDecode 1 n (by omega) (by omega) fuel rest
        rw [valueOf_negative] at hv
        cases hv
        rw [sub_sub_cancel, Int.toNat_natCast, hd]
        simp only [cborDecodeFuel, hmaj, hinf, if_neg (show info ≠ 31 by omega), hr]
        rfl
  | bytes b =>
      obtain ⟨fuel, rfl⟩ : ∃ f, fuel = f + 1 := ⟨fuel - 1, by omega⟩
      obtain ⟨info, arg, hinfo, hmaj, hinf, hr, hd⟩ :=
        @cborDecodeFuel_head textDecode 2 b.length (by omega) hi fuel (b ++ rest)
      have hb := (length_le_encode_bytes b).trans_lt hlen
      rw [toNat_num hb] at hr
      cases hv
      rw [encode, List.append_assoc, hd]
      simp only [cborDecodeFuel, hmaj, hinf, if_neg (show info ≠ 31 by omega), hr, Option.map_some,
        List.take_left, List.drop_left]
  | text s =>
      obtain ⟨fuel, rfl⟩ : ∃ f, fuel = f + 1 := ⟨fuel - 1, by omega⟩
      obtain ⟨info, arg, hinfo, hmaj, hinf, hr, hd⟩ :=
        @cborDecodeFuel_head textDecode 3 (Utf8.encode s).length (by omega) hi fuel (Utf8.encode s ++ rest)
      have hs := (length_le_encode_text s).trans_lt hlen
      rw [toNat_num hs] at hr
      cases hv
      rw [encode, List.append_assoc, hd]
      simp only [cborDecodeFuel, hmaj, hinf, if_neg (show info ≠ 31 by omega), hr, Option.map_some,
        List.take_left, List.drop_left]
  | array xs ih =>
      obtain ⟨fuel, rfl⟩ : ∃ f, fuel = f + 1 := ⟨fuel - 1, by omega⟩
      rw [valueOf] at hv
      split_ifs at hv with hsmall
      obtain ⟨ys, hys, rfl⟩ := Option.map_eq_some_iff.mp hv
      have hmem := encodableList_iff.mp hi.2
      have hdep := depthList_le_iff.mp (Nat.le_of_lt_succ hf)
      have hall : List.Forall₂ (fun x y => ∀ rest, cborDecodeFuel textDecode fuel (encode x ++ rest) =
          some (y, rest)) xs ys := by
        apply forall₂_imp_of_mem (valueOfList_eq_some_iff.mp hys)
        intro x y hx hxy rest
        have hxlen := (length_encode_le_of_mem hx).trans_lt hlen
        exact ih x hx (hmem x hx) hxlen hxy (hdep x hx) rest
      obtain ⟨info, arg, hinfo, hmaj, hinf, hr, hd⟩ :=
        @cborDecodeFuel_head textDecode 4 xs.length (by omega) hi.1 fuel (encodeList xs ++ rest)
      rw [toNat_num (by omega)] at hr
      rw [encode, List.append_assoc, hd]
      rw [encodeList_eq_flatMap] at hr ⊢
      simp only [cborDecodeFuel, hmaj, hinf, if_neg (show info ≠ 31 by omega), hr, Option.bind_eq_bind,
        Option.bind_some, if_pos hsmall, readMany_of_forall₂ hall, Option.map_some]
  | map ps ih =>
      obtain ⟨fuel, rfl⟩ : ∃ f, fuel = f + 1 := ⟨fuel - 1, by omega⟩
      rw [valueOf] at hv
      obtain ⟨qs, hqs, rfl⟩ := Option.map_eq_some_iff.mp hv
      have hmem := encodablePairs_iff.mp hi.2
      have hdep := depthPairs_le_iff.mp (Nat.le_of_lt_succ hf)
      have hall : List.Forall₂ (fun p q => ∀ rest, readPair (cborDecodeFuel textDecode fuel)
          (encode p.1 ++ encode p.2 ++ rest) = some (q, rest)) ps qs := by
        apply forall₂_imp_of_mem (valueOfPairs_eq_some_iff.mp hqs)
        intro p q hp hpq rest
        obtain ⟨hkey, hvalue⟩ := length_encode_lt_of_mem_map hp
        have hk := (ih p hp).1 (hmem p hp).1 (hkey.trans hlen) hpq.1 (hdep p hp).1 (encode p.2 ++ rest)
        have hx := (ih p hp).2 (hmem p hp).2 (hvalue.trans hlen) hpq.2 (hdep p hp).2 rest
        simp [readPair, hk, hx]
      have hcount : ps.length ≤ (encode (.map ps)).length := length_le_encode_map hi.2
      obtain ⟨info, arg, hinfo, hmaj, hinf, hr, hd⟩ :=
        @cborDecodeFuel_head textDecode 5 ps.length (by omega) hi.1 fuel (encodePairs ps ++ rest)
      rw [toNat_num (by omega)] at hr
      rw [encode, List.append_assoc, hd]
      rw [encodePairs_eq_flatMap] at hr ⊢
      simp only [cborDecodeFuel, hmaj, hinf, if_neg (show info ≠ 31 by omega), hr, Option.bind_eq_bind,
        Option.bind_some, readMany_of_forall₂ hall, Option.map_some]
  | tag n x ih =>
      obtain ⟨fuel, rfl⟩ : ∃ f, fuel = f + 1 := ⟨fuel - 1, by omega⟩
      rw [valueOf] at hv
      obtain ⟨y, hy, rfl⟩ := Option.map_eq_some_iff.mp hv
      obtain ⟨info, arg, hinfo, hmaj, hinf, hr, hd⟩ :=
        @cborDecodeFuel_head textDecode 6 n (by omega) hi.1 fuel (encode x ++ rest)
      have hx := (length_le_encode_tag n x).trans_lt hlen
      have hdepth : x.depth < fuel := by
        rw [Item.depth] at hf
        omega
      rw [encode, List.append_assoc, hd]
      simp only [cborDecodeFuel, hmaj, hinf, if_neg (show info ≠ 31 by omega), hr, Option.bind_eq_bind,
        Option.bind_some, ih hi.2 hx hy hdepth, Option.map_some]
  | bool b =>
      obtain ⟨fuel, rfl⟩ : ∃ f, fuel = f + 1 := ⟨fuel - 1, by omega⟩
      cases hv
      cases b <;> rfl
  | null =>
      obtain ⟨fuel, rfl⟩ : ∃ f, fuel = f + 1 := ⟨fuel - 1, by omega⟩
      cases hv
      rfl
  | simple n =>
      obtain ⟨fuel, rfl⟩ : ∃ f, fuel = f + 1 := ⟨fuel - 1, by omega⟩
      rw [valueOf] at hv
      split_ifs at hv with hn
      cases hv
      subst hn
      rfl
  | float w bits =>
      obtain ⟨fuel, rfl⟩ : ∃ f, fuel = f + 1 := ⟨fuel - 1, by omega⟩
      rw [valueOf] at hv
      split_ifs at hv with h2
      cases hv
      have hread : cborReadFloat w (Octets.ofNat w bits ++ rest) = some (ofDouble (widen w bits), rest) := by
        have hlong : ¬ (Octets.ofNat w bits ++ rest).length < w := by simp
        rw [cborReadFloat, if_neg hlong, List.take_left' (Octets.length_ofNat _ _),
          List.drop_left' (Octets.length_ofNat _ _), Octets.toNat_ofNat hi.2]
      obtain rfl | rfl : w = 4 ∨ w = 8 := by
        have := hi.1
        omega
      · exact hread
      · exact hread
  | foreign k => exact hi.elim

/-- The page reads what is written with definite lengths, when it has a value for all of it. -/
theorem cborDecode_encode {i v : Item} (hi : i.Encodable) (hlen : (encode i).length < 2 ^ 53)
    (hv : valueOf textDecode i = some v) : cborDecode textDecode (encode i) = some (v, []) := by
  have h := cborDecodeFuel_encode hi hlen hv (depth_lt_length hi) []
  rwa [List.append_nil] at h

end ScittCose.Pages
