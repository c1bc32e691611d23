import ScittCose.Lib.JsNumber
import ScittCose.Merkle.Machine
import ScittCose.Receipt.Soundness

/-!
# The browser's receipt verifier (`verifyReceipt` in `viewer/src/witness.js`)

A port of the RFC 9162 path of `scitt_cose/receipt.py` onto `cborg`, without the encoding rule. A value
of JavaScript is an `Item`: a number that is a safe integer is an `int`, as is a big integer outside that
range, any other number a `float`, a `Map` a `map`, an object with string keys a `foreign`, and
`undefined` the simple value 23. A thrown error is `none`, and the verifier resolves it to false.

Below `2 ^ 53` no number is rounded and the root is the library's (`receiptRoot_eq`).
-/

namespace ScittCose.Witness

open Cbor Js
open EncodingRule (Plain Grammar)
open Merkle (leafHashBytes nodeHash)

/-! ## The platform -/

mutual

/-- An item as it is decoded without `useMaps`: a map is an object, and its keys are text. -/
def objects : Item → Option Item
  | .array xs => (objectsList xs).map .array
  | .map ps => (objectsPairs ps).map fun _ => .foreign 0
  | i => some i

def objectsList : List Item → Option (List Item)
  | [] => some []
  | x :: xs => do
    let x ← objects x
    let xs ← objectsList xs
    return x :: xs

def objectsPairs : List (Item × Item) → Option Unit
  | [] => some ()
  | (.text _, v) :: ps => do
    let _ ← objects v
    objectsPairs ps
  | _ :: _ => none

end

/-- `cborg`, with the options the module passes. It reads RFC 8949 but indefinite lengths, and is
asked here for the items of the encoding rule only. -/
structure Cborg where
  /-- `decode(b, cborOptions)` -/
  decode : Octets → Option Item
  /-- `decode(b, { allowIndefinite: false })` -/
  decodeObjects : Octets → Option Item
  /-- `encode(value, rfc8949EncodeOptions)` -/
  encode : Item → Octets
  decode_nil : decode [] = none
  decode_encode : ∀ {i}, Plain i → decode (Cbor.encode i) = some i
  decodeObjects_encode : ∀ {i}, Plain i → decodeObjects (Cbor.encode i) = objects i
  encode_sigItem : ∀ b payload, encode (sigItem b payload) = Cbor.encode (sigItem b payload)

/-- What the module takes from the page: `crypto.subtle.digest`, `cborg`, and an Ed25519 verification
of a raw key, a message and a signature. -/
structure Platform where
  hash : Hash
  cborg : Cborg
  ed25519Verify : Octets → Octets → Octets → Bool

/-- `cborg` as a reader of all well-formed CBOR. -/
def Cborg.reference : Cborg where
  decode := decodeAll
  decodeObjects b := (decodeAll b).bind objects
  encode := Cbor.encode
  decode_nil := rfl
  decode_encode hi := decodeAll_encode hi.encodable
  decodeObjects_encode hi := by
    rw [decodeAll_encode hi.encodable]
    rfl
  encode_sigItem _ _ := rfl

/-- The raw key of the test vector. -/
def vectorKey : Octets := Octets.ofNat 32
  0x1d11c17cf178e3e8ee069a1b9fd2b3f20e218de4a4efe240a79e59c5454b41a2

/-- SHA-256, reference CBOR and the vector's key and signature. -/
def vectorPlatform : Platform where
  hash := Hash.sha256
  cborg := .reference
  ed25519Verify key32 m signature := key32 = vectorKey ∧
    m = Cbor.encode (sigItem Receipt.vectorProtected Receipt.vectorRoot) ∧
    signature = Receipt.vectorSignature

section Source

/-- `===`: an array, a map or octets are equal to nothing that was made elsewhere, and a NaN to
nothing. -/
def strictEq (a b : Item) : Bool :=
  match a with
  | .int _ | .text _ | .bool _ | .null | .simple _ => a = b
  | .float _ bits => a = b && decide (bits ≠ 0x7ff8000000000000)
  | _ => false

/-- `Number.isSafeInteger` -/
def safeInteger : Item → Option ℤ
  | .int n => if -2 ^ 53 < n ∧ n < 2 ^ 53 then some n else none
  | _ => none

/-- The loop of `largestPowerBelow`; `fuel` bounds its rounds. -/
def doubleBelow (n : ℤ) : ℕ → ℤ → ℤ
  | 0, p => p
  | fuel + 1, p => if num (p * 2) < n then doubleBelow n fuel (num (p * 2)) else p

/-- `largestPowerBelow` -/
def largestPowerBelow (n : ℤ) : ℤ := doubleBelow n n.toNat 1

/-- The loop of `expectedPath`; `fuel` bounds its rounds. -/
def pathLoop : ℕ → ℤ → ℤ → ℕ → ℕ
  | 0, _, _, count => count
  | fuel + 1, nodes, position, count =>
    if 1 < nodes then
      let split := largestPowerBelow nodes
      if position < split then pathLoop fuel split position (count + 1)
      else pathLoop fuel (num (nodes - split)) (num (position - split)) (count + 1)
    else count

/-- `expectedPath` -/
def expectedPath (size index : ℤ) : ℕ := pathLoop size.toNat size index 0

variable (P : Platform)

/-- `fold` of `receiptRoot`. The siblings stand in the order in which they are popped. -/
def fold (leaf : Octets) : List Octets → ℤ → ℤ → Option (Octets × List Octets)
  | [], nodes, _ => if nodes = 1 then some (leaf, []) else none
  | sibling :: siblings, nodes, position =>
    if nodes = 1 then some (leaf, sibling :: siblings)
    else
      let split := largestPowerBelow nodes
      if position < split then
        (fold leaf siblings split position).map fun (child, rest) =>
          (P.hash.digest (1 :: (child ++ sibling)), rest)
      else
        (fold leaf siblings (num (nodes - split)) (num (position - split))).map
          fun (child, rest) => (P.hash.digest (1 :: (sibling ++ child)), rest)

/-- `receiptRoot` -/
def receiptRoot (entry : Octets) (index size : Item) (path : List Octets) : Option Octets :=
  match safeInteger index, safeInteger size with
  | some index, some size =>
    if index < 0 ∨ size ≤ index ∨ path.length ≠ expectedPath size index then none
    else
      match fold P (P.hash.digest (0 :: entry)) path.reverse size index with
      | some (root, []) => some root
      | _ => none
  | _, _ => none

/-- `sigStructure` -/
def sigStructure (protectedBstr payload : Octets) : Octets :=
  P.cborg.encode (sigItem protectedBstr payload)

/-- A node of a path: octets, 32 of them. -/
def pathNode : Item → Option Octets
  | .bytes b => if b.length = 32 then some b else none
  | _ => none

/-- `verifyReceipt` -/
def verifyReceipt (entry receiptBytes : Octets) (leafIndex treeSize : Item) (key32 : Octets) :
    Bool :=
  if receiptBytes.length < 2 ∨ receiptBytes.head? ≠ some 0xd2 then false
  else
    match P.cborg.decode receiptBytes.tail with
    | some (.array [.bytes protectedBstr, .map unprotected, payload, .bytes signature]) =>
      -- a receipt's payload is detached
      if payload ≠ .null then false
      else
        match P.cborg.decode protectedBstr with
        | some (.map headers) =>
          if Dict.get headers (.int 1) ≠ some (.int (-8)) ∨
              Dict.get headers (.int 395) ≠ some (.int 1) then
            false
          else
            match Dict.get unprotected (.int 396) with
            | some (.map vdp) =>
              match Dict.get vdp (.int (-1)) with
              | some (.array [.bytes blob]) =>
                match P.cborg.decodeObjects blob with
                | some (.array [size, index, .array path]) =>
                  if ¬ strictEq size treeSize ∨ ¬ strictEq index leafIndex then false
                  else
                    match path.mapM pathNode with
                    | some path =>
                      match receiptRoot P entry leafIndex treeSize path with
                      | some root =>
                        P.ed25519Verify key32 (sigStructure P protectedBstr root) signature
                      | none => false
                    | none => false
                | _ => false
              | _ => false
            | _ => false
        | _ => false
    | _ => false

end Source

/-! ## The split -/

theorem num_of_le {n : ℕ} (h : n ≤ 2 ^ 53) : num n = n := by
  obtain h | rfl := Nat.lt_or_eq_of_le h
  · exact num_natCast h
  · decide

theorem doubleBelow_eq {n : ℕ} (hn : n < 2 ^ 53) (fuel e : ℕ) (he : 2 ^ e < n) :
    doubleBelow n fuel (2 ^ e : ℕ) = (Merkle.doubleBelow n fuel (2 ^ e) : ℕ) := by
  induction fuel generalizing e with
  | zero => rfl
  | succ fuel ih =>
      have hexp : e < 53 := (Nat.pow_lt_pow_iff_right (by norm_num)).mp (he.trans hn)
      have hpow : 2 ^ e * 2 ≤ 2 ^ 53 := by
        rw [← pow_succ]
        exact Nat.pow_le_pow_right (by norm_num) (by omega)
      have hnum : num (((2 ^ e : ℕ) : ℤ) * 2) = ((2 ^ (e + 1) : ℕ) : ℤ) := by
        have h := num_of_le hpow
        rw [pow_succ]
        push_cast at h ⊢
        exact h
      rw [doubleBelow, Merkle.doubleBelow, hnum, ← pow_succ]
      split_ifs with h1 h2 h2
      · exact ih (e + 1) h2
      · omega
      · omega
      · rfl

theorem largestPowerBelow_eq {n : ℕ} (h2 : 2 ≤ n) (hn : n < 2 ^ 53) :
    largestPowerBelow n = (Merkle.largestPow2Below n : ℕ) := by
  have h := doubleBelow_eq hn n 0 (by omega)
  rwa [pow_zero, Nat.cast_one] at h

/-! ## The root -/

theorem num_sub {m n : ℕ} (h : n ≤ m) (hm : m < 2 ^ 53) : num ((m : ℤ) - n) = (m - n : ℕ) := by
  rw [← Nat.cast_sub h]
  exact num_natCast (by omega)

theorem pathLoop_eq {fuel nodes position count : ℕ} (hn : nodes < 2 ^ 53) (hp : position < nodes) :
    pathLoop fuel nodes position count = Merkle.pathLenFrom fuel nodes position count := by
  induction fuel generalizing nodes position count with
  | zero => rfl
  | succ fuel ih =>
      rw [pathLoop, Merkle.pathLenFrom]
      by_cases h1 : 1 < nodes
      · have hlt := Merkle.largestPow2Below_lt h1
        have hpos := Merkle.largestPow2Below_pos nodes
        rw [if_pos (by exact_mod_cast h1), if_pos h1, largestPowerBelow_eq h1 hn]
        dsimp only
        by_cases hk : position < Merkle.largestPow2Below nodes
        · rw [if_pos (by exact_mod_cast hk), if_pos hk]
          exact ih (by omega) hk
        · rw [if_neg (by exact_mod_cast hk), if_neg hk, num_sub hlt.le hn,
            num_sub (by omega) (by omega)]
          exact ih (by omega) (by omega)
      · rw [if_neg (by exact_mod_cast h1), if_neg h1]

theorem expectedPath_eq {size index : ℕ} (hs : size < 2 ^ 53) (hi : index < size) :
    expectedPath size index = Merkle.expectedInclusionPathLen size index :=
  pathLoop_eq hs hi

variable {P : Platform}

theorem fold_eq {leaf : Octets} {siblings : List Octets} {nodes position : ℕ}
    (hn : nodes < 2 ^ 53) (hp : position < nodes) :
    fold P leaf siblings nodes position = Merkle.fold P.hash leaf siblings nodes position := by
  induction siblings generalizing nodes position with
  | nil =>
      rw [fold, Merkle.fold]
      simp only [Nat.cast_eq_one]
  | cons sibling siblings ih =>
      rw [fold, Merkle.fold]
      by_cases h1 : nodes = 1
      · rw [if_pos (by exact_mod_cast h1), if_pos h1]
      · have h2 : 2 ≤ nodes := by omega
        have hlt := Merkle.largestPow2Below_lt h2
        have hpos := Merkle.largestPow2Below_pos nodes
        rw [if_neg (by exact_mod_cast h1), if_neg h1, largestPowerBelow_eq h2 hn]
        dsimp only
        by_cases hk : position < Merkle.largestPow2Below nodes
        · rw [if_pos (by exact_mod_cast hk), if_pos hk, ih (by omega) hk]
          rfl
        · rw [if_neg (by exact_mod_cast hk), if_neg hk, num_sub hlt.le hn,
            num_sub (by omega) (by omega), ih (by omega) (by omega)]
          rfl

/-- Over safe integers the fold is the library's: no number is rounded. -/
theorem receiptRoot_eq (entry : Octets) {index size : ℕ} (hi : index < 2 ^ 53) (hs : size < 2 ^ 53)
    (path : List Octets) :
    receiptRoot P entry (.int index) (.int size) path =
      Merkle.rootOfProof P.hash entry index size path := by
  have hsafe : ∀ n : ℕ, n < 2 ^ 53 → safeInteger (.int n) = some (n : ℤ) := by
    intro n hn
    rw [safeInteger, if_pos (by omega)]
  rw [receiptRoot, hsafe index hi, hsafe size hs, Merkle.rootOfProof]
  dsimp only
  by_cases hlt : index < size
  · rw [expectedPath_eq hs hlt]
    by_cases hlen : path.length = Merkle.expectedInclusionPathLen size index
    · rw [if_neg (by omega), if_pos ⟨hlt, by omega, hlen⟩, fold_eq hs hlt]
      rfl
    · rw [if_pos (.inr (.inr hlen)), if_neg fun h => hlen h.2.2]
  · rw [if_pos (.inr (.inl (by omega))), if_neg fun h => hlt h.1]

end ScittCose.Witness
