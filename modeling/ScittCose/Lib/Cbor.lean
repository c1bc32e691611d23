import ScittCose.Lib.Utf8

/-!
# CBOR data items (RFC 8949)

`Cbor.Item` is a decoded data item, `Cbor.encode` its preferred serialization (shortest arguments,
definite lengths, map pairs in the order given) and `Cbor.decode` a reader of one item from the
front of an octet string that accepts every well-formed encoding, indefinite lengths and longer
arguments included. `decodeFuel_encode` says the reader inverts the writer whatever follows, so the
encoding is prefix-free (`encode_append_inj`).
-/

namespace Cbor

/-- A data item, or a value of the host language that a reader made of one (`foreign`: a date, a
big number, a set, told apart by a number). A float is kept as its width in octets and its bits. -/
inductive Item where
  | int (n : ℤ)
  | bytes (b : Octets)
  | text (s : String)
  | array (xs : List Item)
  | map (ps : List (Item × Item))
  | tag (n : ℕ) (x : Item)
  | bool (b : Bool)
  | null
  | simple (n : ℕ)
  | float (width bits : ℕ)
  | foreign (k : ℕ)

/-! ## Induction and equality -/

/-- Induction over an item: the members of an array and the pairs of a map are smaller. -/
@[elab_as_elim]
theorem Item.induction {motive : Item → Prop}
    (int : ∀ n, motive (.int n)) (bytes : ∀ b, motive (.bytes b)) (text : ∀ s, motive (.text s))
    (array : ∀ xs, (∀ x ∈ xs, motive x) → motive (.array xs))
    (map : ∀ ps, (∀ p ∈ ps, motive p.1 ∧ motive p.2) → motive (.map ps))
    (tag : ∀ n x, motive x → motive (.tag n x)) (bool : ∀ b, motive (.bool b))
    (null : motive .null) (simple : ∀ n, motive (.simple n)) (float : ∀ w b, motive (.float w b))
    (foreign : ∀ k, motive (.foreign k)) (i : Item) : motive i :=
  Item.rec (motive_1 := motive) (motive_2 := fun xs => ∀ x ∈ xs, motive x)
    (motive_3 := fun ps => ∀ p ∈ ps, motive p.1 ∧ motive p.2)
    (motive_4 := fun p => motive p.1 ∧ motive p.2)
    int bytes text array map tag bool null simple float foreign
    (by simp) (fun _ _ hx hxs => by simpa using ⟨hx, hxs⟩)
    (by simp) (fun _ _ hp hps => by
      rintro p (_ | ⟨_, h⟩)
      · exact hp
      · exact hps p h)
    (fun _ _ hk hv => ⟨hk, hv⟩) i

mutual

/-- Equality of items, decided. -/
def Item.beq : Item → Item → Bool
  | .int n, .int m => n == m
  | .bytes b, .bytes c => b == c
  | .text s, .text t => s == t
  | .array xs, .array ys => beqList xs ys
  | .map ps, .map qs => beqPairs ps qs
  | .tag n x, .tag m y => n == m && x.beq y
  | .bool b, .bool c => b == c
  | .null, .null => true
  | .simple n, .simple m => n == m
  | .float w b, .float v c => w == v && b == c
  | .foreign k, .foreign l => k == l
  | _, _ => false

/-- Equality of lists of items. -/
def beqList : List Item → List Item → Bool
  | [], [] => true
  | x :: xs, y :: ys => x.beq y && beqList xs ys
  | _, _ => false

/-- Equality of lists of pairs. -/
def beqPairs : List (Item × Item) → List (Item × Item) → Bool
  | [], [] => true
  | (k, v) :: ps, (l, w) :: qs => k.beq l && v.beq w && beqPairs ps qs
  | _, _ => false

end

theorem beqList_iff {xs : List Item} (h : ∀ x ∈ xs, ∀ y, x.beq y = true ↔ x = y) :
    ∀ ys, beqList xs ys = true ↔ xs = ys := by
  induction xs with
  | nil => rintro (_ | ⟨y, ys⟩) <;> simp [beqList]
  | cons x xs ih =>
      have hx := h x (by simp)
      have hxs := ih fun x hx => h x (by simp [hx])
      rintro (_ | ⟨y, ys⟩)
      · simp [beqList]
      · simp [beqList, hx, hxs]

theorem beqPairs_iff {ps : List (Item × Item)}
    (h : ∀ p ∈ ps, (∀ y, p.1.beq y = true ↔ p.1 = y) ∧ ∀ y, p.2.beq y = true ↔ p.2 = y) :
    ∀ qs, beqPairs ps qs = true ↔ ps = qs := by
  induction ps with
  | nil => rintro (_ | ⟨q, qs⟩) <;> simp [beqPairs]
  | cons p ps ih =>
      obtain ⟨hk, hv⟩ := h p (by simp)
      have hps := ih fun p hp => h p (by simp [hp])
      obtain ⟨k, v⟩ := p
      rintro (_ | ⟨⟨l, w⟩, qs⟩)
      · simp [beqPairs]
      · simp [beqPairs, hk, hv, hps]

theorem Item.beq_iff (x : Item) : ∀ y, x.beq y = true ↔ x = y := by
  induction x using Item.induction with
  | int n => intro y; cases y <;> simp [Item.beq]
  | bytes b => intro y; cases y <;> simp [Item.beq]
  | text s => intro y; cases y <;> simp [Item.beq]
  | array xs ih => intro y; cases y <;> simp [Item.beq, beqList_iff ih]
  | map ps ih => intro y; cases y <;> simp [Item.beq, beqPairs_iff ih]
  | tag n x ih => intro y; cases y <;> simp [Item.beq, ih]
  | bool b => intro y; cases y <;> simp [Item.beq]
  | null => intro y; cases y <;> simp [Item.beq]
  | simple n => intro y; cases y <;> simp [Item.beq]
  | float w b => intro y; cases y <;> simp [Item.beq]
  | foreign k => intro y; cases y <;> simp [Item.beq]

instance : DecidableEq Item := fun x y => decidable_of_iff _ (Item.beq_iff x y)

/-! ## The preferred serialization -/

/-- The initial octet of a head: three bits of major type, five of additional information. -/
def initial (major info : ℕ) : UInt8 := UInt8.ofNat (major * 32 + info)

/-- The shortest head for major type `major` and argument `a` below `2 ^ 64` (RFC 8949 §4.2.1). -/
def head (major a : ℕ) : Octets :=
  if a < 24 then [initial major a]
  else if a < 2 ^ 8 then initial major 24 :: Octets.ofNat 1 a
  else if a < 2 ^ 16 then initial major 25 :: Octets.ofNat 2 a
  else if a < 2 ^ 32 then initial major 26 :: Octets.ofNat 4 a
  else initial major 27 :: Octets.ofNat 8 a

mutual

/-- The preferred serialization of an item, map pairs in the order given. -/
def encode : Item → Octets
  | .int n => if 0 ≤ n then head 0 n.toNat else head 1 (-1 - n).toNat
  | .bytes b => head 2 b.length ++ b
  | .text s => head 3 (Utf8.encode s).length ++ Utf8.encode s
  | .array xs => head 4 xs.length ++ encodeList xs
  | .map ps => head 5 ps.length ++ encodePairs ps
  | .tag n x => head 6 n ++ encode x
  | .bool b => if b then [0xf5] else [0xf4]
  | .null => [0xf6]
  | .simple n => head 7 n
  | .float w bits => initial 7 (if w = 2 then 25 else if w = 4 then 26 else 27) :: Octets.ofNat w bits
  | .foreign _ => []

/-- The members of an array, one after the other. -/
def encodeList : List Item → Octets
  | [] => []
  | x :: xs => encode x ++ encodeList xs

/-- The pairs of a map, one after the other. -/
def encodePairs : List (Item × Item) → Octets
  | [] => []
  | (k, v) :: ps => encode k ++ encode v ++ encodePairs ps

end

mutual

/-- Nesting levels below an item: an item inside an array, a map or a tag is one level deeper. -/
def Item.depth : Item → ℕ
  | .array xs => depthList xs
  | .map ps => depthPairs ps
  | .tag _ x => x.depth + 1
  | _ => 0

/-- The levels an array adds for its members. -/
def depthList : List Item → ℕ
  | [] => 0
  | x :: xs => max (x.depth + 1) (depthList xs)

/-- The levels a map adds for its pairs. -/
def depthPairs : List (Item × Item) → ℕ
  | [] => 0
  | (k, v) :: ps => max (max (k.depth + 1) (v.depth + 1)) (depthPairs ps)

end

mutual

/-- An item CBOR can carry: every argument is below `2 ^ 64`. -/
def Item.Encodable : Item → Prop
  | .int n => -2 ^ 64 ≤ n ∧ n < 2 ^ 64
  | .bytes b => b.length < 2 ^ 64
  | .text s => (Utf8.encode s).length < 2 ^ 64
  | .array xs => xs.length < 2 ^ 64 ∧ EncodableList xs
  | .map ps => ps.length < 2 ^ 64 ∧ EncodablePairs ps
  | .tag n x => n < 2 ^ 64 ∧ x.Encodable
  | .bool _ => True
  | .null => True
  | .simple n => n < 20 ∨ n = 23 ∨ 32 ≤ n ∧ n < 256
  | .float w bits => (w = 2 ∨ w = 4 ∨ w = 8) ∧ bits < 256 ^ w
  | .foreign _ => False

/-- Every member is encodable. -/
def EncodableList : List Item → Prop
  | [] => True
  | x :: xs => x.Encodable ∧ EncodableList xs

/-- Every key and value is encodable. -/
def EncodablePairs : List (Item × Item) → Prop
  | [] => True
  | (k, v) :: ps => k.Encodable ∧ v.Encodable ∧ EncodablePairs ps

end

theorem encodableList_iff {xs : List Item} : EncodableList xs ↔ ∀ x ∈ xs, x.Encodable := by
  induction xs with
  | nil => simp [EncodableList]
  | cons x xs ih => simp [EncodableList, ih]

theorem encodablePairs_iff {ps : List (Item × Item)} :
    EncodablePairs ps ↔ ∀ p ∈ ps, p.1.Encodable ∧ p.2.Encodable := by
  induction ps with
  | nil => simp [EncodablePairs]
  | cons p ps ih => obtain ⟨k, v⟩ := p; simp [EncodablePairs, ih, and_assoc]

theorem depthList_le_iff {xs : List Item} {d : ℕ} :
    depthList xs ≤ d ↔ ∀ x ∈ xs, x.depth + 1 ≤ d := by
  induction xs with
  | nil => simp [depthList]
  | cons x xs ih => simp [depthList, ih]

theorem depthPairs_le_iff {ps : List (Item × Item)} {d : ℕ} :
    depthPairs ps ≤ d ↔ ∀ p ∈ ps, p.1.depth + 1 ≤ d ∧ p.2.depth + 1 ≤ d := by
  induction ps with
  | nil => simp [depthPairs]
  | cons p ps ih => obtain ⟨k, v⟩ := p; simp [depthPairs, ih]

theorem encodeList_eq_flatMap (xs : List Item) : encodeList xs = xs.flatMap encode := by
  induction xs with
  | nil => rfl
  | cons x xs ih => simp [encodeList, ih]

theorem encodePairs_eq_flatMap (ps : List (Item × Item)) :
    encodePairs ps = ps.flatMap fun p => encode p.1 ++ encode p.2 := by
  induction ps with
  | nil => rfl
  | cons p ps ih => obtain ⟨k, v⟩ := p; simp [encodePairs, ih]

theorem toNat_initial {major info : ℕ} (hm : major < 8) (hi : info < 32) :
    (initial major info).toNat = major * 32 + info := by
  rw [initial, UInt8.toNat_ofNat']
  omega

/-! ## Reading one item -/

/-- The argument of a head with additional information `info`, whose octets start `b`. -/
def readArgument (info : ℕ) (b : Octets) : Option (ℕ × Octets) :=
  if info < 24 then some (info, b)
  else if info < 28 then
    let w := 2 ^ (info - 24)
    if b.length < w then none else some (Octets.toNat (b.take w), b.drop w)
  else none

/-- Read `n` things one after the other. -/
def readMany {α : Type} (read : Octets → Option (α × Octets)) : ℕ → Octets → Option (List α × Octets)
  | 0, b => some ([], b)
  | n + 1, b => do
    let (x, b) ← read b
    let (xs, b) ← readMany read n b
    return (x :: xs, b)

/-- Read things up to the break octet; at most `fuel` of them. -/
def readToBreak {α : Type} (read : Octets → Option (α × Octets)) :
    ℕ → Octets → Option (List α × Octets)
  | 0, _ => none
  | _, [] => none
  | fuel + 1, a :: b =>
    if a = 0xff then some ([], b)
    else do
      let (x, b) ← read (a :: b)
      let (xs, b) ← readToBreak read fuel b
      return (x :: xs, b)

/-- Read `n` octets. -/
def readOctets (n : ℕ) (b : Octets) : Option (Octets × Octets) :=
  if b.length < n then none else some (b.take n, b.drop n)

/-- Read one chunk of an indefinite-length string of major type `major`. -/
def readChunk (major : ℕ) : Octets → Option (Octets × Octets)
  | [] => none
  | a :: b =>
    if a.toNat / 32 = major then do
      let (n, b) ← readArgument (a.toNat % 32) b
      readOctets n b
    else none

/-- Read the content of a string: a length and that many octets, or chunks up to a break. -/
def readString (major info : ℕ) (b : Octets) : Option (Octets × Octets) :=
  if info = 31 then do
    let (chunks, b) ← readToBreak (readChunk major) (b.length + 1) b
    return (chunks.flatten, b)
  else do
    let (n, b) ← readArgument info b
    readOctets n b

/-- Read the content of a text string; every chunk of it is UTF-8 of its own (RFC 8949 §3.2.3). -/
def readText (info : ℕ) (b : Octets) : Option (String × Octets) :=
  if info = 31 then do
    let (chunks, b) ← readToBreak (fun b => do
      let (c, b) ← readChunk 3 b
      let s ← Utf8.decode c
      return (s, b)) (b.length + 1) b
    return (String.join chunks, b)
  else do
    let (s, b) ← readString 3 info b
    let s ← Utf8.decode s
    return (s, b)

/-- Read a simple value or a float after an initial octet of major type 7. -/
def readSimple (info : ℕ) (b : Octets) : Option (Item × Octets) :=
  if info = 20 then some (.bool false, b)
  else if info = 21 then some (.bool true, b)
  else if info = 22 then some (.null, b)
  else if info < 24 then some (.simple info, b)
  else do
    let (n, b) ← readArgument info b
    if info = 24 then if n < 32 then none else return (.simple n, b)
    else return (.float (2 ^ (info - 24)) n, b)

/-- Read a key and its value. -/
def readPair (read : Octets → Option (Item × Octets)) (b : Octets) :
    Option ((Item × Item) × Octets) := do
  let (k, b) ← read b
  let (v, b) ← read b
  return ((k, v), b)

/-- Read one item of at most `fuel` levels from the front of an octet string. -/
def decodeFuel : ℕ → Octets → Option (Item × Octets)
  | 0, _ => none
  | _, [] => none
  | fuel + 1, a :: b =>
    let info := a.toNat % 32
    match a.toNat / 32 with
    | 0 => do
      let (n, b) ← readArgument info b
      return (.int n, b)
    | 1 => do
      let (n, b) ← readArgument info b
      return (.int (-1 - n), b)
    | 2 => do
      let (s, b) ← readString 2 info b
      return (.bytes s, b)
    | 3 => do
      let (s, b) ← readText info b
      return (.text s, b)
    | 4 =>
      if info = 31 then do
        let (xs, b) ← readToBreak (decodeFuel fuel) (b.length + 1) b
        return (.array xs, b)
      else do
        let (n, b) ← readArgument info b
        let (xs, b) ← readMany (decodeFuel fuel) n b
        return (.array xs, b)
    | 5 =>
      if info = 31 then do
        let (ps, b) ← readToBreak (readPair (decodeFuel fuel)) (b.length + 1) b
        return (.map ps, b)
      else do
        let (n, b) ← readArgument info b
        let (ps, b) ← readMany (readPair (decodeFuel fuel)) n b
        return (.map ps, b)
    | 6 => do
      let (n, b) ← readArgument info b
      let (x, b) ← decodeFuel fuel b
      return (.tag n x, b)
    | _ => readSimple info b

/-- Read one item from the front of an octet string; every level takes an octet, so the octet
count bounds the levels. -/
def decode (b : Octets) : Option (Item × Octets) := decodeFuel b.length b

/-! ## The reader inverts the writer -/

theorem readArgument_of_width {info w a : ℕ} (hw : w = 2 ^ (info - 24)) (hi : 24 ≤ info)
    (hi' : info < 28) (ha : a < 256 ^ w) (rest : Octets) :
    readArgument info (Octets.ofNat w a ++ rest) = some (a, rest) := by
  rw [readArgument, if_neg (by omega), if_pos hi', ← hw]
  simp [Octets.toNat_ofNat ha]

/-- The octets of a shortest head and what reading it back yields. -/
theorem exists_head (major : ℕ) {a : ℕ} (ha : a < 2 ^ 64) :
    ∃ info arg, head major a = initial major info :: arg ∧ info < 28 ∧
      (24 ≤ info → 24 ≤ a) ∧ (info < 24 → info = a) ∧
      ∀ rest, readArgument info (arg ++ rest) = some (a, rest) := by
  rw [head]
  split_ifs with h1 h2 h3 h4
  · exact ⟨a, [], rfl, by omega, by omega, fun _ => rfl, fun rest => by simp [readArgument, h1]⟩
  · exact ⟨24, _, rfl, by omega, by omega, by omega,
      readArgument_of_width rfl (by omega) (by omega) h2⟩
  · exact ⟨25, _, rfl, by omega, by omega, by omega,
      readArgument_of_width rfl (by omega) (by omega) (by norm_num; omega)⟩
  · exact ⟨26, _, rfl, by omega, by omega, by omega,
      readArgument_of_width rfl (by omega) (by omega) (by norm_num; omega)⟩
  · exact ⟨27, _, rfl, by omega, by omega, by omega,
      readArgument_of_width rfl (by omega) (by omega) (by norm_num; omega)⟩

theorem readOctets_append (b rest : Octets) : readOctets b.length (b ++ rest) = some (b, rest) := by
  simp [readOctets]

/-- Reading the length head of a string and its content. -/
theorem readString_head {major info : ℕ} {arg b rest : Octets} (hi : info < 28)
    (hr : ∀ r, readArgument info (arg ++ r) = some (b.length, r)) :
    readString major info (arg ++ (b ++ rest)) = some (b, rest) := by
  rw [readString, if_neg (by omega), hr]
  exact readOctets_append b rest

/-- Reading the length head of a text and its content. -/
theorem readText_head {info : ℕ} {arg rest : Octets} {s : String} (hi : info < 28)
    (hr : ∀ r, readArgument info (arg ++ r) = some ((Utf8.encode s).length, r)) :
    readText info (arg ++ (Utf8.encode s ++ rest)) = some (s, rest) := by
  rw [readText, if_neg (by omega), readString_head hi hr]
  simp

/-- Reading back a list of things, each of which reads back whatever follows. -/
theorem readMany_append {α : Type} {read : Octets → Option (α × Octets)} {write : α → Octets}
    {xs : List α} (h : ∀ x ∈ xs, ∀ rest, read (write x ++ rest) = some (x, rest)) (rest : Octets) :
    readMany read xs.length (xs.flatMap write ++ rest) = some (xs, rest) := by
  induction xs with
  | nil => rfl
  | cons x xs ih =>
      have hx := h x (by simp) (xs.flatMap write ++ rest)
      have hxs := ih fun y hy => h y (by simp [hy])
      simp [readMany, hx, hxs]

/-- Reading back a head and going on with the items it announces. -/
theorem decodeFuel_head {major a : ℕ} (hm : major < 8) (ha : a < 2 ^ 64) (fuel : ℕ)
    (rest : Octets) :
    ∃ info arg, info < 28 ∧ (24 ≤ info → 24 ≤ a) ∧ (info < 24 → info = a) ∧
      (∀ r, readArgument info (arg ++ r) = some (a, r)) ∧
      (initial major info).toNat / 32 = major ∧ (initial major info).toNat % 32 = info ∧
      decodeFuel (fuel + 1) (head major a ++ rest) =
        decodeFuel (fuel + 1) (initial major info :: (arg ++ rest)) := by
  obtain ⟨info, arg, hhead, hi, h24, hlt, hr⟩ := exists_head major ha
  have hx := toNat_initial hm (show info < 32 by omega)
  exact ⟨info, arg, hi, h24, hlt, hr, by omega, by omega, by rw [hhead]; rfl⟩

theorem decodeFuel_major_seven {info : ℕ} (hi : info < 32) (fuel : ℕ) (b : Octets) :
    decodeFuel (fuel + 1) (initial 7 info :: b) = readSimple info b := by
  have hx := toNat_initial (show 7 < 8 by omega) hi
  have hmaj : (initial 7 info).toNat / 32 = 7 := by omega
  have hinf : (initial 7 info).toNat % 32 = info := by omega
  simp only [decodeFuel, hmaj, hinf]

theorem decodeFuel_simple {n : ℕ} (hn : (Item.simple n).Encodable) (fuel : ℕ) (rest : Octets) :
    decodeFuel (fuel + 1) (encode (.simple n) ++ rest) = some (.simple n, rest) := by
  simp only [Item.Encodable] at hn
  rw [encode, head]
  by_cases h : n < 24
  · rw [if_pos h, List.cons_append, decodeFuel_major_seven (by omega), readSimple,
      if_neg (by omega), if_neg (by omega), if_neg (by omega), if_pos h]
    rfl
  · rw [if_neg h, if_pos (by omega), List.cons_append, decodeFuel_major_seven (by omega), readSimple,
      readArgument_of_width (w := 1) rfl (by omega) (by omega) (by omega)]
    simp [show ¬ n < 32 by omega]

theorem decodeFuel_float {w bits : ℕ} (h : (Item.float w bits).Encodable) (fuel : ℕ)
    (rest : Octets) :
    decodeFuel (fuel + 1) (encode (.float w bits) ++ rest) = some (.float w bits, rest) := by
  have hread : ∀ info, w = 2 ^ (info - 24) → 25 ≤ info → info < 28 →
      decodeFuel (fuel + 1) (initial 7 info :: (Octets.ofNat w bits ++ rest))
        = some (.float w bits, rest) := by
    intro info hw hlo hhi
    rw [decodeFuel_major_seven (by omega), readSimple, if_neg (by omega), if_neg (by omega),
      if_neg (by omega), if_neg (by omega), readArgument_of_width hw (by omega) hhi h.2]
    simp [show info ≠ 24 by omega, hw]
  obtain ⟨rfl | rfl | rfl, -⟩ := h
  · exact hread 25 rfl (by omega) (by omega)
  · exact hread 26 rfl (by omega) (by omega)
  · exact hread 27 rfl (by omega) (by omega)

/-- **The reader inverts the writer**, whatever octets follow. -/
theorem decodeFuel_encode {i : Item} (hi : i.Encodable) {fuel : ℕ} (hf : i.depth < fuel)
    (rest : Octets) : decodeFuel fuel (encode i ++ rest) = some (i, rest) := by
  induction i using Item.induction generalizing fuel rest with
  | int n =>
      obtain ⟨fuel, rfl⟩ : ∃ f, fuel = f + 1 := ⟨fuel - 1, by omega⟩
      obtain ⟨hlo, hhi⟩ := hi
      rw [encode]
      split_ifs with hn
      · obtain ⟨info, arg, -, -, -, hr, hmaj, hinf, hd⟩ :=
          decodeFuel_head (show 0 < 8 by omega) (show n.toNat < 2 ^ 64 by omega) fuel rest
        rw [hd]
        simp only [decodeFuel, hmaj, hinf, hr]
        simp [hn]
      · obtain ⟨info, arg, -, -, -, hr, hmaj, hinf, hd⟩ :=
          decodeFuel_head (show 1 < 8 by omega) (show (-1 - n).toNat < 2 ^ 64 by omega) fuel rest
        have hval : -1 - ((-1 - n).toNat : ℤ) = n := by omega
        rw [hd]
        simp only [decodeFuel, hmaj, hinf, hr, Option.bind_eq_bind, Option.bind_some, hval]
        rfl
  | bytes b =>
      obtain ⟨fuel, rfl⟩ : ∃ f, fuel = f + 1 := ⟨fuel - 1, by omega⟩
      obtain ⟨info, arg, hlt, -, -, hr, hmaj, hinf, hd⟩ :=
        decodeFuel_head (show 2 < 8 by omega) hi fuel (b ++ rest)
      rw [encode, List.append_assoc, hd]
      simp only [decodeFuel, hmaj, hinf, readString_head hlt hr]
      rfl
  | text s =>
      obtain ⟨fuel, rfl⟩ : ∃ f, fuel = f + 1 := ⟨fuel - 1, by omega⟩
      obtain ⟨info, arg, hlt, -, -, hr, hmaj, hinf, hd⟩ :=
        decodeFuel_head (show 3 < 8 by omega) hi fuel (Utf8.encode s ++ rest)
      rw [encode, List.append_assoc, hd]
      simp only [decodeFuel, hmaj, hinf, readText_head hlt hr]
      rfl
  | array xs ih =>
      obtain ⟨fuel, rfl⟩ : ∃ f, fuel = f + 1 := ⟨fuel - 1, by omega⟩
      obtain ⟨info, arg, hlt, -, -, hr, hmaj, hinf, hd⟩ :=
        decodeFuel_head (show 4 < 8 by omega) hi.1 fuel (encodeList xs ++ rest)
      have hmem := encodableList_iff.mp hi.2
      have hdep := depthList_le_iff.mp (Nat.le_of_lt_succ hf)
      have hread : ∀ x ∈ xs, ∀ rest, decodeFuel fuel (encode x ++ rest) = some (x, rest) :=
        fun x hx rest => ih x hx (hmem x hx) (hdep x hx) rest
      rw [encode, List.append_assoc, hd, encodeList_eq_flatMap]
      simp only [decodeFuel, hmaj, hinf, hr, if_neg (show info ≠ 31 by omega)]
      simp [readMany_append hread]
  | map ps ih =>
      obtain ⟨fuel, rfl⟩ : ∃ f, fuel = f + 1 := ⟨fuel - 1, by omega⟩
      obtain ⟨info, arg, hlt, -, -, hr, hmaj, hinf, hd⟩ :=
        decodeFuel_head (show 5 < 8 by omega) hi.1 fuel (encodePairs ps ++ rest)
      have hmem := encodablePairs_iff.mp hi.2
      have hdep := depthPairs_le_iff.mp (Nat.le_of_lt_succ hf)
      have hread : ∀ p ∈ ps, ∀ rest, readPair (decodeFuel fuel) (encode p.1 ++ encode p.2 ++ rest)
          = some (p, rest) := by
        intro p hp rest
        have hk := (ih p hp).1 (hmem p hp).1 (hdep p hp).1 (encode p.2 ++ rest)
        have hv := (ih p hp).2 (hmem p hp).2 (hdep p hp).2 rest
        simp [readPair, hk, hv]
      rw [encode, List.append_assoc, hd, encodePairs_eq_flatMap]
      simp only [decodeFuel, hmaj, hinf, hr, if_neg (show info ≠ 31 by omega)]
      simp [readMany_append hread]
  | tag n x ih =>
      obtain ⟨fuel, rfl⟩ : ∃ f, fuel = f + 1 := ⟨fuel - 1, by omega⟩
      obtain ⟨info, arg, -, -, -, hr, hmaj, hinf, hd⟩ :=
        decodeFuel_head (show 6 < 8 by omega) hi.1 fuel (encode x ++ rest)
      rw [encode, List.append_assoc, hd]
      simp only [decodeFuel, hmaj, hinf, hr]
      simp [ih hi.2 (show x.depth < fuel by simp only [Item.depth] at hf; omega)]
  | bool b =>
      obtain ⟨fuel, rfl⟩ : ∃ f, fuel = f + 1 := ⟨fuel - 1, by omega⟩
      cases b <;> rfl
  | null =>
      obtain ⟨fuel, rfl⟩ : ∃ f, fuel = f + 1 := ⟨fuel - 1, by omega⟩
      rfl
  | simple n =>
      obtain ⟨fuel, rfl⟩ : ∃ f, fuel = f + 1 := ⟨fuel - 1, by omega⟩
      exact decodeFuel_simple hi fuel rest
  | float w bits =>
      obtain ⟨fuel, rfl⟩ : ∃ f, fuel = f + 1 := ⟨fuel - 1, by omega⟩
      exact decodeFuel_float hi fuel rest
  | foreign k => exact hi.elim

theorem encode_ne_nil {i : Item} (hi : i.Encodable) : encode i ≠ [] := by
  intro h
  have h1 := decodeFuel_encode hi (Nat.lt_succ_self _) []
  rw [h] at h1
  cases h1

/-- The encoding is prefix-free: what follows an item says nothing about it. -/
theorem encode_append_inj {i j : Item} (hi : i.Encodable) (hj : j.Encodable) {r s : Octets}
    (h : encode i ++ r = encode j ++ s) : i = j ∧ r = s := by
  have h1 := decodeFuel_encode hi (show i.depth < max i.depth j.depth + 1 by omega) r
  have h2 := decodeFuel_encode hj (show j.depth < max i.depth j.depth + 1 by omega) s
  rw [h, h2] at h1
  simpa [eq_comm] using h1

theorem encode_inj {i j : Item} (hi : i.Encodable) (hj : j.Encodable) (h : encode i = encode j) :
    i = j :=
  (encode_append_inj hi hj (r := []) (s := []) (by simpa using h)).1

theorem depthList_lt_length {xs : List Item}
    (h : ∀ x ∈ xs, x.depth < (encode x).length) : depthList xs ≤ (encodeList xs).length := by
  induction xs with
  | nil => simp [depthList]
  | cons x xs ih =>
      have hx := h x (by simp)
      have hxs := ih fun y hy => h y (by simp [hy])
      simp only [depthList, encodeList, List.length_append]
      omega

theorem depthPairs_lt_length {ps : List (Item × Item)}
    (h : ∀ p ∈ ps, p.1.depth < (encode p.1).length ∧ p.2.depth < (encode p.2).length) :
    depthPairs ps ≤ (encodePairs ps).length := by
  induction ps with
  | nil => simp [depthPairs]
  | cons p ps ih =>
      have hp := h p (by simp)
      have hps := ih fun q hq => h q (by simp [hq])
      obtain ⟨k, v⟩ := p
      simp only [depthPairs, encodePairs, List.length_append] at hp ⊢
      omega

theorem head_length_pos (major a : ℕ) : 0 < (head major a).length := by
  rw [head]
  split_ifs <;> simp

/-- Every level of nesting takes an octet. -/
theorem depth_lt_length {i : Item} (hi : i.Encodable) : i.depth < (encode i).length := by
  induction i using Item.induction with
  | array xs ih =>
      have hmem := encodableList_iff.mp hi.2
      have := depthList_lt_length fun x hx => ih x hx (hmem x hx)
      have := head_length_pos 4 xs.length
      simp only [Item.depth, encode, List.length_append]
      omega
  | map ps ih =>
      have hmem := encodablePairs_iff.mp hi.2
      have := depthPairs_lt_length fun p hp =>
        ⟨(ih p hp).1 (hmem p hp).1, (ih p hp).2 (hmem p hp).2⟩
      have := head_length_pos 5 ps.length
      simp only [Item.depth, encode, List.length_append]
      omega
  | tag n x ih =>
      have := ih hi.2
      have := head_length_pos 6 n
      simp only [Item.depth, encode, List.length_append]
      omega
  | foreign k => exact hi.elim
  | _ => exact List.length_pos_of_ne_nil (encode_ne_nil hi)

theorem decode_encode {i : Item} (hi : i.Encodable) (rest : Octets) :
    decode (encode i ++ rest) = some (i, rest) := by
  refine decodeFuel_encode hi ?_ rest
  have := depth_lt_length hi
  simp only [List.length_append]
  omega

/-! ## What the reader returns -/

mutual

/-- An item whose arguments fit a head, whatever the number of its members. -/
def Item.Sound : Item → Prop
  | .int n => -2 ^ 64 ≤ n ∧ n < 2 ^ 64
  | .array xs => SoundList xs
  | .map ps => SoundPairs ps
  | .tag n x => n < 2 ^ 64 ∧ x.Sound
  | .simple n => n < 20 ∨ n = 23 ∨ 32 ≤ n ∧ n < 256
  | .float w bits => (w = 2 ∨ w = 4 ∨ w = 8) ∧ bits < 256 ^ w
  | .foreign _ => False
  | _ => True

/-- Every member is sound. -/
def SoundList : List Item → Prop
  | [] => True
  | x :: xs => x.Sound ∧ SoundList xs

/-- Every key and value is sound. -/
def SoundPairs : List (Item × Item) → Prop
  | [] => True
  | (k, v) :: ps => k.Sound ∧ v.Sound ∧ SoundPairs ps

end

theorem soundList_iff {xs : List Item} : SoundList xs ↔ ∀ x ∈ xs, x.Sound := by
  induction xs with
  | nil => simp [SoundList]
  | cons x xs ih => simp [SoundList, ih]

theorem soundPairs_iff {ps : List (Item × Item)} :
    SoundPairs ps ↔ ∀ p ∈ ps, p.1.Sound ∧ p.2.Sound := by
  induction ps with
  | nil => simp [SoundPairs]
  | cons p ps ih => obtain ⟨k, v⟩ := p; simp [SoundPairs, ih, and_assoc]

theorem readArgument_lt {info n : ℕ} {b rest : Octets} (h : readArgument info b = some (n, rest)) :
    info < 24 ∧ n = info ∨ 24 ≤ info ∧ info < 28 ∧ n < 256 ^ 2 ^ (info - 24) := by
  rw [readArgument] at h
  split_ifs at h with h24 h28
  · cases h
    exact .inl ⟨h24, rfl⟩
  · dsimp only at h
    split_ifs at h with hlen
    cases h
    refine .inr ⟨not_lt.mp h24, h28, ?_⟩
    have hlt := Octets.toNat_lt (b.take (2 ^ (info - 24)))
    rwa [List.length_take, min_eq_left (not_lt.mp hlen)] at hlt

/-- An argument is below `2 ^ 64`. -/
theorem readArgument_lt_two_pow {info n : ℕ} {b rest : Octets}
    (h : readArgument info b = some (n, rest)) : n < 2 ^ 64 := by
  obtain ⟨h24, rfl⟩ | ⟨h24, h28, hn⟩ := readArgument_lt h
  · omega
  · obtain rfl | rfl | rfl | rfl : info = 24 ∨ info = 25 ∨ info = 26 ∨ info = 27 := by omega
    all_goals norm_num at hn ⊢; omega

theorem forall_of_readMany {α : Type} {P : α → Prop} {read : Octets → Option (α × Octets)}
    (hread : ∀ {b x rest}, read b = some (x, rest) → P x) {n : ℕ} {b rest : Octets} {xs : List α}
    (h : readMany read n b = some (xs, rest)) : ∀ x ∈ xs, P x := by
  induction n generalizing b xs with
  | zero =>
      cases h
      simp
  | succ n ih =>
      simp only [readMany, Option.bind_eq_bind, Option.bind_eq_some_iff] at h
      obtain ⟨⟨x, b'⟩, hx, ⟨ys, b''⟩, hys, h⟩ := h
      cases h
      exact List.forall_mem_cons.mpr ⟨hread hx, ih hys⟩

theorem forall_of_readToBreak {α : Type} {P : α → Prop} {read : Octets → Option (α × Octets)}
    (hread : ∀ {b x rest}, read b = some (x, rest) → P x) {fuel : ℕ} {b rest : Octets} {xs : List α}
    (h : readToBreak read fuel b = some (xs, rest)) : ∀ x ∈ xs, P x := by
  induction fuel generalizing b xs with
  | zero => cases h
  | succ fuel ih =>
      cases b with
      | nil => cases h
      | cons a b =>
          rw [readToBreak] at h
          split_ifs at h
          · cases h
            simp
          · simp only [Option.bind_eq_bind, Option.bind_eq_some_iff] at h
            obtain ⟨⟨x, b'⟩, hx, ⟨ys, b''⟩, hys, h⟩ := h
            cases h
            exact List.forall_mem_cons.mpr ⟨hread hx, ih hys⟩

theorem sound_of_readSimple {info : ℕ} {b rest : Octets} {i : Item} (hinfo : info < 32)
    (h : readSimple info b = some (i, rest)) : i.Sound := by
  rw [readSimple] at h
  split_ifs at h with h20 h21 h22 h23 h24
  · cases h; trivial
  · cases h; trivial
  · cases h; trivial
  · cases h
    exact show info < 20 ∨ info = 23 ∨ 32 ≤ info ∧ info < 256 by omega
  all_goals simp only [Option.bind_eq_bind, Option.bind_eq_some_iff] at h
  all_goals obtain ⟨⟨n, b'⟩, hn, h⟩ := h
  · subst h24
    obtain ⟨hlt, -⟩ | ⟨-, -, hlt⟩ := readArgument_lt hn
    · omega
    · dsimp only at h
      split_ifs at h with h32
      cases h
      norm_num at hlt
      exact show n < 20 ∨ n = 23 ∨ 32 ≤ n ∧ n < 256 by omega
  · cases h
    obtain ⟨hlt, -⟩ | ⟨hlo, hhi, hlt⟩ := readArgument_lt hn
    · omega
    · obtain rfl | rfl | rfl : info = 25 ∨ info = 26 ∨ info = 27 := by omega
      · exact ⟨.inl rfl, hlt⟩
      · exact ⟨.inr (.inl rfl), hlt⟩
      · exact ⟨.inr (.inr rfl), hlt⟩

theorem sound_of_decodeFuel {fuel : ℕ} {b rest : Octets} {i : Item}
    (h : decodeFuel fuel b = some (i, rest)) : i.Sound := by
  induction fuel generalizing b rest i with
  | zero => cases h
  | succ fuel ih =>
      have hpair : ∀ {b p rest}, readPair (decodeFuel fuel) b = some (p, rest) →
          p.1.Sound ∧ p.2.Sound := by
        intro b p rest h
        simp only [readPair, Option.bind_eq_bind, Option.bind_eq_some_iff] at h
        obtain ⟨⟨k, b'⟩, hk, ⟨v, b''⟩, hv, h⟩ := h
        cases h
        exact ⟨ih hk, ih hv⟩
      cases b with
      | nil => cases h
      | cons a b =>
          rw [decodeFuel] at h
          dsimp only at h
          split at h
          · simp only [Option.bind_eq_bind, Option.bind_eq_some_iff] at h
            obtain ⟨⟨n, b'⟩, hn, h⟩ := h
            cases h
            have := readArgument_lt_two_pow hn
            exact show (-2 ^ 64 : ℤ) ≤ n ∧ (n : ℤ) < 2 ^ 64 by omega
          · simp only [Option.bind_eq_bind, Option.bind_eq_some_iff] at h
            obtain ⟨⟨n, b'⟩, hn, h⟩ := h
            cases h
            have := readArgument_lt_two_pow hn
            exact show (-2 ^ 64 : ℤ) ≤ -1 - n ∧ (-1 - n : ℤ) < 2 ^ 64 by omega
          · simp only [Option.bind_eq_bind, Option.bind_eq_some_iff] at h
            obtain ⟨⟨s, b'⟩, -, h⟩ := h
            cases h
            trivial
          · simp only [Option.bind_eq_bind, Option.bind_eq_some_iff] at h
            obtain ⟨⟨s, b'⟩, -, h⟩ := h
            cases h
            trivial
          · split_ifs at h
            · simp only [Option.bind_eq_bind, Option.bind_eq_some_iff] at h
              obtain ⟨⟨xs, b'⟩, hxs, h⟩ := h
              cases h
              exact soundList_iff.mpr (forall_of_readToBreak ih hxs)
            · simp only [Option.bind_eq_bind, Option.bind_eq_some_iff] at h
              obtain ⟨⟨n, b'⟩, -, ⟨xs, b''⟩, hxs, h⟩ := h
              cases h
              exact soundList_iff.mpr (forall_of_readMany ih hxs)
          · split_ifs at h
            · simp only [Option.bind_eq_bind, Option.bind_eq_some_iff] at h
              obtain ⟨⟨ps, b'⟩, hps, h⟩ := h
              cases h
              exact soundPairs_iff.mpr (forall_of_readToBreak hpair hps)
            · simp only [Option.bind_eq_bind, Option.bind_eq_some_iff] at h
              obtain ⟨⟨n, b'⟩, -, ⟨ps, b''⟩, hps, h⟩ := h
              cases h
              exact soundPairs_iff.mpr (forall_of_readMany hpair hps)
          · simp only [Option.bind_eq_bind, Option.bind_eq_some_iff] at h
            obtain ⟨⟨n, b'⟩, hn, ⟨x, b''⟩, hx, h⟩ := h
            cases h
            exact ⟨readArgument_lt_two_pow hn, ih hx⟩
          · exact sound_of_readSimple (Nat.mod_lt _ (by norm_num)) h

/-- What the reader returns has arguments that fit a head. -/
theorem sound_of_decode {b rest : Octets} {i : Item} (h : decode b = some (i, rest)) : i.Sound :=
  sound_of_decodeFuel h

/-! ## An item is no longer than what holds it -/

theorem length_le_encode_bytes (b : Octets) : b.length ≤ (encode (.bytes b)).length := by
  simp [encode]

theorem length_le_encode_text (s : String) : (Utf8.encode s).length ≤ (encode (.text s)).length := by
  simp [encode]

theorem length_le_encode_tag (n : ℕ) (x : Item) : (encode x).length ≤ (encode (.tag n x)).length := by
  simp [encode]

theorem length_encode_le_of_mem {x : Item} {xs : List Item} (h : x ∈ xs) :
    (encode x).length ≤ (encode (.array xs)).length := by
  obtain ⟨before, after, rfl⟩ := List.append_of_mem h
  simp only [encode, encodeList_eq_flatMap, List.flatMap_append, List.flatMap_cons,
    List.length_append]
  omega

theorem length_encode_le_of_mem_map {p : Item × Item} {ps : List (Item × Item)} (h : p ∈ ps) :
    (encode p.2).length ≤ (encode (.map ps)).length := by
  obtain ⟨before, after, rfl⟩ := List.append_of_mem h
  simp only [encode, encodePairs_eq_flatMap, List.flatMap_append, List.flatMap_cons,
    List.length_append]
  omega

end Cbor
