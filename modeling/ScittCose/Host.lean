import ScittCose.Lib.CborFloat
import ScittCose.CoseSign1

/-!
# Python values (`cbor2`)

What `cbor2` reads and writes beyond the items of the encoding rule, as RFC 8949 has it: a half or
single is read as the double it stands for, a big number as an integer, and a later pair of a map
overwrites the value of an earlier equal key. A `Host` is what the values themselves decide: which
keys are equal, what a tag makes of its content and how such a value is written. `Cbor2.Follows`
says a `cbor2` reads and writes that way.

`read_write` says a value is read back from what `dumps` writes for it.
-/

namespace ScittCose

open Cbor
open EncodingRule (IsKey Plain Grammar)

/-- What Python and the decoders of tags decide about values. -/
structure Host where
  /-- `==` of a key in a dictionary and another key -/
  keyEq : Item → Item → Bool
  /-- What the tag `n` at a place of a message is decoded to, given the value of its content; a
  shared reference depends on the place. -/
  tagged : Item → List ℕ → ℕ → Item → Option Item
  /-- The item that a value without an item of its own (a date, a set) is written as. -/
  content : ℕ → Item
  /-- `type(value).__name__` -/
  typeName : Item → String
  /-- `bool(value)` of a value without an item of its own -/
  truthy : ℕ → Bool
  keyEq_of_isKey : ∀ {k l}, IsKey k → IsKey l → keyEq k l = decide (k = l)
  /-- `cbor2` has no decoder for the tag of COSE_Sign1. -/
  tagged_sign1 : ∀ whole path x, tagged whole path 18 x = some (.tag 18 x)

namespace Host

variable (host : Host)

/-! ## Dictionaries -/

/-- `d[key] = value`: an equal key keeps its place and its first form. -/
def put : Dict → Item → Item → Dict
  | [], key, value => [(key, value)]
  | (k, v) :: d, key, value =>
    if host.keyEq k key then (k, value) :: d else (k, v) :: put d key value

/-- The dictionary of the pairs of a map. -/
def dict (ps : Dict) : Dict := ps.foldl (fun d p => host.put d p.1 p.2) []

/-- `d.get(key)` -/
def get (d : Dict) (key : Item) : Option Item :=
  (d.find? fun p => host.keyEq p.1 key).map Prod.snd

/-- The entries under other keys. -/
def others (d : Dict) (key : Item) : Dict := d.filter fun p => ! host.keyEq p.1 key

/-! ## Reading -/

/-- The value of a tag and its content. -/
def untag (whole : Item) (path : List ℕ) : ℕ → Item → Option Item
  | 2, .bytes b => some (.int (Octets.toNat b))
  | 2, _ => none
  | 3, .bytes b => some (.int (-1 - Octets.toNat b))
  | 3, _ => none
  | n, x => host.tagged whole path n x

mutual

/-- The value of the item at `path` of the message `whole`. -/
def value (whole : Item) (path : List ℕ) : Item → Option Item
  | .array xs => (valueList whole path 0 xs).map .array
  | .map ps => (valuePairs whole path 0 ps).map fun ps => .map (host.dict ps)
  | .tag n x => do
    let x ← value whole (0 :: path) x
    host.untag whole path n x
  | .float w bits => some (.float 8 (widen w bits))
  | i => some i

/-- The values of the members of an array from the `k`-th on. -/
def valueList (whole : Item) (path : List ℕ) (k : ℕ) : List Item → Option (List Item)
  | [] => some []
  | x :: xs => do
    let x ← value whole (k :: path) x
    let xs ← valueList whole path (k + 1) xs
    return x :: xs

/-- The values of the pairs of a map from the `k`-th on. -/
def valuePairs (whole : Item) (path : List ℕ) (k : ℕ) : List (Item × Item) → Option Dict
  | [] => some []
  | (key, x) :: ps => do
    let key ← value whole ((2 * k) :: path) key
    let x ← value whole ((2 * k + 1) :: path) x
    let ps ← valuePairs whole path (k + 1) ps
    return (key, x) :: ps

end

/-- `loads`: what follows the item is not looked at. -/
def read (b : Octets) : Option Item :=
  match Cbor.decode b with
  | some (i, _) => host.value i [] i
  | none => none

/-! ## Writing -/

/-- The octets of a natural number without leading zeros. -/
def natOctets (n : ℕ) : Octets := Octets.ofNat ((Nat.size n + 7) / 8) n

/-- An integer, as a big number where it has to be. -/
def intItem (n : ℤ) : Item :=
  if 2 ^ 64 ≤ n then .tag 2 (.bytes (natOctets n.toNat))
  else if n < -2 ^ 64 then .tag 3 (.bytes (natOctets (-1 - n).toNat))
  else .int n

mutual

/-- The item a value is written as. -/
def item : Item → Item
  | .int n => intItem n
  | .array xs => .array (itemList xs)
  | .map ps => .map (itemPairs ps)
  | .tag n x => .tag n (item x)
  | .foreign k => host.content k
  | i => i

def itemList : List Item → List Item
  | [] => []
  | x :: xs => item x :: itemList xs

def itemPairs : List (Item × Item) → List (Item × Item)
  | [] => []
  | (k, v) :: ps => (item k, item v) :: itemPairs ps

end

/-- The item `dumps` writes for a value: every finite float is a double. -/
def wire (v : Item) : Item := (host.item v).mapFloat doubleFloat

/-- `dumps` -/
def write (v : Item) : Octets := encode (host.wire v)

/-- `dumps(canonical=True)`: every float is as short as it can be. -/
def writeCanonical (v : Item) : Octets := encode ((host.item v).mapFloat shortFloat).canonical

/-- How many octets the shortest encoding of a value has. -/
def octets (v : Item) : ℕ := (encode ((host.item v).mapFloat shortFloat)).length

/-! ## Values -/

mutual

/-- A value that is read back from what is written for it: the keys of a dictionary are pairwise
different, and a tag or a value without an item of its own comes back as it was. -/
def Fixed : Item → Prop
  | .array xs => FixedList xs
  | .map ps => (ps.map Prod.fst).Pairwise (fun k l => host.keyEq k l = false) ∧ FixedPairs ps
  | .tag n x => n < 2 ^ 64 ∧ Fixed x ∧ ∀ whole path, host.untag whole path n x = some (.tag n x)
  | .float w bits => w = 8 ∧ IsDouble bits
  | .simple n => n < 20 ∨ n = 23 ∨ 32 ≤ n ∧ n < 256
  | .foreign k =>
    (host.wire (.foreign k)).Encodable ∧
      ∀ whole path, host.value whole path (host.wire (.foreign k)) = some (.foreign k)
  | _ => True

/-- Every member is such a value. -/
def FixedList : List Item → Prop
  | [] => True
  | x :: xs => Fixed x ∧ FixedList xs

/-- Every key and value is such a value. -/
def FixedPairs : List (Item × Item) → Prop
  | [] => True
  | (k, v) :: ps => Fixed k ∧ Fixed v ∧ FixedPairs ps

end

mutual

/-- A value that a caller puts together: integers, floats, strings, bytes, booleans, `None`, and
lists and dictionaries of these to any depth. A NaN is one value. -/
def PlainValue : Item → Prop
  | .int _ => True
  | .bytes _ => True
  | .text _ => True
  | .array xs => PlainValueList xs
  | .map ps => (ps.map Prod.fst).Pairwise (fun k l => host.keyEq k l = false) ∧ PlainValuePairs ps
  | .bool _ => True
  | .null => True
  | .float w bits => w = 8 ∧ IsDouble bits
  | _ => False

/-- Every member is such a value. -/
def PlainValueList : List Item → Prop
  | [] => True
  | x :: xs => PlainValue x ∧ PlainValueList xs

/-- Every key and value is such a value. -/
def PlainValuePairs : List (Item × Item) → Prop
  | [] => True
  | (k, v) :: ps => PlainValue k ∧ PlainValue v ∧ PlainValuePairs ps

end

end Host

/-- A `cbor2` that decodes and encodes the values of `host`. Octets it does not decode, or decodes
to a value it cannot encode, are the ones `host.read` has no value for. -/
structure Cbor2.Follows (cbor2 : Cbor2) (host : Host) : Prop where
  decode_of_read : ∀ {b v}, host.read b = some v → ∃ rest, cbor2.decode b = .ok (v, rest)
  dumpsCanonical_of_none : ∀ {b v rest}, host.read b = none → cbor2.decode b = .ok (v, rest) →
    ∃ e, cbor2.dumpsCanonical v = .error e
  dumpsCanonical_eq : ∀ {b v}, host.read b = some v →
    cbor2.dumpsCanonical v = .ok (host.writeCanonical v)
  dumps_eq : ∀ v, cbor2.dumps v = host.write v

namespace Host

variable {host : Host}

/-! ## Dictionaries -/

theorem put_of_forall {d : Dict} {key value : Item}
    (h : ∀ k ∈ d.map Prod.fst, host.keyEq k key = false) :
    host.put d key value = d ++ [(key, value)] := by
  induction d with
  | nil => rfl
  | cons p d ih =>
      obtain ⟨k, v⟩ := p
      have hk := h k (by simp)
      rw [put, if_neg (by simp [hk]), ih fun l hl => h l (by simp_all)]
      rfl

/-- Pairs with different keys are a dictionary. -/
theorem dict_of_pairwise {ps : Dict}
    (h : (ps.map Prod.fst).Pairwise fun k l => host.keyEq k l = false) : host.dict ps = ps := by
  have hrun : ∀ (qs d : Dict), d ++ qs = ps →
      qs.foldl (fun d p => host.put d p.1 p.2) d = d ++ qs := by
    intro qs
    induction qs with
    | nil => intro d _; simp
    | cons q qs ih =>
        intro d hd
        have hnew : ∀ k ∈ d.map Prod.fst, host.keyEq k q.1 = false := by
          rw [← hd, List.map_append, List.pairwise_append] at h
          exact fun k hk => h.2.2 k hk q.1 (by simp)
        rw [List.foldl_cons, put_of_forall hnew, ih (d ++ [(q.1, q.2)]) (by simpa using hd)]
        simp
  exact hrun ps [] rfl

theorem keyEq_int (host : Host) (m n : ℤ) : host.keyEq (.int m) (.int n) = decide (m = n) := by
  rw [host.keyEq_of_isKey (k := .int m) (l := .int n) trivial trivial]
  simp

@[simp] theorem get_nil (key : Item) : host.get [] key = none := rfl

theorem get_cons_of_eq {k v key : Item} {d : Dict} (h : host.keyEq k key = true) :
    host.get ((k, v) :: d) key = some v := by
  simp [get, h]

theorem get_cons_of_ne {k v key : Item} {d : Dict} (h : host.keyEq k key = false) :
    host.get ((k, v) :: d) key = host.get d key := by
  simp [get, h]

theorem mem_of_get {d : Dict} {key value : Item} (h : host.get d key = some value) :
    ∃ k, (k, value) ∈ d := by
  simp only [get, Option.map_eq_some_iff] at h
  obtain ⟨p, hp, rfl⟩ := h
  exact ⟨p.1, List.mem_of_find?_eq_some hp⟩

/-- `d[key] = value` leaves the other keys. -/
theorem mem_put {d : Dict} {key value : Item} {p : Item × Item} (h : p ∈ host.put d key value) :
    p ∈ d ∨ p.2 = value ∧ (p.1 = key ∨ p.1 ∈ d.map Prod.fst) := by
  induction d with
  | nil =>
      obtain rfl := List.mem_singleton.mp h
      exact .inr ⟨rfl, .inl rfl⟩
  | cons q d ih =>
      obtain ⟨k, v⟩ := q
      rw [put] at h
      split_ifs at h with hk
      · obtain rfl | h := List.mem_cons.mp h
        · exact .inr ⟨rfl, .inr (by simp)⟩
        · exact .inl (by simp [h])
      · obtain rfl | h := List.mem_cons.mp h
        · exact .inl (by simp)
        · obtain h | ⟨hv, h | h⟩ := ih h
          · exact .inl (by simp [h])
          · exact .inr ⟨hv, .inl h⟩
          · exact .inr ⟨hv, .inr (by simp_all)⟩

/-- The keys of a dictionary after `d[key] = value`. -/
theorem keys_put (d : Dict) (key value : Item) :
    (host.put d key value).map Prod.fst =
      if ∃ k ∈ d.map Prod.fst, host.keyEq k key = true then d.map Prod.fst
      else d.map Prod.fst ++ [key] := by
  induction d with
  | nil => simp [put]
  | cons q d ih =>
      obtain ⟨k, v⟩ := q
      rw [put]
      by_cases hk : host.keyEq k key = true
      · rw [if_pos hk, if_pos ⟨k, by simp, hk⟩]
        rfl
      · rw [if_neg hk, List.map_cons, ih]
        by_cases hd : ∃ k ∈ d.map Prod.fst, host.keyEq k key = true
        · obtain ⟨l, hl, hlkey⟩ := hd
          rw [if_pos ⟨l, hl, hlkey⟩, if_pos ⟨l, by simp [hl], hlkey⟩]
          rfl
        · rw [if_neg hd, if_neg]
          · rfl
          · rintro ⟨l, hl, hlkey⟩
            obtain rfl | hl := List.mem_cons.mp hl
            · exact hk hlkey
            · exact hd ⟨l, hl, hlkey⟩

/-- The keys stay pairwise different. -/
theorem pairwise_put {d : Dict} {key value : Item}
    (h : (d.map Prod.fst).Pairwise fun k l => host.keyEq k l = false) :
    ((host.put d key value).map Prod.fst).Pairwise fun k l => host.keyEq k l = false := by
  rw [keys_put]
  split_ifs with hkey
  · exact h
  · refine List.pairwise_append.mpr ⟨h, List.pairwise_singleton _ _, fun k hk l hl => ?_⟩
    obtain rfl := List.mem_singleton.mp hl
    exact Bool.eq_false_iff.mpr fun hkl => hkey ⟨k, hk, hkl⟩

theorem get_put_self {key : Item} (hkey : host.keyEq key key = true) (d : Dict) (value : Item) :
    host.get (host.put d key value) key = some value := by
  induction d with
  | nil => exact get_cons_of_eq hkey
  | cons q d ih =>
      obtain ⟨k, v⟩ := q
      rw [put]
      split_ifs with hk
      · exact get_cons_of_eq hk
      · rw [get_cons_of_ne (Bool.eq_false_iff.mpr hk), ih]

/-- Setting a key twice is setting it once. -/
theorem put_put {key : Item} (hkey : host.keyEq key key = true) (d : Dict) (v w : Item) :
    host.put (host.put d key v) key w = host.put d key w := by
  induction d with
  | nil => simp [put, hkey]
  | cons q d ih =>
      obtain ⟨k, u⟩ := q
      by_cases hk : host.keyEq k key = true
      · simp [put, hk]
      · simp [put, hk, ih]

theorem others_put {key : Item} (hkey : host.keyEq key key = true) (d : Dict) (value : Item) :
    host.others (host.put d key value) key = host.others d key := by
  induction d with
  | nil => simp [put, others, hkey]
  | cons q d ih =>
      obtain ⟨k, v⟩ := q
      rw [others] at ih
      by_cases hk : host.keyEq k key = true
      · simp [put, others, hk]
      · simp [put, others, hk, ih]

/-! ## Reading back what is written -/

theorem untag_of_ne {n : ℕ} (h2 : n ≠ 2) (h3 : n ≠ 3) (whole : Item) (path : List ℕ) (x : Item) :
    host.untag whole path n x = host.tagged whole path n x := by
  unfold untag
  split <;> first | contradiction | rfl

theorem lt_natOctets (n : ℕ) : n < 256 ^ ((Nat.size n + 7) / 8) := by
  calc n < 2 ^ Nat.size n := Nat.lt_size_self n
    _ ≤ 2 ^ (8 * ((Nat.size n + 7) / 8)) := Nat.pow_le_pow_right (by omega) (by omega)
    _ = 256 ^ ((Nat.size n + 7) / 8) := by rw [pow_mul]; rfl

/-- An integer of any size is read back. -/
theorem value_intItem (n : ℤ) (whole : Item) (path : List ℕ) :
    host.value whole path ((intItem n).mapFloat doubleFloat) = some (.int n) := by
  unfold intItem
  split_ifs with hbig hsmall
  · have hn : (Octets.toNat (natOctets n.toNat) : ℤ) = n := by
      rw [natOctets, Octets.toNat_ofNat (lt_natOctets _)]
      omega
    simp [Item.mapFloat, value, untag, hn]
  · have hn : -1 - (Octets.toNat (natOctets (-1 - n).toNat) : ℤ) = n := by
      rw [natOctets, Octets.toNat_ofNat (lt_natOctets _)]
      omega
    simp [Item.mapFloat, value, untag, hn]
  · rfl

theorem fixedPairs_iff {ps : Dict} :
    host.FixedPairs ps ↔ ∀ p ∈ ps, host.Fixed p.1 ∧ host.Fixed p.2 := by
  induction ps with
  | nil => simp [FixedPairs]
  | cons p ps ih => obtain ⟨k, v⟩ := p; simp [FixedPairs, ih, and_assoc]

theorem fixedList_iff {xs : List Item} : host.FixedList xs ↔ ∀ x ∈ xs, host.Fixed x := by
  induction xs with
  | nil => simp [FixedList]
  | cons x xs ih => simp [FixedList, ih]

theorem length_itemList (xs : List Item) : (host.itemList xs).length = xs.length := by
  induction xs with
  | nil => rfl
  | cons x xs ih => simp [itemList, ih]

theorem length_itemPairs (ps : Dict) : (host.itemPairs ps).length = ps.length := by
  induction ps with
  | nil => rfl
  | cons p ps ih => obtain ⟨k, v⟩ := p; simp [itemPairs, ih]

theorem fixed_put {d : Dict} {key value : Item} (hd : host.Fixed (.map d)) (hkey : host.Fixed key)
    (hvalue : host.Fixed value) : host.Fixed (.map (host.put d key value)) := by
  have hmem := fixedPairs_iff.mp hd.2
  refine ⟨pairwise_put hd.1, fixedPairs_iff.mpr fun p hp => ?_⟩
  obtain hp | ⟨hval, rfl | hfirst⟩ := mem_put hp
  · exact hmem p hp
  · exact ⟨hkey, hval ▸ hvalue⟩
  · obtain ⟨q, hq, hfirst⟩ := List.mem_map.mp hfirst
    exact ⟨hfirst ▸ (hmem q hq).1, hval ▸ hvalue⟩

/-- The dictionary of pairs that are read back is read back. -/
theorem fixed_dict {ps : Dict} (h : ∀ p ∈ ps, host.Fixed p.1 ∧ host.Fixed p.2) :
    host.Fixed (.map (host.dict ps)) := by
  have hrun : ∀ (qs d : Dict), (∀ q ∈ qs, host.Fixed q.1 ∧ host.Fixed q.2) →
      host.Fixed (.map d) →
      host.Fixed (.map (qs.foldl (fun d p => host.put d p.1 p.2) d)) := by
    intro qs
    induction qs with
    | nil => exact fun d _ hd => hd
    | cons q qs ih =>
        intro d hqs hd
        rw [List.forall_mem_cons] at hqs
        exact ih _ hqs.2 (fixed_put hd hqs.1.1 hqs.1.2)
  exact hrun ps [] h ⟨List.Pairwise.nil, trivial⟩

/-- The item written for a value has that value. -/
theorem value_wire {v : Item} (hv : host.Fixed v) (whole : Item) (path : List ℕ) :
    host.value whole path (host.wire v) = some v := by
  induction v using Item.induction generalizing path with
  | int n => exact value_intItem n whole path
  | array xs ih =>
      have hmem := fixedList_iff.mp hv
      have hlist : ∀ k, host.valueList whole path k (mapFloatList doubleFloat (host.itemList xs)) =
          some xs := by
        clear hv
        induction xs with
        | nil => intro k; rfl
        | cons x xs ihxs =>
            intro k
            have hx := ih x (by simp) (hmem x (by simp)) (k :: path)
            have hxs := ihxs (fun y hy => ih y (by simp [hy])) (fun y hy => hmem y (by simp [hy]))
              (k + 1)
            rw [wire] at hx
            simp [itemList, mapFloatList, valueList, hx, hxs]
      simp [wire, item, Item.mapFloat, value, hlist]
  | map ps ih =>
      have hmem := fixedPairs_iff.mp hv.2
      have hpairs : ∀ k, host.valuePairs whole path k
          (mapFloatPairs doubleFloat (host.itemPairs ps)) = some ps := by
        clear hv
        induction ps with
        | nil => intro k; rfl
        | cons p ps ihps =>
            intro k
            have hk := (ih p (by simp)).1 (hmem p (by simp)).1 ((2 * k) :: path)
            have hx := (ih p (by simp)).2 (hmem p (by simp)).2 ((2 * k + 1) :: path)
            have hps := ihps (fun q hq => ih q (by simp [hq])) (fun q hq => hmem q (by simp [hq]))
              (k + 1)
            rw [wire] at hk hx
            simp [itemPairs, mapFloatPairs, valuePairs, hk, hx, hps]
      simp [wire, item, Item.mapFloat, value, hpairs, dict_of_pairwise hv.1]
  | tag n x ih =>
      have hx := ih hv.2.1 (0 :: path)
      rw [wire] at hx
      simp [wire, item, Item.mapFloat, value, hx, hv.2.2]
  | float w bits =>
      obtain ⟨rfl, hbits⟩ := hv
      obtain ⟨w, b, hdouble, -, hwiden⟩ := exists_doubleFloat hbits
      simp [wire, item, Item.mapFloat, widen_of_isDouble hbits, hdouble, value, hwiden]
  | foreign k => exact hv.2 whole path
  | _ => rfl

/-- The item written for a value is one CBOR can carry, when its octets are few enough to count. -/
theorem encodable_wire {v : Item} (hv : host.Fixed v) (hlen : (host.write v).length < 2 ^ 64) :
    (host.wire v).Encodable := by
  induction v using Item.induction with
  | int n =>
      rw [write] at hlen
      rw [wire, item] at hlen ⊢
      unfold intItem at hlen ⊢
      split_ifs at hlen ⊢ with hbig hsmall
      · refine ⟨by norm_num, ?_⟩
        simp only [Item.mapFloat, encode, List.length_append] at hlen
        exact show (natOctets n.toNat).length < 2 ^ 64 by omega
      · refine ⟨by norm_num, ?_⟩
        simp only [Item.mapFloat, encode, List.length_append] at hlen
        exact show (natOctets (-1 - n).toNat).length < 2 ^ 64 by omega
      · exact show -2 ^ 64 ≤ n ∧ n < 2 ^ 64 by omega
  | bytes b => exact lt_of_le_of_lt (length_le_encode_bytes b) hlen
  | text s => exact lt_of_le_of_lt (length_le_encode_text s) hlen
  | array xs ih =>
      have hmem := fixedList_iff.mp hv
      rw [write, wire, item, Item.mapFloat, encode, List.length_append] at hlen
      have hlist : EncodableList (mapFloatList doubleFloat (host.itemList xs)) ∧
          xs.length ≤ (encodeList (mapFloatList doubleFloat (host.itemList xs))).length := by
        replace hlen : (encodeList (mapFloatList doubleFloat (host.itemList xs))).length < 2 ^ 64 := by
          omega
        clear hv
        induction xs with
        | nil => exact ⟨trivial, le_rfl⟩
        | cons x xs ihxs =>
            simp only [itemList, mapFloatList, encodeList, List.length_append] at hlen ⊢
            have hx := ih x (by simp) (hmem x (by simp)) (by rw [write, wire]; omega)
            obtain ⟨hxs, hcount⟩ := ihxs (fun y hy => ih y (by simp [hy]))
              (fun y hy => hmem y (by simp [hy])) (by omega)
            have := List.length_pos_of_ne_nil (encode_ne_nil hx)
            rw [wire] at this
            exact ⟨⟨hx, hxs⟩, by rw [List.length_cons]; omega⟩
      have hcount : (mapFloatList doubleFloat (host.itemList xs)).length = xs.length := by
        rw [length_mapFloatList, length_itemList]
      exact ⟨by omega, hlist.1⟩
  | map ps ih =>
      have hmem := fixedPairs_iff.mp hv.2
      rw [write, wire, item, Item.mapFloat, encode, List.length_append] at hlen
      have hpairs : EncodablePairs (mapFloatPairs doubleFloat (host.itemPairs ps)) ∧
          ps.length ≤ (encodePairs (mapFloatPairs doubleFloat (host.itemPairs ps))).length := by
        replace hlen :
            (encodePairs (mapFloatPairs doubleFloat (host.itemPairs ps))).length < 2 ^ 64 := by
          omega
        clear hv
        induction ps with
        | nil => exact ⟨trivial, le_rfl⟩
        | cons p ps ihps =>
            simp only [itemPairs, mapFloatPairs, encodePairs, List.length_append] at hlen ⊢
            obtain ⟨hkf, hxf⟩ := hmem p (by simp)
            have hk := (ih p (by simp)).1 hkf (by rw [write, wire]; omega)
            have hx := (ih p (by simp)).2 hxf (by rw [write, wire]; omega)
            obtain ⟨hps, hcount⟩ := ihps (fun q hq => ih q (by simp [hq]))
              (fun q hq => hmem q (by simp [hq])) (by omega)
            have := List.length_pos_of_ne_nil (encode_ne_nil hk)
            rw [wire] at this
            exact ⟨⟨hk, hx, hps⟩, by rw [List.length_cons]; omega⟩
      have hcount : (mapFloatPairs doubleFloat (host.itemPairs ps)).length = ps.length := by
        rw [length_mapFloatPairs, length_itemPairs]
      exact ⟨by omega, hpairs.1⟩
  | tag n x ih =>
      rw [write, wire, item, Item.mapFloat, encode, List.length_append] at hlen
      exact ⟨hv.1, ih hv.2.1 (by rw [write, wire]; omega)⟩
  | float w bits =>
      obtain ⟨rfl, hbits⟩ := hv
      obtain ⟨w, b, hdouble, hencodable, -⟩ := exists_doubleFloat hbits
      have hwire : host.wire (.float 8 bits) = .float w b := by
        simp only [wire, item, Item.mapFloat, widen_of_isDouble hbits, hdouble]
      exact hwire ▸ hencodable
  | simple n => exact hv
  | foreign k => exact hv.1
  | _ => trivial

/-- **A value is read back** from what `dumps` writes for it. -/
theorem read_write {v : Item} (hv : host.Fixed v) (hlen : (host.write v).length < 2 ^ 64) :
    host.read (host.write v) = some v := by
  have hdecode := Cbor.decode_encode (encodable_wire hv hlen) []
  rw [List.append_nil] at hdecode
  rw [read, write, hdecode]
  exact value_wire hv _ []

/-! ## The values of a caller -/

theorem noShortFloat_item_map {ps : Dict} :
    (host.item (.map ps)).NoShortFloat ↔
      ∀ p ∈ ps, (host.item p.1).NoShortFloat ∧ (host.item p.2).NoShortFloat := by
  rw [item, Item.NoShortFloat]
  induction ps with
  | nil => simp [itemPairs, NoShortFloatPairs]
  | cons p ps ih => obtain ⟨k, v⟩ := p; simp [itemPairs, NoShortFloatPairs, ih, and_assoc]

theorem noShortFloat_item_array {xs : List Item} :
    (host.item (.array xs)).NoShortFloat ↔ ∀ x ∈ xs, (host.item x).NoShortFloat := by
  rw [item, Item.NoShortFloat]
  induction xs with
  | nil => simp [itemList, NoShortFloatList]
  | cons x xs ih => simp [itemList, NoShortFloatList, ih]

theorem plainValueList_iff {xs : List Item} :
    host.PlainValueList xs ↔ ∀ x ∈ xs, host.PlainValue x := by
  induction xs with
  | nil => simp [PlainValueList]
  | cons x xs ih => simp [PlainValueList, ih]

theorem plainValuePairs_iff {ps : Dict} :
    host.PlainValuePairs ps ↔ ∀ p ∈ ps, host.PlainValue p.1 ∧ host.PlainValue p.2 := by
  induction ps with
  | nil => simp [PlainValuePairs]
  | cons p ps ih => obtain ⟨k, v⟩ := p; simp [PlainValuePairs, ih, and_assoc]

theorem PlainValue.fixed {v : Item} (hv : host.PlainValue v) : host.Fixed v := by
  induction v using Item.induction with
  | array xs ih =>
      have hmem := plainValueList_iff.mp hv
      exact fixedList_iff.mpr fun x hx => ih x hx (hmem x hx)
  | map ps ih =>
      have hmem := plainValuePairs_iff.mp hv.2
      exact ⟨hv.1, fixedPairs_iff.mpr fun p hp =>
        ⟨(ih p hp).1 (hmem p hp).1, (ih p hp).2 (hmem p hp).2⟩⟩
  | float w bits => exact hv
  | tag n x _ => exact hv.elim
  | simple n => exact hv.elim
  | foreign k => exact hv.elim
  | _ => trivial

/-- The floats of such a value are the floats of the item it is written as. -/
theorem PlainValue.noShortFloat_iff {v : Item} (hv : host.PlainValue v) :
    (host.item v).NoShortFloat ↔ v.NoShortFloat := by
  induction v using Item.induction with
  | int n =>
      rw [item, intItem]
      split_ifs <;> simp [Item.NoShortFloat]
  | array xs ih =>
      have hmem := plainValueList_iff.mp hv
      rw [noShortFloat_item_array, Item.NoShortFloat, noShortFloatList_iff]
      exact forall₂_congr fun x hx => ih x hx (hmem x hx)
  | map ps ih =>
      have hmem := plainValuePairs_iff.mp hv.2
      rw [noShortFloat_item_map, Item.NoShortFloat, noShortFloatPairs_iff]
      exact forall₂_congr fun p hp =>
        and_congr ((ih p hp).1 (hmem p hp).1) ((ih p hp).2 (hmem p hp).2)
  | tag n x _ => exact hv.elim
  | simple n => exact hv.elim
  | foreign k => exact hv.elim
  | _ => rfl

/-! ## The items of the encoding rule -/

/-- An item that any library writes has no float and no big number. -/
theorem mapFloat_item_of_writable {i : Item} (hi : Writable i) (f : ℕ → Item) :
    (host.item i).mapFloat f = i := by
  induction i using Item.induction with
  | int n =>
      obtain ⟨hlo, hhi⟩ := hi
      rw [item, intItem, if_neg (not_le.mpr hhi), if_neg (not_lt.mpr hlo)]
      rfl
  | array xs ih =>
      have hmem := writableList_iff.mp hi
      have hlist : mapFloatList f (host.itemList xs) = xs := by
        clear hi
        induction xs with
        | nil => rfl
        | cons x xs ihxs =>
            rw [itemList, mapFloatList, ih x (by simp) (hmem x (by simp)),
              ihxs (fun y hy => ih y (by simp [hy])) fun y hy => hmem y (by simp [hy])]
      rw [item, Item.mapFloat, hlist]
  | map ps ih =>
      have hmem := writablePairs_iff.mp hi
      have hpairs : mapFloatPairs f (host.itemPairs ps) = ps := by
        clear hi
        induction ps with
        | nil => rfl
        | cons p ps ihps =>
            obtain ⟨hk, hv⟩ := hmem p (by simp)
            rw [itemPairs, mapFloatPairs, (ih p (by simp)).1 hk, (ih p (by simp)).2 hv,
              ihps (fun q hq => ih q (by simp [hq])) fun q hq => hmem q (by simp [hq])]
      rw [item, Item.mapFloat, hpairs]
  | tag n x ih => rw [item, Item.mapFloat, ih hi.2]
  | simple n => exact hi.elim
  | float w bits => exact hi.elim
  | foreign k => exact hi.elim
  | _ => rfl

theorem write_of_writable {i : Item} (hi : Writable i) : host.write i = encode i := by
  rw [write, wire, mapFloat_item_of_writable hi]

theorem writable_of_grammar {i : Item} (hi : Grammar true i) : Writable i := by
  cases i with
  | tag n x => exact ⟨by rw [hi.2.1]; norm_num, writable_of_plain hi.2.2.1⟩
  | _ => exact writable_of_plain hi.1

theorem fixed_of_plain {i : Item} (hi : Plain i) : host.Fixed i := by
  induction i using Item.induction with
  | array xs ih =>
      exact fixedList_iff.mpr fun x hx => ih x hx (EncodingRule.plainList_iff.mp hi.2 x hx)
  | map ps ih =>
      obtain ⟨-, hnodup, hpairs⟩ := hi
      have hmem := EncodingRule.plainPairs_iff.mp hpairs
      refine ⟨?_, fixedPairs_iff.mpr fun p hp =>
        ⟨(ih p hp).1 (hmem p hp).2.1, (ih p hp).2 (hmem p hp).2.2⟩⟩
      have hkey : ∀ k ∈ ps.map Prod.fst, IsKey k := by
        intro k hk
        obtain ⟨p, hp, rfl⟩ := List.mem_map.mp hk
        exact (hmem p hp).1
      exact hnodup.imp_of_mem fun ha hb hne => by
        rw [host.keyEq_of_isKey (hkey _ ha) (hkey _ hb), decide_eq_false hne]
  | tag n x _ => exact hi.elim
  | simple n => exact hi.elim
  | float w bits => exact hi.elim
  | foreign k => exact hi.elim
  | _ => trivial

/-- An item of the rule is read as itself. -/
theorem read_encode {i : Item} (hi : Grammar true i) : host.read (encode i) = some i := by
  have hdecode := Cbor.decode_encode hi.encodable []
  rw [List.append_nil] at hdecode
  have hplain : ∀ {j path}, Plain j → host.value i path j = some j := by
    intro j path hj
    have hj' := @value_wire host _ (fixed_of_plain hj) i path
    rwa [wire, mapFloat_item_of_writable (writable_of_plain hj)] at hj'
  rw [read, hdecode]
  cases i with
  | tag n x =>
      obtain ⟨-, rfl, hx, -⟩ := hi
      simp only [value, hplain hx, Option.bind_eq_bind, Option.bind_some]
      exact host.tagged_sign1 _ _ x
  | _ => exact hplain hi.1

/-- Python as far as plain values go: no two keys of different items are equal, and a tag has no
decoder. -/
def plain : Host where
  keyEq k l := decide (k = l)
  tagged _ _ n x := some (.tag n x)
  content _ := .null
  typeName _ := ""
  truthy _ := true
  keyEq_of_isKey _ _ := rfl
  tagged_sign1 _ _ _ := rfl

/-- What a host without decoders reads is read back from what is written for it. -/
theorem fixed_plain_of_value {whole i v : Item} {path : List ℕ} (hi : i.Sound)
    (h : plain.value whole path i = some v) : plain.Fixed v := by
  induction i using Item.induction generalizing path v with
  | array xs ih =>
      have hmem := soundList_iff.mp hi
      simp only [value, Option.map_eq_some_iff] at h
      obtain ⟨ys, hys, rfl⟩ := h
      refine fixedList_iff.mpr ?_
      clear hi
      have hlist : ∀ k ys, plain.valueList whole path k xs = some ys → ∀ y ∈ ys, plain.Fixed y := by
        clear hys
        induction xs with
        | nil =>
            intro k ys h
            cases h
            simp
        | cons x xs ihxs =>
            intro k ys h
            simp only [valueList, Option.bind_eq_bind, Option.bind_eq_some_iff] at h
            obtain ⟨y, hy, zs, hzs, h⟩ := h
            cases h
            exact List.forall_mem_cons.mpr ⟨ih x (by simp) (hmem x (by simp)) hy,
              ihxs (fun y hy => ih y (by simp [hy])) (fun y hy => hmem y (by simp [hy])) (k + 1) zs
                hzs⟩
      exact hlist 0 ys hys
  | map ps ih =>
      have hmem := soundPairs_iff.mp hi
      simp only [value, Option.map_eq_some_iff] at h
      obtain ⟨qs, hqs, rfl⟩ := h
      clear hi
      have hpairs : ∀ k qs, plain.valuePairs whole path k ps = some qs →
          ∀ q ∈ qs, plain.Fixed q.1 ∧ plain.Fixed q.2 := by
        clear hqs
        induction ps with
        | nil =>
            intro k qs h
            cases h
            simp
        | cons p ps ihps =>
            intro k qs h
            obtain ⟨key, x⟩ := p
            simp only [valuePairs, Option.bind_eq_bind, Option.bind_eq_some_iff] at h
            obtain ⟨l, hl, y, hy, rs, hrs, h⟩ := h
            cases h
            obtain ⟨hkey, hx⟩ := hmem (key, x) (by simp)
            exact List.forall_mem_cons.mpr ⟨⟨(ih (key, x) (by simp)).1 hkey hl,
              (ih (key, x) (by simp)).2 hx hy⟩,
              ihps (fun q hq => ih q (by simp [hq])) (fun q hq => hmem q (by simp [hq])) (k + 1) rs
                hrs⟩
      exact fixed_dict (hpairs 0 qs hqs)
  | tag n x ih =>
      simp only [value, Option.bind_eq_bind, Option.bind_eq_some_iff] at h
      obtain ⟨u, hu, hv⟩ := h
      have hx := ih hi.2 hu
      by_cases h2 : n = 2
      · subst h2
        cases u <;> cases hv
        trivial
      by_cases h3 : n = 3
      · subst h3
        cases u <;> cases hv
        trivial
      · rw [untag_of_ne h2 h3] at hv
        cases hv
        exact ⟨hi.1, hx, fun whole path => by rw [untag_of_ne h2 h3]; rfl⟩
  | float w bits =>
      cases h
      exact ⟨rfl, isDouble_widen hi.1 hi.2⟩
  | simple n =>
      cases h
      exact hi
  | foreign k => exact hi.elim
  | _ =>
      cases h
      trivial

/-- Every value such a host reads is read back from what is written for it. -/
theorem fixed_plain_of_read {b : Octets} {v : Item} (h : plain.read b = some v) : plain.Fixed v := by
  rw [read] at h
  split at h
  · next i rest hdecode => exact fixed_plain_of_value (sound_of_decode hdecode) h
  · cases h

end Host

/-- `cbor2` for the values of a host. -/
def Cbor2.ofHost (host : Host) : Cbor2 where
  decode b := match host.read b with
    | some v => .ok (v, [])
    | none => .error "CBORDecodeError"
  dumps := host.write
  dumpsCanonical v := .ok (host.writeCanonical v)
  decode_encode hi := by rw [Host.read_encode hi]
  dumps_eq hi := Host.write_of_writable hi
  dumpsCanonical_eq hi := by
    rw [Host.writeCanonical, Host.mapFloat_item_of_writable (Host.writable_of_grammar hi)]

theorem Cbor2.ofHost_follows (host : Host) : (Cbor2.ofHost host).Follows host where
  decode_of_read {b v} h := ⟨[], by simp only [ofHost, h]⟩
  dumpsCanonical_of_none {b v rest} h hdecode := by
    simp only [ofHost, h] at hdecode
    cases hdecode
  dumpsCanonical_eq _ := rfl
  dumps_eq _ := rfl

end ScittCose
