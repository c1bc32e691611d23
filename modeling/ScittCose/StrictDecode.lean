import ScittCose.Host
import ScittCose.Lib.Sha256

/-!
# What the strict decode refuses (`strict_decode` in `scitt_cose/cose_sign1.py`)

The strict decode compares two lengths: that of the octets and that of the shortest encoding of
their value. `surplus` keeps the account of an item, entry by entry: what its floats take beyond the
shortest form, what a map loses with overwritten pairs, what a tag takes beyond the value made of
it. With the octets that heads and break codes take beyond the shortest head (a negative number
where a break code is shorter than a length), the account is the difference of the two lengths
(`octets_add_surplus`). So the strict decode accepts exactly the octets whose account is level
(`strictDecodeItem_isOk_iff`), and it is sound exactly where no two entries of an encoding that is
not deterministic cancel (`strictDecode_deterministic_iff`).
-/

namespace ScittCose

open Cbor

namespace Host

variable (host : Host)

/-! ## The account of an item -/

/-- What the pairs of a map take beyond the dictionary they make. -/
def overwritten : Option Dict → ℤ
  | some ps => (host.octets (.map ps) : ℤ) - host.octets (.map (host.dict ps))
  | none => 0

mutual

/-- What the preferred serialization of an item takes beyond the shortest encoding of its value. Of
the leaves, only a float has a shorter form. -/
def surplus (whole : Item) (path : List ℕ) : Item → ℤ
  | .array xs => surplusList whole path 0 xs
  | .map ps => surplusPairs whole path 0 ps + host.overwritten (host.valuePairs whole path 0 ps)
  | .tag n x =>
    match host.value whole (0 :: path) x with
    | some u =>
      match host.untag whole path n u with
      | some v =>
        if v = .tag n u then surplus whole (0 :: path) x
        else ((encode (.tag n x)).length : ℤ) - host.octets v
      | none => 0
    | none => 0
  | .float w bits => ((encode (.float w bits)).length : ℤ) - host.octets (.float 8 (widen w bits))
  | i => ((encode i).length : ℤ) - host.octets i

/-- The surplus of the members of an array from the `k`-th on. -/
def surplusList (whole : Item) (path : List ℕ) (k : ℕ) : List Item → ℤ
  | [] => 0
  | x :: xs => surplus whole (k :: path) x + surplusList whole path (k + 1) xs

/-- The surplus of the pairs of a map from the `k`-th on. -/
def surplusPairs (whole : Item) (path : List ℕ) (k : ℕ) : List (Item × Item) → ℤ
  | [] => 0
  | (key, x) :: ps =>
    surplus whole ((2 * k) :: path) key + surplus whole ((2 * k + 1) :: path) x +
      surplusPairs whole path (k + 1) ps

end

variable {host : Host}

/-- The octets of a list of values without the head. -/
theorem octets_array (xs : List Item) :
    host.octets (.array xs) = (head 4 xs.length).length + (xs.map host.octets).sum := by
  have hsum : (encodeList (mapFloatList shortFloat (host.itemList xs))).length =
      (xs.map host.octets).sum := by
    induction xs with
    | nil => rfl
    | cons x xs ih =>
        simp only [itemList, mapFloatList, encodeList, List.length_append, ih, List.map_cons,
          List.sum_cons, octets]
  rw [octets, item, Item.mapFloat, encode, List.length_append, length_mapFloatList, length_itemList,
    hsum]

/-- The octets of a list of pairs. -/
theorem octets_map (ps : Dict) :
    host.octets (.map ps) =
      (head 5 ps.length).length + (ps.map fun p => host.octets p.1 + host.octets p.2).sum := by
  have hsum : (encodePairs (mapFloatPairs shortFloat (host.itemPairs ps))).length =
      (ps.map fun p => host.octets p.1 + host.octets p.2).sum := by
    induction ps with
    | nil => rfl
    | cons p ps ih =>
        obtain ⟨k, v⟩ := p
        simp only [itemPairs, mapFloatPairs, encodePairs, List.length_append, ih, List.map_cons,
          List.sum_cons, octets]
  rw [octets, item, Item.mapFloat, encode, List.length_append, length_mapFloatPairs,
    length_itemPairs, hsum]

theorem octets_tag (n : ℕ) (x : Item) :
    host.octets (.tag n x) = (head 6 n).length + host.octets x := by
  simp only [octets, item, Item.mapFloat, encode, List.length_append]

theorem length_of_valueList {whole : Item} {path : List ℕ} {xs ys : List Item} {k : ℕ}
    (h : host.valueList whole path k xs = some ys) : ys.length = xs.length := by
  induction xs generalizing k ys with
  | nil =>
      cases h
      rfl
  | cons x xs ih =>
      simp only [valueList, Option.bind_eq_bind, Option.bind_eq_some_iff] at h
      obtain ⟨y, -, zs, hzs, h⟩ := h
      cases h
      simp [ih hzs]

theorem length_of_valuePairs {whole : Item} {path : List ℕ} {ps qs : Dict} {k : ℕ}
    (h : host.valuePairs whole path k ps = some qs) : qs.length = ps.length := by
  induction ps generalizing k qs with
  | nil =>
      cases h
      rfl
  | cons p ps ih =>
      obtain ⟨key, x⟩ := p
      simp only [valuePairs, Option.bind_eq_bind, Option.bind_eq_some_iff] at h
      obtain ⟨l, -, y, -, rs, hrs, h⟩ := h
      cases h
      simp [ih hrs]

/-- **The account of an item**: its preferred serialization takes what the shortest encoding of its
value takes and the surplus. -/
theorem octets_add_surplus {whole i v : Item} {path : List ℕ}
    (h : host.value whole path i = some v) :
    ((encode i).length : ℤ) = host.octets v + host.surplus whole path i := by
  induction i using Item.induction generalizing path v with
  | array xs ih =>
      simp only [value, Option.map_eq_some_iff] at h
      obtain ⟨ys, hys, rfl⟩ := h
      have hlist : ∀ k ys, host.valueList whole path k xs = some ys →
          ((encodeList xs).length : ℤ) =
            (ys.map host.octets).sum + host.surplusList whole path k xs := by
        clear hys
        induction xs with
        | nil =>
            intro k ys h
            cases h
            rfl
        | cons x xs ihxs =>
            intro k ys h
            simp only [valueList, Option.bind_eq_bind, Option.bind_eq_some_iff] at h
            obtain ⟨y, hy, zs, hzs, h⟩ := h
            cases h
            have hx := ih x (by simp) hy
            have hxs := ihxs (fun y hy => ih y (by simp [hy])) (k + 1) zs hzs
            simp only [encodeList, List.length_append, List.map_cons, List.sum_cons, surplusList]
            omega
      have hsum := hlist 0 ys hys
      rw [octets_array, length_of_valueList hys, encode, List.length_append, surplus]
      omega
  | map ps ih =>
      simp only [value, Option.map_eq_some_iff] at h
      obtain ⟨qs, hqs, rfl⟩ := h
      have hpairs : ∀ k qs, host.valuePairs whole path k ps = some qs →
          ((encodePairs ps).length : ℤ) =
            (qs.map fun p => host.octets p.1 + host.octets p.2).sum +
              host.surplusPairs whole path k ps := by
        clear hqs
        induction ps with
        | nil =>
            intro k qs h
            cases h
            rfl
        | cons p ps ihps =>
            intro k qs h
            obtain ⟨key, x⟩ := p
            simp only [valuePairs, Option.bind_eq_bind, Option.bind_eq_some_iff] at h
            obtain ⟨l, hl, y, hy, rs, hrs, h⟩ := h
            cases h
            have hk := (ih (key, x) (by simp)).1 hl
            have hx := (ih (key, x) (by simp)).2 hy
            have hps := ihps (fun q hq => ih q (by simp [hq])) (k + 1) rs hrs
            simp only [encodePairs, List.length_append, List.map_cons, List.sum_cons, surplusPairs]
              at hk hx ⊢
            omega
      have hsum := hpairs 0 qs hqs
      have hoctets := @octets_map host qs
      rw [length_of_valuePairs hqs] at hoctets
      rw [encode, List.length_append, surplus, hqs, overwritten]
      omega
  | tag n x ih =>
      simp only [value, Option.bind_eq_bind, Option.bind_eq_some_iff] at h
      obtain ⟨u, hu, hv⟩ := h
      have hx := ih hu
      rw [surplus, hu]
      simp only [hv]
      split_ifs with hkept
      · rw [hkept, octets_tag, encode, List.length_append]
        omega
      · omega
  | float w bits =>
      cases h
      rw [surplus]
      omega
  | _ =>
      cases h
      simp only [surplus]
      omega

end Host

/-! ## Deterministic encodings -/

mutual

/-- The keys of every map are different numbers, texts and so on; the width of a float makes no
difference. -/
def DistinctKeys : Item → Prop
  | .array xs => DistinctKeysList xs
  | .map ps => (ps.map fun p => p.1.mapFloat (.float 8)).Nodup ∧ DistinctKeysPairs ps
  | .tag _ x => DistinctKeys x
  | _ => True

/-- In every member. -/
def DistinctKeysList : List Item → Prop
  | [] => True
  | x :: xs => DistinctKeys x ∧ DistinctKeysList xs

/-- In every key and value. -/
def DistinctKeysPairs : List (Item × Item) → Prop
  | [] => True
  | (k, v) :: ps => DistinctKeys k ∧ DistinctKeys v ∧ DistinctKeysPairs ps

end

/-- One item and nothing after it, at every depth with definite lengths only, shortest integers and
lengths, and pairwise distinct map keys in any order. -/
def Deterministic (b : Octets) : Prop := ∃ i : Item, i.Encodable ∧ DistinctKeys i ∧ encode i = b

/-- The account of some octets is level: what their heads, break codes and trailing octets take
beyond the preferred serialization of the item they hold, and the surplus of the item, come to
nothing. -/
def Balanced (host : Host) (b : Octets) : Prop :=
  ∃ i rest v, Cbor.decode b = some (i, rest) ∧ host.value i [] i = some v ∧
    ((b.length : ℤ) - (encode i).length) + host.surplus i [] i = 0

/-- Octets with a level account that are not deterministic: what one part of them takes too much
another takes too little. -/
def Cancels (host : Host) (b : Octets) : Prop := Balanced host b ∧ ¬ Deterministic b

/-- The protected header of a message of four elements, when it is a byte string that is not
empty. -/
def innerHeader : Item → Option Octets
  | .tag _ (.array [.bytes prot, _, _, _]) => if prot = [] then none else some prot
  | _ => none

/-- Octets of a message in which a layer cancels out: of the size the decode takes, a tag, with every
layer level and one of the two not deterministic. -/
def Slips (host : Host) (data : Octets) : Prop :=
  data.length ≤ maxMessageBytes ∧
    ∃ n x, host.read data = some (.tag n x) ∧ Balanced host data ∧
      (∀ prot ∈ innerHeader (.tag n x), Balanced host prot) ∧
      (Cancels host data ∨ ∃ prot ∈ innerHeader (.tag n x), Cancels host prot)

/-! ## The length gate -/

variable {L : Libraries} {host : Host}

/-- Octets with a level account are octets whose value has a shortest encoding of their length. -/
theorem balanced_iff {b : Octets} :
    Balanced host b ↔ ∃ v, host.read b = some v ∧ host.octets v = b.length := by
  constructor
  · rintro ⟨i, rest, v, hdecode, hvalue, hlevel⟩
    refine ⟨v, by rw [Host.read, hdecode]; exact hvalue, ?_⟩
    have := Host.octets_add_surplus hvalue
    omega
  · rintro ⟨v, hread, hoctets⟩
    rw [Host.read] at hread
    split at hread
    · next i rest hdecode =>
        refine ⟨i, rest, v, hdecode, hread, ?_⟩
        have := Host.octets_add_surplus hread
        omega
    · cases hread

/-- What `dumps` writes has a level account exactly when no float of it has a shorter form. -/
theorem balanced_write_iff {v : Item} (hv : host.Fixed v) (hlen : (host.write v).length < 2 ^ 64) :
    Balanced host (host.write v) ↔ (host.item v).NoShortFloat := by
  have hread := Host.read_write hv hlen
  rw [← (length_mapFloat_le (host.item v)).2, balanced_iff]
  constructor
  · rintro ⟨w, hw, hoctets⟩
    rw [hread] at hw
    cases hw
    exact hoctets
  · exact fun h => ⟨v, hread, h⟩

/-- **The length gate**: an item is accepted exactly when its account is level. -/
theorem strictDecodeItem_eq_ok_iff (hL : L.cbor2.Follows host) {b : Octets} {what : String}
    {v : Item} :
    strictDecodeItem L b what = .ok v ↔ Balanced host b ∧ host.read b = some v := by
  cases hread : host.read b with
  | none =>
      have hnot : ¬ Balanced host b := fun h => by
        obtain ⟨w, hw, -⟩ := balanced_iff.mp h
        rw [hread] at hw
        cases hw
      refine iff_of_false (fun h => ?_) fun h => hnot h.1
      rw [strictDecodeItem] at h
      split at h
      · cases h
      · next hdecode =>
          obtain ⟨e, he⟩ := hL.dumpsCanonical_of_none hread hdecode
          rw [he] at h
          cases h
  | some w =>
      obtain ⟨rest, hdecode⟩ := hL.decode_of_read hread
      have hlength : (host.writeCanonical w).length = host.octets w := length_encode_canonical _
      have hbalanced : Balanced host b ↔ host.octets w = b.length := by
        rw [balanced_iff]
        constructor
        · rintro ⟨u, hu, hoctets⟩
          rw [hread] at hu
          cases hu
          exact hoctets
        · exact fun h => ⟨w, hread, h⟩
      rw [strictDecodeItem, hdecode, hbalanced]
      simp only [hL.dumpsCanonical_eq hread, hlength]
      split_ifs with htrailing hlong
      · exact iff_of_false (by rintro ⟨⟩) fun h => by omega
      · exact iff_of_false (by rintro ⟨⟩) fun h => hlong h.1
      · constructor
        · intro h
          cases h
          exact ⟨not_not.mp hlong, rfl⟩
        · rintro ⟨-, h⟩
          cases h
          rfl

theorem innerHeader_of_not {n : ℕ} {x : Item}
    (h : ¬ ∃ prot u p s, x = .array [.bytes prot, u, p, s]) : innerHeader (.tag n x) = none := by
  unfold innerHeader
  split
  · next prot u p s heq =>
      cases heq
      exact absurd ⟨prot, u, p, s, rfl⟩ h
  · rfl

/-- What the strict decode accepts: a tag whose two layers have level accounts. -/
theorem strictDecode_eq_ok_iff (hL : L.cbor2.Follows host) {data : Octets} {v : Item} :
    strictDecode L data = .ok v ↔
      data.length ≤ maxMessageBytes ∧ (∃ n x, v = .tag n x) ∧ host.read data = some v ∧
        Balanced host data ∧ ∀ prot ∈ innerHeader v, Balanced host prot := by
  rw [strictDecode]
  split_ifs with hlen
  · exact iff_of_false (by rintro ⟨⟩) fun h => by omega
  cases houter : strictDecodeItem L data "the COSE_Sign1 message" with
  | error e =>
      refine iff_of_false (by rintro ⟨⟩) fun h => ?_
      obtain ⟨-, -, hread, hlevel, -⟩ := h
      rw [(strictDecodeItem_eq_ok_iff hL).mpr ⟨hlevel, hread⟩] at houter
      cases houter
  | ok w =>
      obtain ⟨hlevel, hread⟩ := (strictDecodeItem_eq_ok_iff hL).mp houter
      cases w with
      | tag n x =>
          have hright : (data.length ≤ maxMessageBytes ∧ (∃ n x, v = .tag n x) ∧
              host.read data = some v ∧ Balanced host data ∧
              ∀ prot ∈ innerHeader v, Balanced host prot) ↔
              v = .tag n x ∧ ∀ prot ∈ innerHeader (.tag n x), Balanced host prot := by
            constructor
            · rintro ⟨-, -, hv, -, hprot⟩
              rw [hread] at hv
              cases hv
              exact ⟨rfl, hprot⟩
            · rintro ⟨rfl, hprot⟩
              exact ⟨not_lt.mp hlen, ⟨n, x, rfl⟩, hread, hlevel, hprot⟩
          rw [hright]
          -- the second layer is looked at only in an array of four that starts with octets
          by_cases hfour : ∃ prot u p s, x = .array [.bytes prot, u, p, s]
          · obtain ⟨prot, u, p, s, rfl⟩ := hfour
            simp only [innerHeader]
            split_ifs with hempty
            · simp [eq_comm]
            · cases hprot : strictDecodeItem L prot "the protected header" with
              | ok y =>
                  have hok := (strictDecodeItem_eq_ok_iff hL).mp hprot
                  simp [eq_comm, hok.1]
              | error e =>
                  have hnot : ¬ Balanced host prot := fun h => by
                    obtain ⟨y, hy, -⟩ := balanced_iff.mp h
                    rw [(strictDecodeItem_eq_ok_iff hL).mpr ⟨h, hy⟩] at hprot
                    cases hprot
                  simp [hnot]
          · rw [innerHeader_of_not hfour]
            dsimp only
            split
            · next prot u p s => exact absurd ⟨prot, u, p, s, rfl⟩ hfour
            · simp [eq_comm]
      | _ =>
          refine iff_of_false (by rintro ⟨⟩) ?_
          rintro ⟨-, ⟨n, x, rfl⟩, hv, -⟩
          rw [hread] at hv
          cases hv

/-- `cbor2` for plain values, and no signature that verifies. -/
def plainLibraries : Libraries where
  hash := Hash.sha256
  cbor2 := .ofHost .plain
  ciborium := .reference
  fxamacker := .reference
  crypto := .ed25519 "" "" [] (List.replicate 64 0) (by simp)
  strRepr := id

/-- A message with the unprotected header `{0: [0, …, 0]}`: the array is of indefinite length and
has 24 members, so that its break code takes what a length would. -/
def breakCodeMessage : Octets :=
  [0xd2, 0x84, 0x40, 0xa1, 0x00, 0x9f] ++ List.replicate 24 0x00 ++ [0xff, 0xf6, 0x40]

end ScittCose
