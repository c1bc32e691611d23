import ScittCose.EncodingRule.Grammar

/-!
# The receipt encoding rule: the Python walk (`scitt_cose/_encoding_rule.py`)

`check` walks the octets of one CBOR item. The source's recursion carries `depth` up from 0 and
refuses an item deeper than `MAX_DEPTH`; here `levels` counts down what is left, so
`depth = MAX_DEPTH + 1 - levels`.

`item_sound` and `item_complete` say the walk stops after an item of the grammar in its preferred
serialization and at nothing else.
-/

namespace ScittCose.EncodingRule

open Cbor
open Octets (Spans)

/-- `MAX_DEPTH`: the deepest level an item may sit at; the top item is level 0. -/
def maxDepth : ℕ := 16

/-- `COSE_SIGN1_TAG`. -/
def coseSign1Tag : ℕ := 18

/-- `raise CoseError(f"{what}: ...")`. -/
abbrev refuse {α : Type} (what clause : String) : Except String α := .error s!"{what}: {clause}"

/-- `_WIDTH`: octets of an argument and the smallest value that needs them. -/
def width : ℕ → Option (ℕ × ℕ)
  | 24 => some (1, 24)
  | 25 => some (2, 2 ^ 8)
  | 26 => some (4, 2 ^ 16)
  | 27 => some (8, 2 ^ 32)
  | _ => none

/-- `_head`: read one head at `pos`; the result is `(major, argument, next_pos)`. -/
def head (octets : Octets) (pos : ℕ) (what : String) : Except String (ℕ × ℕ × ℕ) :=
  match octets[pos]? with
  | none => refuse what "truncated CBOR"
  | some initial =>
    let major := initial.toNat / 32
    let info := initial.toNat % 32
    let pos := pos + 1
    if info < 24 then .ok (major, info, pos)
    else if info = 31 then refuse what "an indefinite length"
    else match width info with
      | none => refuse what "a reserved additional-information value"
      | some (width, smallest) =>
        if octets.length < pos + width then refuse what "truncated CBOR"
        else
          let argument := Octets.toNat (octets.slice pos (pos + width))
          -- a float has no shortest-form rule of its own here: every float is refused
          if major ≠ 7 ∧ argument < smallest then
            refuse what "an argument longer than its shortest form"
          else .ok (major, argument, pos + width)

/-- The branch of `_item` for octet and text strings. -/
def string (octets : Octets) (what : String) (major argument pos : ℕ) : Except String ℕ :=
  if octets.length - pos < argument then refuse what "truncated CBOR"
  else
    let stop := pos + argument
    if major = 3 then
      match Utf8.decode (octets.slice pos stop) with
      | none => refuse what "a text string that is not valid UTF-8"
      | some _ => .ok stop
    else .ok stop

/-- The loop over the members of an array: `argument` items one after the other. -/
def items {ε α : Type} (item : α → Except ε α) : ℕ → α → Except ε α
  | 0, pos => .ok pos
  | n + 1, pos => do
    let pos ← item pos
    items item n pos

/-- The loop over the pairs of a map; `keys` is the set of key octets seen so far. -/
def pairs (octets : Octets) (what : String) (item : ℕ → Except String ℕ) :
    ℕ → List Octets → ℕ → Except String ℕ
  | 0, _, pos => .ok pos
  | n + 1, keys, pos =>
    match octets[pos]? with
    | none => refuse what "truncated CBOR"
    | some initial =>
      if initial.toNat / 32 ∉ [0, 1, 3] then
        refuse what "a map key that is not an integer or a text string"
      else do
        let keyStart := pos
        let pos ← item pos
        let key := octets.slice keyStart pos
        if key ∈ keys then refuse what "a repeated map key"
        else
          let pos ← item pos
          pairs octets what item n (key :: keys) pos

/-- `_item`: check the item at `pos` with `levels` levels left; the result is the position after
it. -/
def item (octets : Octets) (what : String) : ℕ → ℕ → Bool → Except String ℕ
  | 0, _, _ => refuse what "an item nested more than 16 levels deep"
  | levels + 1, pos, outerTag => do
    let start := pos
    let (major, argument, pos) ← head octets pos what
    match major with
    | 0 => .ok pos
    | 1 =>
      if 2 ^ 63 ≤ argument then refuse what "an integer below -2^63" else .ok pos
    | 2 | 3 => string octets what major argument pos
    | 4 => items (fun pos => item octets what levels pos false) argument pos
    | 5 => pairs octets what (fun pos => item octets what levels pos false) argument [] pos
    | 6 =>
      -- `depth == 0` is the top item, which has all `MAX_DEPTH + 1` levels left
      if ¬ (outerTag = true ∧ levels = maxDepth ∧ argument = coseSign1Tag) then
        refuse what "a CBOR tag other than the outer tag 18"
      else item octets what levels pos false
    | _ =>
      let info := ((octets[start]?).getD 0).toNat % 32
      if info ∈ [25, 26, 27] then refuse what "a float"
      else if argument ∉ [20, 21, 22] ∨ info = 24 then
        refuse what "a simple value other than false, true and null"
      else .ok pos

/-- `check`: refuse `octets` unless it is one item under the receipt encoding rule; `outerTag`
admits tag 18 on the top item only. -/
def check (octets : Octets) (what : String) (outerTag : Bool) : Except String Unit := do
  let stop ← item octets what (maxDepth + 1) 0 outerTag
  if stop ≠ octets.length then refuse what "trailing octets after the CBOR item" else .ok ()

/-! ## What the walk admits -/

/-- The items the walk admits with `levels` levels left. -/
def Admits (levels : ℕ) (outerTag : Bool) (i : Item) : Prop :=
  i.depth < levels ∧
    (Plain i ∨ outerTag = true ∧ levels = maxDepth + 1 ∧ ∃ x, Plain x ∧ i = .tag coseSign1Tag x)

theorem admits_plain {levels : ℕ} {i : Item} :
    Admits levels false i ↔ i.depth < levels ∧ Plain i := by
  simp [Admits]

theorem admits_top_iff_grammar {outerTag : Bool} {i : Item} :
    Admits (maxDepth + 1) outerTag i ↔ Grammar outerTag i := by
  cases i with
  | tag n x =>
      simp only [Admits, Grammar, Plain, Item.depth, maxDepth, coseSign1Tag, Item.tag.injEq]
      constructor
      · rintro ⟨hd, h | ⟨ht, -, y, hy, rfl, rfl⟩⟩
        · exact h.elim
        · exact ⟨ht, rfl, hy, by omega⟩
      · rintro ⟨ht, rfl, hx, hd⟩
        exact ⟨by omega, .inr ⟨ht, trivial, x, hx, rfl, rfl⟩⟩
  | _ => simp [Admits, Grammar, maxDepth, and_comm, Nat.lt_succ_iff]

/-! ## Heads -/

theorem drop_eq_cons {octets : Octets} {pos : ℕ} {x : UInt8} (h : octets[pos]? = some x) :
    octets.drop pos = x :: octets.drop (pos + 1) := by
  obtain ⟨hlt, rfl⟩ := List.getElem?_eq_some_iff.mp h
  exact List.drop_eq_getElem_cons hlt

theorem getElem?_of_drop_eq_cons {octets rest : Octets} {pos : ℕ} {x : UInt8}
    (h : octets.drop pos = x :: rest) : octets[pos]? = some x := by
  have := congrArg List.head? h
  simpa using this

theorem initial_of_toNat (x : UInt8) : initial (x.toNat / 32) (x.toNat % 32) = x := by
  rw [initial, Nat.div_add_mod']
  exact UInt8.ofNat_toNat

theorem mem_of_width {info w smallest : ℕ} (hw : width info = some (w, smallest)) :
    info ∈ [24, 25, 26, 27] := by
  unfold width at hw
  split at hw <;> simp_all

/-- The shortest head of an argument in the range of its width. -/
theorem head_of_width (major : ℕ) {info w smallest a : ℕ} (hw : width info = some (w, smallest))
    (hlo : smallest ≤ a) (hhi : a < 256 ^ w) :
    Cbor.head major a = initial major info :: Octets.ofNat w a := by
  have hcases : info = 24 ∨ info = 25 ∨ info = 26 ∨ info = 27 := by
    simpa using mem_of_width hw
  rcases hcases with rfl | rfl | rfl | rfl <;>
    simp only [width, Option.some.injEq, Prod.mk.injEq] at hw <;>
    obtain ⟨rfl, rfl⟩ := hw <;> rw [Cbor.head] <;> norm_num at hlo hhi
  · rw [if_neg (by omega), if_pos (by omega)]
  · rw [if_neg (by omega), if_neg (by omega), if_pos (by omega)]
  · rw [if_neg (by omega), if_neg (by omega), if_neg (by omega), if_pos (by omega)]
  · rw [if_neg (by omega), if_neg (by omega), if_neg (by omega), if_neg (by omega)]

/-- The widths of an argument and their ranges. -/
theorem exists_width {a : ℕ} (h24 : 24 ≤ a) (ha : a < 2 ^ 64) :
    ∃ info w smallest, 24 ≤ info ∧ info < 28 ∧ width info = some (w, smallest) ∧ smallest ≤ a ∧
      a < 256 ^ w := by
  by_cases h1 : a < 2 ^ 8
  · exact ⟨24, 1, 24, by omega, by omega, rfl, by omega, by norm_num; omega⟩
  by_cases h2 : a < 2 ^ 16
  · exact ⟨25, 2, 2 ^ 8, by omega, by omega, rfl, by omega, by norm_num; omega⟩
  by_cases h3 : a < 2 ^ 32
  · exact ⟨26, 4, 2 ^ 16, by omega, by omega, rfl, by omega, by norm_num; omega⟩
  · exact ⟨27, 8, 2 ^ 32, by omega, by omega, rfl, by omega, by norm_num; omega⟩

theorem width_le {info w smallest : ℕ} (hw : width info = some (w, smallest)) : w ≤ 8 := by
  unfold width at hw
  split at hw <;> simp_all
  all_goals omega

/-- What `_head` reads is a shortest head, for major type 7 when the argument stands in the initial
octet. -/
theorem head_sound {octets : Octets} {pos pos' major a : ℕ} {what : String}
    (h : head octets pos what = .ok (major, a, pos'))
    (hm : major = 7 → ((octets[pos]?).getD 0).toNat % 32 ∉ [24, 25, 26, 27]) :
    Spans octets pos (Cbor.head major a) pos' ∧ a < 2 ^ 64 := by
  rw [head] at h
  split at h
  · cases h
  rename_i x hx
  have hdrop := drop_eq_cons hx
  have hlt : pos < octets.length := (List.getElem?_eq_some_iff.mp hx).1
  simp only at h
  split_ifs at h with h24 h31
  · -- the argument stands in the initial octet
    simp only [Except.ok.injEq, Prod.mk.injEq] at h
    obtain ⟨rfl, rfl, rfl⟩ := h
    have hhead : Cbor.head (x.toNat / 32) (x.toNat % 32) = [x] := by
      rw [Cbor.head, if_pos h24, initial_of_toNat]
    rw [hhead]
    exact ⟨⟨by simpa using hdrop, rfl, by omega⟩, by omega⟩
  · split at h
    · cases h
    rename_i w smallest hw
    split_ifs at h with hlen hsmall
    simp only [Except.ok.injEq, Prod.mk.injEq] at h
    obtain ⟨rfl, rfl, rfl⟩ := h
    set s := octets.slice (pos + 1) (pos + 1 + w) with hs
    have hslen : s.length = w := by
      simp only [hs, Octets.slice, List.length_take, List.length_drop]
      omega
    have hsplit : octets.drop (pos + 1) = s ++ octets.drop (pos + 1 + w) :=
      Octets.drop_eq_slice_append (by omega)
    have hval := Octets.toNat_lt s
    have hback := Octets.ofNat_toNat s
    rw [hslen] at hval hback
    have hm7 : x.toNat / 32 ≠ 7 := fun h7 => hm h7 (by simpa [hx] using mem_of_width hw)
    have hhead : Cbor.head (x.toNat / 32) (Octets.toNat s) = x :: s := by
      rw [head_of_width _ hw (not_lt.mp fun hlt' => hsmall ⟨hm7, hlt'⟩) hval, hback,
        initial_of_toNat]
    rw [hhead]
    refine ⟨⟨by rw [hdrop, hsplit]; rfl, by simp [hslen]; omega, by omega⟩, ?_⟩
    calc Octets.toNat s < 256 ^ w := hval
      _ ≤ 256 ^ 8 := Nat.pow_le_pow_right (by norm_num) (width_le hw)
      _ = 2 ^ 64 := by norm_num

theorem head_lt {octets : Octets} {pos pos' major a : ℕ} {what : String}
    (h : head octets pos what = .ok (major, a, pos')) : pos < octets.length := by
  rw [head] at h
  split at h
  · cases h
  · exact (List.getElem?_eq_some_iff.mp ‹_›).1

theorem head_major_lt {octets : Octets} {pos pos' major a : ℕ} {what : String}
    (h : head octets pos what = .ok (major, a, pos')) : major < 8 := by
  rw [head] at h
  split at h
  · cases h
  rename_i x hx
  have := x.toNat_lt
  simp only at h
  split_ifs at h
  · simp only [Except.ok.injEq, Prod.mk.injEq] at h
    omega
  · split at h
    · cases h
    split_ifs at h
    simp only [Except.ok.injEq, Prod.mk.injEq] at h
    omega

/-- `_head` reads every shortest head. -/
theorem head_complete {octets : Octets} {pos pos' major a : ℕ} (what : String)
    (h : Spans octets pos (Cbor.head major a) pos') (hm : major < 8) (ha : a < 2 ^ 64) :
    head octets pos what = .ok (major, a, pos') := by
  have hle := h.stop_le
  rw [h.stop_eq] at hle ⊢
  replace h := h.drop_eq
  generalize octets.drop pos' = rest at h
  by_cases h24 : a < 24
  · have hhead : Cbor.head major a = [initial major a] := by rw [Cbor.head, if_pos h24]
    have hx := toNat_initial hm (show a < 32 by omega)
    have hget := getElem?_of_drop_eq_cons (by rw [h, hhead]; rfl : _ = initial major a :: rest)
    rw [head, hget]
    have hdiv : (initial major a).toNat / 32 = major := by omega
    have hmod : (initial major a).toNat % 32 = a := by omega
    simp [hdiv, hmod, h24, hhead]
  · obtain ⟨info, w, smallest, hi, hi', hw, hlo, hhi⟩ := exists_width (by omega) ha
    have hhead := head_of_width major hw hlo hhi
    have hx := toNat_initial hm (show info < 32 by omega)
    have hdiv : (initial major info).toNat / 32 = major := by omega
    have hmod : (initial major info).toNat % 32 = info := by omega
    have hcons : octets.drop pos = initial major info :: (Octets.ofNat w a ++ rest) := by
      rw [h, hhead]; rfl
    have hget := getElem?_of_drop_eq_cons hcons
    have htail : octets.drop (pos + 1) = Octets.ofNat w a ++ rest := by
      have := drop_eq_cons hget
      rw [hcons] at this
      exact (List.cons.inj this).2.symm
    rw [hhead, List.length_cons, Octets.length_ofNat] at hle
    have hslice : octets.slice (pos + 1) (pos + 1 + w) = Octets.ofNat w a := by
      have := Octets.slice_eq_of_drop_eq_append htail
      rwa [Octets.length_ofNat] at this
    rw [head, hget]
    simp only [hdiv, hmod, hw, hslice, Octets.toNat_ofNat hhi]
    rw [if_neg (by omega), if_neg (by omega), if_neg (by omega), if_neg (by omega), hhead]
    simp only [Except.ok.injEq, Prod.mk.injEq, List.length_cons, Octets.length_ofNat, true_and]
    omega

/-! ## Strings -/

theorem string_sound {octets : Octets} {what : String} {major a pos pos' : ℕ}
    (hpos : pos ≤ octets.length) (h : string octets what major a pos = .ok pos') :
    ∃ b : Octets, b.length = a ∧ Spans octets pos b pos' ∧
      (major = 3 → ∃ t, Utf8.encode t = b) := by
  rw [string] at h
  dsimp only at h
  split_ifs at h with hshort h3
  · have hs : Spans octets pos (octets.slice pos (pos + a)) (pos + a) :=
      Spans.slice (Nat.le_add_right pos a) (by omega)
    split at h
    · cases h
    rename_i t ht
    obtain rfl : pos + a = pos' := by simpa using h
    exact ⟨_, hs.length_eq, hs, fun _ => ⟨t, Utf8.decode_eq_some_iff.mp ht⟩⟩
  · have hs : Spans octets pos (octets.slice pos (pos + a)) (pos + a) :=
      Spans.slice (Nat.le_add_right pos a) (by omega)
    obtain rfl : pos + a = pos' := by simpa using h
    exact ⟨_, hs.length_eq, hs, fun h => absurd h h3⟩

theorem string_complete {octets b : Octets} (what : String) {major pos pos' : ℕ}
    (htext : major = 3 → ∃ t, Utf8.encode t = b) (h : Spans octets pos b pos') :
    string octets what major b.length pos = .ok pos' := by
  have hle := h.stop_le
  have heq := h.stop_eq
  rw [string, if_neg (by omega)]
  by_cases h3 : major = 3
  · obtain ⟨t, rfl⟩ := htext h3
    simp only [if_pos h3, ← heq, h.slice_eq, Utf8.decode_encode]
  · simp only [if_neg h3, heq]

/-! ## Loops -/

section Loops

variable {octets : Octets} {what : String} {f : ℕ → Except String ℕ}

/-- The walk `f` stops only after an item satisfying `P`. -/
def SoundWalk (octets : Octets) (f : ℕ → Except String ℕ) (P : Item → Prop) : Prop :=
  ∀ pos pos', f pos = .ok pos' → ∃ i, P i ∧ Spans octets pos (encode i) pos'

/-- The walk `f` stops after every item satisfying `P`. -/
def CompleteWalk (octets : Octets) (f : ℕ → Except String ℕ) (P : Item → Prop) : Prop :=
  ∀ i pos pos', P i → Spans octets pos (encode i) pos' → f pos = .ok pos'

theorem items_sound {P : Item → Prop} (hf : SoundWalk octets f P) {n pos pos' : ℕ}
    (hpos : pos ≤ octets.length) (h : items f n pos = .ok pos') :
    ∃ xs : List Item, xs.length = n ∧ (∀ x ∈ xs, P x) ∧ Spans octets pos (encodeList xs) pos' := by
  induction n generalizing pos with
  | zero =>
      obtain rfl : pos = pos' := by simpa [items] using h
      exact ⟨[], rfl, by simp, .nil hpos⟩
  | succ n ih =>
      rw [items] at h
      cases hp : f pos with
      | error e => rw [hp] at h; cases h
      | ok mid =>
          rw [hp] at h
          obtain ⟨x, hx, hspan⟩ := hf _ _ hp
          obtain ⟨xs, hlen, hxs, hrest⟩ := ih hspan.stop_le h
          exact ⟨x :: xs, by simp [hlen], by simpa using ⟨hx, hxs⟩, hspan.append hrest⟩

theorem items_complete {P : Item → Prop} (hf : CompleteWalk octets f P) {xs : List Item}
    {pos pos' : ℕ} (hxs : ∀ x ∈ xs, P x) (h : Spans octets pos (encodeList xs) pos') :
    items f xs.length pos = .ok pos' := by
  induction xs generalizing pos with
  | nil =>
      have := h.stop_eq
      simp only [encodeList, List.length_nil, Nat.add_zero] at this
      rw [this]
      rfl
  | cons x xs ih =>
      obtain ⟨hx, hrest⟩ := h.split
      rw [List.length_cons, items, hf x _ _ (hxs x (by simp)) hx]
      exact ih (fun y hy => hxs y (by simp [hy])) hrest

/-- The key set of the loop holds the octets of the keys seen so far, so a key passes when it is
none of them. -/
theorem pairs_sound {P : Item → Prop} (hP : ∀ i, P i → Plain i) (hf : SoundWalk octets f P)
    {n pos pos' : ℕ} (seen : List Item) (hpos : pos ≤ octets.length)
    (h : pairs octets what f n (seen.map encode) pos = .ok pos') :
    ∃ ps : List (Item × Item), ps.length = n ∧
      (∀ p ∈ ps, IsKey p.1 ∧ P p.1 ∧ P p.2 ∧ p.1 ∉ seen) ∧ (ps.map Prod.fst).Nodup ∧
      Spans octets pos (encodePairs ps) pos' := by
  induction n generalizing pos seen with
  | zero =>
      obtain rfl : pos = pos' := by simpa [pairs] using h
      exact ⟨[], rfl, by simp, by simp, .nil hpos⟩
  | succ n ih =>
      rw [pairs] at h
      split at h
      · cases h
      rename_i x hx
      split_ifs at h with hmaj
      cases hk : f pos with
      | error e => rw [hk] at h; cases h
      | ok mid =>
          rw [hk] at h
          obtain ⟨k, hkP, hkspan⟩ := hf _ _ hk
          change (if octets.slice pos mid ∈ seen.map encode then _ else _) = _ at h
          split_ifs at h with hmem
          rw [hkspan.slice_eq] at h hmem
          cases hv : f mid with
          | error e => rw [hv] at h; cases h
          | ok stop =>
              rw [hv] at h
              obtain ⟨v, hvP, hvspan⟩ := hf _ _ hv
              obtain ⟨ps, hlen, hps, hnodup, hrest⟩ :=
                ih (k :: seen) hvspan.stop_le h
              have hkey : IsKey k := by
                obtain ⟨y, t, hy, hym⟩ := encode_eq_cons (hP k hkP)
                have hxy : x = y := by
                  have := drop_eq_cons hx
                  rw [hkspan.drop_eq, hy] at this
                  exact (List.cons.inj this).1.symm
                rw [isKey_iff_majorOf (hP k hkP), ← hym, ← hxy]
                simpa using hmaj
              refine ⟨(k, v) :: ps, by simp [hlen], ?_, ?_, ?_⟩
              · rintro p (_ | ⟨_, hp⟩)
                · exact ⟨hkey, hkP, hvP, fun hin => hmem (List.mem_map_of_mem hin)⟩
                · obtain ⟨h1, h2, h3, h4⟩ := hps p hp
                  exact ⟨h1, h2, h3, fun hin => h4 (List.mem_cons_of_mem _ hin)⟩
              · rw [List.map_cons, List.nodup_cons]
                refine ⟨fun hin => ?_, hnodup⟩
                obtain ⟨p, hp, hpk⟩ := List.mem_map.mp hin
                exact (hps p hp).2.2.2 (by simp [hpk])
              · exact (hkspan.append hvspan).append hrest

theorem pairs_complete {P : Item → Prop} (hP : ∀ i, P i → Plain i)
    (hf : CompleteWalk octets f P) {ps : List (Item × Item)} {pos pos' : ℕ} (seen : List Item)
    (hseen : ∀ i ∈ seen, P i) (hps : ∀ p ∈ ps, IsKey p.1 ∧ P p.1 ∧ P p.2 ∧ p.1 ∉ seen)
    (hnodup : (ps.map Prod.fst).Nodup) (h : Spans octets pos (encodePairs ps) pos') :
    pairs octets what f ps.length (seen.map encode) pos = .ok pos' := by
  induction ps generalizing pos seen with
  | nil =>
      have := h.stop_eq
      simp only [encodePairs, List.length_nil, Nat.add_zero] at this
      rw [this]
      rfl
  | cons p ps ih =>
      obtain ⟨k, v⟩ := p
      obtain ⟨hkey, hkP, hvP, hfresh⟩ := hps (k, v) (by simp)
      obtain ⟨hkv, hrest⟩ := h.split
      obtain ⟨hk, hv⟩ := hkv.split
      obtain ⟨x, t, hx, hmaj⟩ := encode_eq_cons (hP k hkP)
      have hget : octets[pos]? = some x :=
        getElem?_of_drop_eq_cons (show _ = x :: (t ++ _) by rw [hk.drop_eq, hx]; rfl)
      have hx3 : x.toNat / 32 ∈ [0, 1, 3] := hmaj ▸ (isKey_iff_majorOf (hP k hkP)).mp hkey
      have hnew : encode k ∉ seen.map encode := by
        intro hin
        obtain ⟨j, hj, hjk⟩ := List.mem_map.mp hin
        have := encode_inj (hP j (hseen j hj)).encodable (hP k hkP).encodable hjk
        exact hfresh (this ▸ hj)
      rw [List.map_cons, List.nodup_cons] at hnodup
      rw [List.length_cons, pairs, hget]
      simp only [not_not.mpr hx3, if_false, hf k _ _ hkP hk, bind, Except.bind,
        hk.slice_eq, if_neg hnew, hf v _ _ hvP hv]
      refine ih (k :: seen) (by simpa using ⟨hkP, hseen⟩) (fun q hq => ?_) hnodup.2 hrest
      obtain ⟨h1, h2, h3, h4⟩ := hps q (by simp [hq])
      refine ⟨h1, h2, h3, ?_⟩
      rintro (_ | ⟨_, hin⟩)
      · exact hnodup.1 (List.mem_map.mpr ⟨q, hq, rfl⟩)
      · exact h4 hin

end Loops

/-! ## The walk decides the grammar -/

/-- The walk stops after `false`, `true` and `null`. -/
theorem simple_complete {octets : Octets} (what : String) {levels n : ℕ} {outerTag : Bool}
    {pos pos' : ℕ} (hn : n ∈ [20, 21, 22]) (h : Spans octets pos (Cbor.head 7 n) pos') :
    item octets what (levels + 1) pos outerTag = .ok pos' := by
  have hn' : 20 ≤ n ∧ n ≤ 22 := by simp at hn; omega
  have hhead : Cbor.head 7 n = [initial 7 n] := by rw [Cbor.head, if_pos (by omega)]
  have hget : octets[pos]? = some (initial 7 n) :=
    getElem?_of_drop_eq_cons (by rw [h.drop_eq, hhead]; rfl)
  have hinfo : (initial 7 n).toNat % 32 = n := by
    have := toNat_initial (show 7 < 8 by norm_num) (show n < 32 by omega)
    omega
  rw [item, head_complete what h (by norm_num) (by omega)]
  simp only [bind, Except.bind, hget, Option.getD_some, hinfo]
  rw [if_neg (by simp; omega), if_neg (by simp at hn ⊢; omega)]

/-- Where the walk stops after `pos`, an item it admits ends, in its preferred serialization. -/
theorem item_sound {octets : Octets} {what : String} {levels : ℕ} {outerTag : Bool}
    {pos pos' : ℕ} (h : item octets what levels pos outerTag = .ok pos') :
    ∃ i, Admits levels outerTag i ∧ Spans octets pos (encode i) pos' := by
  induction levels generalizing pos pos' outerTag with
  | zero => cases h
  | succ levels ih =>
      have below : SoundWalk octets (fun pos => item octets what levels pos false)
          (fun i => i.depth < levels ∧ Plain i) := by
        intro pos pos' h
        obtain ⟨i, hi, hspan⟩ := ih h
        exact ⟨i, admits_plain.mp hi, hspan⟩
      rw [item] at h
      cases hh : head octets pos what with
      | error e => rw [hh] at h; cases h
      | ok r =>
          obtain ⟨major, a, mid⟩ := r
          rw [hh] at h
          have hlt := head_major_lt hh
          simp only [bind, Except.bind] at h
          interval_cases major
          · -- unsigned integer
            obtain rfl : mid = pos' := by simpa using h
            obtain ⟨hspan, ha⟩ := head_sound hh (by simp)
            refine ⟨.int a, ⟨by simp [Item.depth], .inl ⟨by omega, by omega⟩⟩, ?_⟩
            simpa [encode] using hspan
          · -- negative integer
            obtain ⟨hspan, ha⟩ := head_sound hh (by simp)
            change ite _ _ _ = _ at h
            split_ifs at h with hneg
            obtain rfl : mid = pos' := by simpa using h
            refine ⟨.int (-1 - a), ⟨by simp [Item.depth], .inl ⟨by omega, by omega⟩⟩, ?_⟩
            have hback : (-1 - (-1 - (a : ℤ))).toNat = a := by omega
            rwa [encode, if_neg (by omega), hback]
          · -- octet string
            obtain ⟨hspan, ha⟩ := head_sound hh (by simp)
            obtain ⟨b, hlen, hb, -⟩ := string_sound hspan.stop_le h
            refine ⟨.bytes b, ⟨by simp [Item.depth], .inl (by simpa [Plain, hlen] using ha)⟩, ?_⟩
            rw [encode, hlen]
            exact hspan.append hb
          · -- text string
            obtain ⟨hspan, ha⟩ := head_sound hh (by simp)
            obtain ⟨_, hlen, hb, htext⟩ := string_sound hspan.stop_le h
            obtain ⟨t, rfl⟩ := htext rfl
            refine ⟨.text t, ⟨by simp [Item.depth], .inl (by simpa [Plain, hlen] using ha)⟩, ?_⟩
            rw [encode, hlen]
            exact hspan.append hb
          · -- array
            obtain ⟨hspan, ha⟩ := head_sound hh (by simp)
            obtain ⟨xs, hlen, hxs, hrest⟩ := items_sound below hspan.stop_le h
            refine ⟨.array xs, ⟨?_, .inl ⟨by omega, plainList_iff.mpr fun x hx => (hxs x hx).2⟩⟩, ?_⟩
            · exact Nat.lt_succ_of_le (depthList_le_iff.mpr fun x hx => (hxs x hx).1)
            · rw [encode, hlen]
              exact hspan.append hrest
          · -- map
            obtain ⟨hspan, ha⟩ := head_sound hh (by simp)
            obtain ⟨ps, hlen, hps, hnodup, hrest⟩ :=
              pairs_sound (fun i hi => hi.2) below [] hspan.stop_le h
            refine ⟨.map ps, ⟨?_, .inl ⟨by omega, hnodup, plainPairs_iff.mpr fun p hp => ?_⟩⟩, ?_⟩
            · exact Nat.lt_succ_of_le (depthPairs_le_iff.mpr fun p hp =>
                ⟨(hps p hp).2.1.1, (hps p hp).2.2.1.1⟩)
            · exact ⟨(hps p hp).1, (hps p hp).2.1.2, (hps p hp).2.2.1.2⟩
            · rw [encode, hlen]
              exact hspan.append hrest
          · -- tag
            obtain ⟨hspan, ha⟩ := head_sound hh (by simp)
            change ite _ _ _ = _ at h
            split_ifs at h with htag
            obtain ⟨i, hi, hrest⟩ := ih h
            obtain ⟨hdepth, hplain⟩ := admits_plain.mp hi
            obtain ⟨hot, hlevels, rfl⟩ := htag
            refine ⟨.tag coseSign1Tag i,
              ⟨by simpa [Item.depth] using hdepth, .inr ⟨hot, by omega, i, hplain, rfl⟩⟩, ?_⟩
            exact hspan.append hrest
          · -- simple value or float
            change ite _ _ (ite _ _ _) = _ at h
            split_ifs at h with hfloat hsimple
            obtain rfl : mid = pos' := by simpa using h
            have hinfo : ((octets[pos]?).getD 0).toNat % 32 ∉ [24, 25, 26, 27] := by
              have h24 := (not_or.mp hsimple).2
              simp only [List.mem_cons, List.not_mem_nil, or_false, not_or] at hfloat ⊢
              exact ⟨h24, hfloat⟩
            obtain ⟨hspan, -⟩ := head_sound hh fun _ => hinfo
            have ha : a = 20 ∨ a = 21 ∨ a = 22 := by
              simp only [not_or, not_not] at hsimple
              simpa using hsimple.1
            rcases ha with rfl | rfl | rfl
            · exact ⟨.bool false, ⟨by simp [Item.depth], .inl trivial⟩, hspan⟩
            · exact ⟨.bool true, ⟨by simp [Item.depth], .inl trivial⟩, hspan⟩
            · exact ⟨.null, ⟨by simp [Item.depth], .inl trivial⟩, hspan⟩

/-- After an item the walk admits, in its preferred serialization, the walk stops. -/
theorem item_complete {octets : Octets} (what : String) {levels : ℕ} {outerTag : Bool}
    {i : Item} {pos pos' : ℕ} (hi : Admits levels outerTag i)
    (h : Spans octets pos (encode i) pos') : item octets what levels pos outerTag = .ok pos' := by
  induction levels generalizing i pos pos' outerTag with
  | zero => exact absurd hi.1 (Nat.not_lt_zero _)
  | succ levels ih =>
      have below : CompleteWalk octets (fun pos => item octets what levels pos false)
          (fun i => i.depth < levels ∧ Plain i) := by
        intro i pos pos' hi h
        exact ih (admits_plain.mpr hi) h
      obtain ⟨hdepth, hplain | ⟨hot, hlevels, x, hx, rfl⟩⟩ := hi
      · cases i with
        | int n =>
            obtain ⟨hlo, hhi⟩ := hplain
            rw [encode] at h
            rw [item]
            split_ifs at h with hn
            · rw [head_complete what h (by norm_num) (by omega)]
              rfl
            · rw [head_complete what h (by norm_num) (by omega)]
              exact if_neg (by omega)
        | bytes b =>
            obtain ⟨hh, hb⟩ := h.split
            rw [item, head_complete what hh (by norm_num) hplain]
            exact string_complete what (by simp) hb
        | text s =>
            obtain ⟨hh, hb⟩ := h.split
            rw [item, head_complete what hh (by norm_num) hplain]
            exact string_complete what (fun _ => ⟨s, rfl⟩) hb
        | array xs =>
            obtain ⟨hh, hb⟩ := h.split
            rw [item, head_complete what hh (by norm_num) hplain.1]
            refine items_complete below (fun x hx => ⟨?_, plainList_iff.mp hplain.2 x hx⟩) hb
            exact depthList_le_iff.mp (Nat.le_of_lt_succ hdepth) x hx
        | map ps =>
            obtain ⟨hh, hb⟩ := h.split
            rw [item, head_complete what hh (by norm_num) hplain.1]
            have hps := plainPairs_iff.mp hplain.2.2
            have hds := depthPairs_le_iff.mp (Nat.le_of_lt_succ hdepth)
            refine pairs_complete (fun i hi => hi.2) below [] (by simp) (fun p hp => ?_)
              hplain.2.1 hb
            exact ⟨(hps p hp).1, ⟨(hds p hp).1, (hps p hp).2.1⟩, ⟨(hds p hp).2, (hps p hp).2.2⟩,
              by simp⟩
        | bool b =>
            cases b
            · exact simple_complete what (n := 20) (by simp) h
            · exact simple_complete what (n := 21) (by simp) h
        | null => exact simple_complete what (n := 22) (by simp) h
        | tag n x => exact hplain.elim
        | simple n => exact hplain.elim
        | float w b => exact hplain.elim
        | foreign k => exact hplain.elim
      · obtain ⟨hh, hb⟩ := h.split
        rw [item, head_complete what hh (by norm_num) (by norm_num [coseSign1Tag])]
        obtain rfl : levels = maxDepth := by omega
        simp only [bind, Except.bind, hot, and_self, not_true_eq_false, if_false]
        exact ih (admits_plain.mpr ⟨by simpa [Item.depth] using hdepth, hx⟩) hb

/-- `check` accepts the preferred serializations of the items of the grammar. -/
theorem check_ok_iff {octets : Octets} {what : String} {outerTag : Bool} :
    check octets what outerTag = .ok () ↔ ∃ i, Grammar outerTag i ∧ encode i = octets := by
  constructor
  · intro h
    rw [check] at h
    cases hi : item octets what (maxDepth + 1) 0 outerTag with
    | error e => rw [hi] at h; cases h
    | ok stop =>
        rw [hi] at h
        simp only [bind, Except.bind] at h
        split_ifs at h with hstop
        obtain ⟨i, hadm, hspan⟩ := item_sound hi
        rw [not_not.mp hstop] at hspan
        exact ⟨i, admits_top_iff_grammar.mp hadm, Octets.spans_iff_eq.mp hspan⟩
  · rintro ⟨i, hi, rfl⟩
    have hspan := Octets.spans_iff_eq.mpr (rfl : encode i = encode i)
    rw [check, item_complete what (admits_top_iff_grammar.mpr hi) hspan]
    simp [bind, Except.bind]

/-- Whatever reads an accepted octet string reads the item of the grammar it encodes. -/
theorem decode_of_check_ok {octets : Octets} {what : String} {outerTag : Bool} {i : Item}
    {rest : Octets} (h : check octets what outerTag = .ok ()) (hd : decode octets = some (i, rest)) :
    Grammar outerTag i ∧ encode i = octets ∧ rest = [] := by
  obtain ⟨j, hj, rfl⟩ := check_ok_iff.mp h
  have := decode_encode hj.encodable []
  rw [List.append_nil, hd, Option.some.injEq, Prod.mk.injEq] at this
  obtain ⟨rfl, rfl⟩ := this
  exact ⟨hj, rfl, rfl⟩

/-- The item an octet string encodes under the rule. -/
def read (outerTag : Bool) (octets : Octets) : Option Item :=
  match check octets "" outerTag with
  | .ok () => (decode octets).map Prod.fst
  | .error _ => none

theorem read_eq_some_iff {outerTag : Bool} {octets : Octets} {i : Item} :
    read outerTag octets = some i ↔ Grammar outerTag i ∧ encode i = octets := by
  constructor
  · intro h
    rw [read] at h
    split at h
    · next hok =>
        obtain ⟨⟨j, rest⟩, hd, rfl⟩ := Option.map_eq_some_iff.mp h
        obtain ⟨hj, henc, -⟩ := decode_of_check_ok hok hd
        exact ⟨hj, henc⟩
    · cases h
  · rintro ⟨hi, rfl⟩
    have hok : check (encode i) "" outerTag = .ok () := check_ok_iff.mpr ⟨i, hi, rfl⟩
    have hd := decode_encode hi.encodable []
    rw [List.append_nil] at hd
    rw [read, hok, hd]
    rfl

theorem read_encode {outerTag : Bool} {i : Item} (hi : Grammar outerTag i) :
    read outerTag (encode i) = some i :=
  read_eq_some_iff.mpr ⟨hi, rfl⟩

/-- The check accepts what can be read. -/
theorem check_ok_iff_read {octets : Octets} {what : String} {outerTag : Bool} :
    check octets what outerTag = .ok () ↔ ∃ i, read outerTag octets = some i := by
  simp only [read_eq_some_iff, check_ok_iff]

theorem check_of_read {octets : Octets} {outerTag : Bool} {i : Item}
    (h : read outerTag octets = some i) (what : String) : check octets what outerTag = .ok () :=
  check_ok_iff_read.mpr ⟨i, h⟩

theorem exists_check_error {octets : Octets} {outerTag : Bool} (h : read outerTag octets = none)
    (what : String) : ∃ e, check octets what outerTag = .error e := by
  cases hc : check octets what outerTag with
  | error e => exact ⟨e, rfl⟩
  | ok u =>
      obtain ⟨i, hi⟩ := check_ok_iff_read.mp hc
      rw [h] at hi
      cases hi

/-- The rule decides exactly its grammar, and the encoding is unique: an octet string is accepted
when it is the preferred serialization of an item of the grammar, of one item only, and two accepted
octet strings that a CBOR reader reads as one item are equal. -/
theorem check_decides_grammar (octets : Octets) (what : String) (outerTag : Bool) :
    (check octets what outerTag = .ok () ↔ ∃ i, Grammar outerTag i ∧ encode i = octets) ∧
      (∀ i j, Grammar outerTag i → Grammar outerTag j → encode i = octets → encode j = octets →
        i = j) ∧
      (∀ other otherTag i, check octets what outerTag = .ok () →
        check other what otherTag = .ok () → decode octets = some (i, []) →
        decode other = some (i, []) → octets = other) := by
  refine ⟨check_ok_iff, fun i j hi hj h h' => ?_, fun other otherTag i h h' hd hd' => ?_⟩
  · exact encode_inj hi.encodable hj.encodable (h.trans h'.symm)
  · rw [← (decode_of_check_ok h hd).2.1, ← (decode_of_check_ok h' hd').2.1]

/-- `{1: [-1, "a"], "b": null}` under tag 18. -/
theorem check_decides_grammar_tagged_map :
    let octets : Octets := [0xd2, 0xa2, 0x01, 0x82, 0x20, 0x61, 0x61, 0x61, 0x62, 0xf6]
    (∃ i, Grammar true i ∧ encode i = octets) ∧ octets = octets := by
  intro octets
  have hok : check octets "receipt" true = .ok () := by decide
  have hread : decode octets = some (.tag 18 (.map [(.int 1, .array [.int (-1), .text "a"]),
    (.text "b", .null)]), []) := by decide
  obtain ⟨hiff, -, hunique⟩ := check_decides_grammar octets "receipt" true
  exact ⟨hiff.mp hok, hunique octets true _ hok hok hread hread⟩

end ScittCose.EncodingRule
