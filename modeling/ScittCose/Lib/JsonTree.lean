import ScittCose.Lib.Json

/-!
# JSON values and their canonical renderings

`Json.Tree` is a JSON document as a program holds it: integers are unbounded, a number that is no integer is
the bits of a double, an object is its members. A `Dialect` says how texts and such numbers are written and
what keys are sorted by. Python's `json.dumps` with `sort_keys` escapes everything outside ASCII and sorts by
code point (`Dialect.python`); RFC 8785 writes most characters as they are and sorts by UTF-16 code unit
(`Dialect.jcs`).

The two agree exactly on the values all of whose texts and keys stay below `DEL` (`render_eq_iff`).
-/

namespace Json

/-- A JSON value. -/
inductive Tree where
  | null
  | bool (b : Bool)
  | int (n : ℤ)
  | float (bits : UInt64)
  | str (s : String)
  | arr (items : List Tree)
  | obj (fields : List (String × Tree))

/-- Induction over a value: the items of an array and the members of an object are smaller. -/
@[elab_as_elim]
theorem Tree.induction {motive : Tree → Prop} (null : motive .null) (bool : ∀ b, motive (.bool b))
    (int : ∀ n, motive (.int n)) (float : ∀ bits, motive (.float bits)) (str : ∀ s, motive (.str s))
    (arr : ∀ items, (∀ t ∈ items, motive t) → motive (.arr items))
    (obj : ∀ fields, (∀ f ∈ fields, motive f.2) → motive (.obj fields)) (t : Tree) : motive t :=
  Tree.rec (motive_1 := motive) (motive_2 := fun items => ∀ t ∈ items, motive t)
    (motive_3 := fun fields => ∀ f ∈ fields, motive f.2) (motive_4 := fun f => motive f.2)
    null bool int float str arr obj
    (by simp) (fun _ _ ht hts => by simpa using ⟨ht, hts⟩)
    (by simp) (fun _ _ hf hfs => by
      rintro f (_ | ⟨_, h⟩)
      · exact hf
      · exact hfs f h)
    (fun _ _ hv => hv) t

/-! ## Members -/

/-- A member of an object. -/
def Tree.member? : Tree → String → Option Tree
  | .obj fields, key => fields.lookup key
  | _, _ => none

/-- Down through members of members. -/
def Tree.at? : List String → Tree → Option Tree
  | [], t => some t
  | key :: path, t => (t.member? key).bind (Tree.at? path)

/-- A double that is zero, of either sign. -/
def isZero (bits : UInt64) : Bool := bits == 0 || bits == 0x8000000000000000

/-! ## Rendering -/

/-- How a writer renders texts and numbers that are no integers, and what it sorts keys by. -/
structure Dialect where
  text : String → List Char
  float : UInt64 → List Char
  sortKey : String → List ℕ

/-- Parts with commas between them. -/
def commas (parts : List (List Char)) : List Char := List.intercalate [','] parts

/-- Members by key. -/
def Dialect.sort {α : Type} (d : Dialect) (fields : List (String × α)) : List (String × α) :=
  fields.insertionSort fun f g => d.sortKey f.1 ≤ d.sortKey g.1

mutual

/-- A value without white space, the members of an object by key. -/
def Tree.render (d : Dialect) : Tree → List Char
  | .null => ['n', 'u', 'l', 'l']
  | .bool b => if b then ['t', 'r', 'u', 'e'] else ['f', 'a', 'l', 's', 'e']
  | .int n => decimal n
  | .float bits => d.float bits
  | .str s => d.text s
  | .arr items => '[' :: (commas (renderItems d items) ++ [']'])
  | .obj fields =>
    '{' :: (commas ((d.sort (renderFields d fields)).map fun f => d.text f.1 ++ ':' :: f.2) ++ ['}'])

def renderItems (d : Dialect) : List Tree → List (List Char)
  | [] => []
  | t :: items => t.render d :: renderItems d items

def renderFields (d : Dialect) : List (String × Tree) → List (String × List Char)
  | [] => []
  | (key, t) :: fields => (key, t.render d) :: renderFields d fields

end

mutual

/-- The characters of all texts and keys. -/
def Tree.chars : Tree → List Char
  | .str s => s.toList
  | .arr items => charsItems items
  | .obj fields => charsFields fields
  | _ => []

def charsItems : List Tree → List Char
  | [] => []
  | t :: items => t.chars ++ charsItems items

def charsFields : List (String × Tree) → List Char
  | [] => []
  | (key, t) :: fields => key.toList ++ t.chars ++ charsFields fields

end

mutual

/-- The numbers that are no integers. -/
def Tree.floats : Tree → List UInt64
  | .float bits => [bits]
  | .arr items => floatsItems items
  | .obj fields => floatsFields fields
  | _ => []

def floatsItems : List Tree → List UInt64
  | [] => []
  | t :: items => t.floats ++ floatsItems items

def floatsFields : List (String × Tree) → List UInt64
  | [] => []
  | (_, t) :: fields => t.floats ++ floatsFields fields

end

/-- The UTF-16 code units of a character. -/
def utf16Char (c : Char) : List ℕ :=
  if c.toNat < 0x10000 then [c.toNat]
  else [0xd800 + (c.toNat - 0x10000) / 1024, 0xdc00 + (c.toNat - 0x10000) % 1024]

/-- The UTF-16 code units of a text. -/
def utf16 (s : String) : List ℕ := s.toList.flatMap utf16Char

/-- A character within a text as ECMAScript writes it: only quotes, backslashes and control characters are
escaped. -/
def escapeJs (c : Char) : List Char :=
  match letter c with
  | some x => ['\\', x]
  | none => if c.toNat < 32 then unit c.toNat else [c]

/-- A text as ECMAScript writes it. -/
def textJs (s : String) : List Char := '"' :: (s.toList.flatMap escapeJs ++ ['"'])

/-- `json.dumps(value, sort_keys=True, separators=(",", ":"))`; `repr` writes a double. -/
def Dialect.python (repr : UInt64 → List Char) : Dialect where
  text := Json.text
  float := repr
  sortKey s := s.toList.map Char.toNat

/-- RFC 8785; `toString` writes a double. -/
def Dialect.jcs (toString : UInt64 → List Char) : Dialect where
  text := textJs
  float := toString
  sortKey := utf16

/-! ## Where the two renderings agree -/

theorem renderItems_eq (d : Dialect) (items : List Tree) :
    renderItems d items = items.map (Tree.render d) := by
  induction items with
  | nil => rfl
  | cons t items ih => rw [renderItems, ih, List.map_cons]

theorem renderFields_eq (d : Dialect) (fields : List (String × Tree)) :
    renderFields d fields = fields.map fun f => (f.1, f.2.render d) := by
  induction fields with
  | nil => rfl
  | cons f fields ih => rw [renderFields, ih, List.map_cons]

theorem charsItems_eq (items : List Tree) : charsItems items = items.flatMap Tree.chars := by
  induction items with
  | nil => rfl
  | cons t items ih => rw [charsItems, ih, List.flatMap_cons]

theorem charsFields_eq (fields : List (String × Tree)) :
    charsFields fields = fields.flatMap fun f => f.1.toList ++ f.2.chars := by
  induction fields with
  | nil => rfl
  | cons f fields ih => rw [charsFields, ih, List.flatMap_cons]

theorem floatsItems_eq (items : List Tree) : floatsItems items = items.flatMap Tree.floats := by
  induction items with
  | nil => rfl
  | cons t items ih => rw [floatsItems, ih, List.flatMap_cons]

theorem floatsFields_eq (fields : List (String × Tree)) :
    floatsFields fields = fields.flatMap fun f => f.2.floats := by
  induction fields with
  | nil => rfl
  | cons f fields ih => rw [floatsFields, ih, List.flatMap_cons]

/-- Below `DEL`. -/
def Ascii (cs : List Char) : Prop := ∀ c ∈ cs, c.toNat < 0x7f

theorem all_iff_ascii (cs : List Char) : (cs.all fun c => c.toNat < 0x7f) = true ↔ Ascii cs := by
  simp [Ascii]

instance (cs : List Char) : Decidable (Ascii cs) := decidable_of_iff _ (all_iff_ascii cs)

theorem escape_eq_escapeJs {c : Char} (hc : c.toNat < 0x7f) : escape c = escapeJs c := by
  have h : ∀ n < 0x7f, escape (Char.ofNat n) = escapeJs (Char.ofNat n) := by decide
  simpa using h c.toNat hc

theorem text_eq_textJs {s : String} (hs : Ascii s.toList) : text s = textJs s := by
  unfold text textJs
  rw [List.flatMap_congr fun c hc => escape_eq_escapeJs (hs c hc)]

theorem utf16_eq {s : String} (hs : Ascii s.toList) : utf16 s = s.toList.map Char.toNat := by
  rw [utf16, List.map_eq_flatMap]
  refine List.flatMap_congr fun c hc => ?_
  have := hs c hc
  rw [utf16Char, if_pos (by omega)]

theorem ascii_append {cs ds : List Char} : Ascii (cs ++ ds) ↔ Ascii cs ∧ Ascii ds :=
  List.forall_mem_append

/-- Keys that sort alike stand in the same order. -/
theorem sort_eq_sort {α : Type} {d e : Dialect} {fields : List (String × α)}
    (h : ∀ f ∈ fields, d.sortKey f.1 = e.sortKey f.1) : d.sort fields = e.sort fields := by
  have hmap := List.map_insertionSort (fun f g : String × α => d.sortKey f.1 ≤ d.sortKey g.1)
    (fun f g => e.sortKey f.1 ≤ e.sortKey g.1) id fields
    (fun f hf g hg => by rw [h f hf, h g hg]; rfl)
  simpa [Dialect.sort] using hmap

theorem mem_sort {α : Type} {d : Dialect} {fields : List (String × α)} {f : String × α} :
    f ∈ d.sort fields ↔ f ∈ fields := List.mem_insertionSort _

/-- A value whose texts and keys stay below `DEL` is written alike. -/
theorem render_eq_of_ascii {repr toString : UInt64 → List Char} {t : Tree} (hfloats : t.floats = [])
    (hascii : Ascii t.chars) : t.render (.python repr) = t.render (.jcs toString) := by
  induction t using Tree.induction with
  | null => rfl
  | bool b => rfl
  | int n => rfl
  | float bits => cases hfloats
  | str s => exact text_eq_textJs hascii
  | arr items ih =>
      rw [Tree.floats, floatsItems_eq, List.flatMap_eq_nil_iff] at hfloats
      rw [Tree.chars, charsItems_eq] at hascii
      have hitems : ∀ t ∈ items, t.render (.python repr) = t.render (.jcs toString) := fun t ht =>
        ih t ht (hfloats t ht) fun c hc => hascii c (List.mem_flatMap.mpr ⟨t, ht, hc⟩)
      rw [Tree.render, Tree.render, renderItems_eq, renderItems_eq, List.map_congr_left hitems]
  | obj fields ih =>
      rw [Tree.floats, floatsFields_eq, List.flatMap_eq_nil_iff] at hfloats
      rw [Tree.chars, charsFields_eq] at hascii
      have hfield : ∀ f ∈ fields, Ascii f.1.toList ∧ Ascii f.2.chars := fun f hf =>
        ascii_append.mp fun c hc => hascii c (List.mem_flatMap.mpr ⟨f, hf, hc⟩)
      have hfields : renderFields (.python repr) fields = renderFields (.jcs toString) fields := by
        rw [renderFields_eq, renderFields_eq]
        refine List.map_congr_left fun f hf => ?_
        rw [ih f hf (hfloats f hf) (hfield f hf).2]
      -- the keys of the rendered members are those of the object
      have hkey : ∀ g ∈ renderFields (.jcs toString) fields, Ascii g.1.toList := by
        intro g hg
        rw [renderFields_eq] at hg
        obtain ⟨f, hf, rfl⟩ := List.mem_map.mp hg
        exact (hfield f hf).1
      have hsort : (Dialect.python repr).sort (renderFields (.jcs toString) fields) =
          (Dialect.jcs toString).sort (renderFields (.jcs toString) fields) :=
        sort_eq_sort fun g hg => (utf16_eq (hkey g hg)).symm
      rw [Tree.render, Tree.render, hfields, hsort]
      refine congrArg (fun parts => '{' :: (commas parts ++ ['}'])) (List.map_congr_left fun g hg => ?_)
      exact congrArg (· ++ ':' :: g.2) (text_eq_textJs (hkey g (mem_sort.mp hg)))

theorem commas_cons_cons (p q : List Char) (parts : List (List Char)) :
    commas (p :: q :: parts) = p ++ ',' :: commas (q :: parts) := by
  simp [commas, List.intercalate]

theorem mem_commas {parts : List (List Char)} {p : List Char} {c : Char} (hp : p ∈ parts) (hc : c ∈ p) :
    c ∈ commas parts := by
  induction parts with
  | nil => cases hp
  | cons q parts ih =>
      cases parts with
      | nil =>
          obtain rfl := List.mem_singleton.mp hp
          simpa [commas, List.intercalate] using hc
      | cons r parts =>
          rw [commas_cons_cons, List.mem_append, List.mem_cons]
          rcases List.mem_cons.mp hp with rfl | hp
          · exact .inl hc
          · exact .inr (.inr (ih hp))

theorem ascii_commas {parts : List (List Char)} (h : ∀ p ∈ parts, Ascii p) : Ascii (commas parts) := by
  induction parts with
  | nil => exact fun c hc => by cases hc
  | cons q parts ih =>
      cases parts with
      | nil => simpa [commas, List.intercalate] using h q
      | cons r parts =>
          rw [commas_cons_cons, ascii_append]
          refine ⟨h q List.mem_cons_self, List.forall_mem_cons.mpr ⟨by decide, ?_⟩⟩
          exact ih fun p hp => h p (List.mem_cons_of_mem q hp)

theorem ascii_unit (n : ℕ) : Ascii (unit n) := by
  have h : ∀ d < 16, (Octets.hexDigit d).toNat < 0x7f := by decide
  have hdigit : ∀ m, (Octets.hexDigit (m % 16)).toNat < 0x7f := fun m => h _ (Nat.mod_lt m (by decide))
  simp only [Ascii, unit, List.forall_mem_cons, List.not_mem_nil, false_implies, implies_true, and_true]
  exact ⟨by decide, by decide, hdigit _, hdigit _, hdigit _, hdigit _⟩

theorem ascii_letter {c x : Char} (h : letter c = some x) : x.toNat < 0x7f := by
  have hletters : ∀ p ∈ letters, p.2.toNat < 0x7f := by decide
  exact hletters _ (mem_letters h)

/-- Python's writer stays below `DEL`. -/
theorem ascii_escape (c : Char) : Ascii (escape c) := by
  by_cases hplain : plain c = true
  · rw [escape_of_plain hplain, Ascii, List.forall_mem_singleton]
    simp only [plain, Bool.and_eq_true, decide_eq_true_eq] at hplain
    omega
  · rw [escape, if_neg hplain]
    split
    · next x hx =>
        exact List.forall_mem_cons.mpr ⟨by decide, List.forall_mem_singleton.mpr (ascii_letter hx)⟩
    · split_ifs
      · exact ascii_unit _
      · exact ascii_append.mpr ⟨ascii_unit _, ascii_unit _⟩

/-- What stands between two characters. -/
theorem ascii_enclosed {cs : List Char} {a b : Char} (ha : a.toNat < 0x7f) (hb : b.toNat < 0x7f)
    (hcs : Ascii cs) : Ascii (a :: (cs ++ [b])) :=
  List.forall_mem_cons.mpr ⟨ha, ascii_append.mpr ⟨hcs, List.forall_mem_singleton.mpr hb⟩⟩

theorem ascii_text (s : String) : Ascii (text s) := by
  refine ascii_enclosed (by decide) (by decide) fun c hc => ?_
  obtain ⟨d, -, hc⟩ := List.mem_flatMap.mp hc
  exact ascii_escape d c hc

theorem ascii_decimal (n : ℤ) : Ascii (decimal n) := by
  have hdigits : ∀ m : ℕ, Ascii (Nat.toDigits 10 m) := by
    intro m c hc
    have hdigit := Nat.isDigit_of_mem_toDigits (by norm_num) (by norm_num) hc
    simp only [Char.isDigit, Bool.and_eq_true, decide_eq_true_eq] at hdigit
    have hle : c.toNat ≤ 57 := hdigit.2
    omega
  rcases lt_or_ge n 0 with hn | hn
  · rw [decimal_of_neg hn]
    exact List.forall_mem_cons.mpr ⟨by decide, hdigits _⟩
  · rw [decimal_of_nonneg hn]
    exact hdigits _

theorem ascii_render_python {repr : UInt64 → List Char} {t : Tree} (hfloats : t.floats = []) :
    Ascii (t.render (.python repr)) := by
  induction t using Tree.induction with
  | null => simp [Tree.render, Ascii]
  | bool b => cases b <;> simp [Tree.render, Ascii]
  | int n => exact ascii_decimal n
  | float bits => cases hfloats
  | str s => exact ascii_text s
  | arr items ih =>
      rw [Tree.floats, floatsItems_eq, List.flatMap_eq_nil_iff] at hfloats
      rw [Tree.render, renderItems_eq]
      refine ascii_enclosed (by decide) (by decide) (ascii_commas fun p hp => ?_)
      obtain ⟨t, ht, rfl⟩ := List.mem_map.mp hp
      exact ih t ht (hfloats t ht)
  | obj fields ih =>
      rw [Tree.floats, floatsFields_eq, List.flatMap_eq_nil_iff] at hfloats
      rw [Tree.render, renderFields_eq]
      refine ascii_enclosed (by decide) (by decide) (ascii_commas fun p hp => ?_)
      obtain ⟨g, hg, rfl⟩ := List.mem_map.mp hp
      obtain ⟨f, hf, rfl⟩ := List.mem_map.mp (mem_sort.mp hg)
      refine ascii_append.mpr ⟨ascii_text f.1, List.forall_mem_cons.mpr ⟨by decide, ?_⟩⟩
      exact ih f hf (hfloats f hf)

theorem mem_textJs {s : String} {c : Char} (hc : c ∈ s.toList) (hhigh : 0x7f ≤ c.toNat) :
    c ∈ textJs s := by
  have hletter : letter c = none := by
    have hlow : ∀ p ∈ letters, p.1.toNat < 0x7f := by decide
    rw [← Option.not_isSome_iff_eq_none, Option.isSome_iff_exists]
    rintro ⟨x, hx⟩
    have := hlow _ (mem_letters hx)
    dsimp only at this
    omega
  have hescape : escapeJs c = [c] := by
    rw [escapeJs, hletter]
    exact if_neg (by omega)
  refine List.mem_cons_of_mem _ (List.mem_append_left _ (List.mem_flatMap.mpr ⟨c, hc, ?_⟩))
  rw [hescape]
  exact List.mem_singleton_self c

/-- RFC 8785 writes a character from `DEL` on as it is. -/
theorem mem_render_jcs {toString : UInt64 → List Char} {t : Tree} {c : Char} (hc : c ∈ t.chars)
    (hhigh : 0x7f ≤ c.toNat) : c ∈ t.render (.jcs toString) := by
  induction t using Tree.induction with
  | null => cases hc
  | bool b => cases hc
  | int n => cases hc
  | float bits => cases hc
  | str s => exact mem_textJs hc hhigh
  | arr items ih =>
      rw [Tree.chars, charsItems_eq] at hc
      obtain ⟨t, ht, hc⟩ := List.mem_flatMap.mp hc
      rw [Tree.render, renderItems_eq]
      refine List.mem_cons_of_mem _ (List.mem_append_left _ ?_)
      exact mem_commas (List.mem_map_of_mem ht) (ih t ht hc)
  | obj fields ih =>
      rw [Tree.chars, charsFields_eq] at hc
      obtain ⟨f, hf, hc⟩ := List.mem_flatMap.mp hc
      rw [Tree.render, renderFields_eq]
      refine List.mem_cons_of_mem _ (List.mem_append_left _ ?_)
      have hg : (f.1, f.2.render (.jcs toString)) ∈
          fields.map fun f => (f.1, f.2.render (.jcs toString)) := List.mem_map.mpr ⟨f, hf, rfl⟩
      refine mem_commas (List.mem_map.mpr ⟨_, mem_sort.mpr hg, rfl⟩) ?_
      rcases List.mem_append.mp hc with hc | hc
      · exact List.mem_append_left _ (mem_textJs hc hhigh)
      · exact List.mem_append_right _ (List.mem_cons_of_mem _ (ih f hf hc))

/-- Without other numbers than integers, the two renderings are one exactly when all texts and keys stay below
`DEL`. -/
theorem render_eq_iff (repr toString : UInt64 → List Char) {t : Tree} (hfloats : t.floats = []) :
    t.render (.python repr) = t.render (.jcs toString) ↔ Ascii t.chars := by
  constructor
  · intro heq c hc
    by_contra hhigh
    exact hhigh (ascii_render_python hfloats c (heq ▸ mem_render_jcs hc (not_lt.mp hhigh)))
  · exact render_eq_of_ascii hfloats

/-! ## Objects of texts and integers -/

/-- A text or an integer as a value. -/
def Value.toTree : Value → Tree
  | .str s => .str s
  | .int n => .int n

/-- Code points order texts as characters do. -/
theorem map_toNat_le_iff {s t : String} : s.toList.map Char.toNat ≤ t.toList.map Char.toNat ↔ s ≤ t := by
  have hmono : ∀ {a b : List Char}, a < b → a.map Char.toNat < b.map Char.toNat :=
    List.map_lt fun c d hcd => hcd
  rw [String.le_iff_toList_le]
  constructor
  · intro hle
    exact not_lt.mp fun hlt => not_lt.mpr hle (hmono hlt)
  · intro hle
    rcases lt_or_eq_of_le hle with hlt | heq
    · exact (hmono hlt).le
    · rw [heq]

theorem sort_python {α : Type} {repr : UInt64 → List Char} (fields : List (String × α)) :
    (Dialect.python repr).sort fields = fields.insertionSort fun f g => f.1 ≤ g.1 := by
  have hmap := List.map_insertionSort
    (fun f g : String × α => f.1.toList.map Char.toNat ≤ g.1.toList.map Char.toNat)
    (fun f g : String × α => f.1 ≤ g.1) id fields fun f _ g _ => map_toNat_le_iff
  rwa [List.map_id, List.map_id] at hmap

theorem object_eq (fs : List (String × Value)) : object fs = '{' :: (commas (fs.map member) ++ ['}']) := by
  have hmembers : ∀ fs : List (String × Value), ∀ f, member f ++ members fs =
      commas ((f :: fs).map member) ++ ['}'] := by
    intro fs
    induction fs with
    | nil => intro f; simp [members, commas, List.intercalate]
    | cons g fs ih =>
        intro f
        rw [members, ih g, List.map_cons, List.map_cons, List.map_cons, commas_cons_cons,
          List.append_assoc, List.cons_append]
  cases fs with
  | nil => rfl
  | cons f fs => rw [object, hmembers]

/-- The rendering of an object of texts and integers. -/
theorem object_sortKeys {repr : UInt64 → List Char} (fs : List (String × Value)) :
    object (sortKeys fs) = (Tree.obj (fs.map fun f => (f.1, f.2.toTree))).render (.python repr) := by
  have hvalue : ∀ v : Value, v.toTree.render (.python repr) = v.render := by
    intro v
    cases v <;> rfl
  rw [object_eq, Tree.render, renderFields_eq, List.map_map, sort_python, sortKeys]
  have hsort := List.map_insertionSort (fun f g : String × Value => f.1 ≤ g.1)
    (fun f g : String × List Char => f.1 ≤ g.1)
    ((fun f => (f.1, f.2.render (.python repr))) ∘ fun f => (f.1, f.2.toTree)) fs
    fun f _ g _ => Iff.rfl
  rw [← hsort, List.map_map]
  refine congrArg (fun parts => '{' :: (commas parts ++ ['}'])) (List.map_congr_left fun f _ => ?_)
  rw [Function.comp_apply, Function.comp_apply, hvalue]
  rfl

set_option maxRecDepth 100000 in
/-- Two keys that sort differently. -/
example : let t : Tree := .obj [("𝄞", .int 1), ("\uffee", .null)]
    t.render (.jcs fun _ => []) = "\x7b\"𝄞\":1,\"\uffee\":null\x7d".toList ∧
      t.render (.python fun _ => []) =
        "\x7b\"\\uffee\":null,\"\\ud834\\udd1e\":1\x7d".toList := by
  decide +kernel

end Json
