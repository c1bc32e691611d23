import ScittCose.Lib.Octets

/-!
# JSON objects of texts and integers, in ASCII

The rendering of Python's `json.dumps` with the separators `,` and `:`: texts between quotes, with
quotes, backslashes, control characters and everything outside ASCII escaped, a character beyond the
first plane as a pair of surrogates; integers in decimal.

Every part ends where its text says it ends: a text at the first quote that is not escaped
(`text_append_inj`), an integer at the comma or brace behind it. So an object's rendering determines
its members (`object_injective`).
-/

namespace Json

/-- A member's value. -/
inductive Value where
  | str (s : String)
  | int (n : ℤ)
deriving DecidableEq

/-! ## Rendering -/

/-- A code unit: `\u` and four hexadecimal digits. -/
def unit (n : ℕ) : List Char :=
  ['\\', 'u', Octets.hexDigit (n / 4096 % 16), Octets.hexDigit (n / 256 % 16),
    Octets.hexDigit (n / 16 % 16), Octets.hexDigit (n % 16)]

/-- The two-character escapes: a character and the letter that stands for it. -/
def letters : List (Char × Char) :=
  [('\\', '\\'), ('"', '"'), ('\x08', 'b'), ('\x0c', 'f'), ('\n', 'n'), ('\r', 'r'), ('\t', 't')]

/-- The letter of a two-character escape. -/
def letter (c : Char) : Option Char := (letters.find? fun p => p.1 == c).map Prod.snd

/-- A character that stands for itself. -/
def plain (c : Char) : Bool := 32 ≤ c.toNat && c.toNat ≤ 126 && c != '"' && c != '\\'

/-- A character within a text. -/
def escape (c : Char) : List Char :=
  if plain c then [c]
  else
    match letter c with
    | some x => ['\\', x]
    | none =>
      if c.toNat < 0x10000 then unit c.toNat
      else
        let n := c.toNat - 0x10000
        unit (0xd800 ||| ((n >>> 10) &&& 0x3ff)) ++ unit (0xdc00 ||| (n &&& 0x3ff))

/-- A text. -/
def text (s : String) : List Char := '"' :: (s.toList.flatMap escape ++ ['"'])

/-- An integer. -/
def decimal (n : ℤ) : List Char := n.repr.toList

/-- A value. -/
def Value.render : Value → List Char
  | .str s => text s
  | .int n => decimal n

/-- A member: key and value. -/
def member (f : String × Value) : List Char := text f.1 ++ ':' :: f.2.render

/-- Members behind the first, and the closing brace. -/
def members : List (String × Value) → List Char
  | [] => ['}']
  | f :: fs => ',' :: (member f ++ members fs)

/-- Members by key, as `sort_keys` has them. -/
def sortKeys (fs : List (String × Value)) : List (String × Value) :=
  fs.insertionSort fun f g => f.1 ≤ g.1

/-- An object. -/
def object : List (String × Value) → List Char
  | [] => ['{', '}']
  | f :: fs => '{' :: (member f ++ members fs)

/-! ## Characters -/

theorem hexDigit_inj {a b : ℕ} (ha : a < 16) (hb : b < 16)
    (h : Octets.hexDigit a = Octets.hexDigit b) : a = b := by
  have := congrArg Octets.hexValue h
  rwa [Octets.hexValue_hexDigit ha, Octets.hexValue_hexDigit hb, Option.some.injEq] at this

/-- A code unit shows its number. -/
theorem unit_append_inj {n m : ℕ} (hn : n < 0x10000) (hm : m < 0x10000) {r r' : List Char}
    (h : unit n ++ r = unit m ++ r') : n = m ∧ r = r' := by
  simp only [unit, List.cons_append, List.nil_append, List.cons.injEq, true_and] at h
  obtain ⟨h3, h2, h1, h0, hr⟩ := h
  have e3 := hexDigit_inj (by omega) (by omega) h3
  have e2 := hexDigit_inj (by omega) (by omega) h2
  have e1 := hexDigit_inj (by omega) (by omega) h1
  have e0 := hexDigit_inj (by omega) (by omega) h0
  exact ⟨by omega, hr⟩

/-- The two code units of a character beyond the first plane, as numbers. -/
theorem surrogates_eq {n : ℕ} (h : n < 0x100000) :
    0xd800 ||| ((n >>> 10) &&& 0x3ff) = 0xd800 + n / 1024 ∧
      0xdc00 ||| (n &&& 0x3ff) = 0xdc00 + n % 1024 := by
  have hor : ∀ {k x : ℕ}, x < 2 ^ 10 → k <<< 10 ||| x = k * 1024 + x := by
    intro k x hx
    rw [← Nat.shiftLeft_add_eq_or_of_lt hx, Nat.shiftLeft_eq]
  have hhigh : (n >>> 10) &&& 0x3ff = n / 1024 := by
    rw [Nat.shiftRight_eq_div_pow, show 0x3ff = 2 ^ 10 - 1 from rfl, Nat.and_two_pow_sub_one_eq_mod]
    exact Nat.mod_eq_of_lt (by omega)
  have hlow : n &&& 0x3ff = n % 1024 := by
    rw [show 0x3ff = 2 ^ 10 - 1 from rfl, Nat.and_two_pow_sub_one_eq_mod]
  rw [hhigh, hlow]
  exact ⟨hor (k := 54) (by omega), hor (k := 55) (by omega)⟩

theorem mem_letters {c x : Char} (h : letter c = some x) : (c, x) ∈ letters := by
  obtain ⟨p, hp, rfl⟩ := Option.map_eq_some_iff.mp h
  have hc : p.1 = c := by simpa using List.find?_some hp
  rw [← hc]
  exact List.mem_of_find?_eq_some hp

/-- A letter stands for one character, and is no `u`. -/
theorem letter_inj {c d x : Char} (hc : letter c = some x) (hd : letter d = some x) : c = d := by
  have hinj : ∀ p ∈ letters, ∀ q ∈ letters, p.2 = q.2 → p.1 = q.1 := by decide
  exact hinj _ (mem_letters hc) _ (mem_letters hd) rfl

theorem letter_ne {c x : Char} (h : letter c = some x) : x ≠ 'u' := by
  have hne : ∀ p ∈ letters, p.2 ≠ 'u' := by decide
  exact hne _ (mem_letters h)

/-- What follows the backslash of an escape. -/
theorem escape_of_not_plain {c : Char} (h : plain c = false) :
    (∃ x, letter c = some x ∧ escape c = ['\\', x]) ∨
      ∃ n m, n < 0x10000 ∧ m < 0x10000 ∧
        ((c.toNat = n ∧ ¬ (0xd800 ≤ n ∧ n < 0xe000) ∧ escape c = unit n) ∨
          (c.toNat = 0x10000 + (n - 0xd800) * 1024 + (m - 0xdc00) ∧ 0xd800 ≤ n ∧ n < 0xdc00 ∧
            0xdc00 ≤ m ∧ escape c = unit n ++ unit m)) := by
  have hvalid : c.toNat < 0xd800 ∨ 0xdfff < c.toNat ∧ c.toNat < 0x110000 := c.valid
  unfold escape
  rw [h]
  cases hx : letter c with
  | some x => exact .inl ⟨x, rfl, rfl⟩
  | none =>
      right
      by_cases hlow : c.toNat < 0x10000
      · exact ⟨c.toNat, 0, hlow, by norm_num, .inl ⟨rfl, by omega, by simp [hlow]⟩⟩
      · obtain ⟨hhi, hlo⟩ := surrogates_eq (n := c.toNat - 0x10000) (by omega)
        refine ⟨0xd800 + (c.toNat - 0x10000) / 1024, 0xdc00 + (c.toNat - 0x10000) % 1024, by omega,
          by omega, .inr ⟨by omega, by omega, by omega, by omega, ?_⟩⟩
        simp [hlow, hhi, hlo]

theorem escape_of_plain {c : Char} (h : plain c = true) : escape c = [c] := by
  unfold escape
  rw [if_pos h]

/-- Anything but a character that stands for itself starts with a backslash. -/
theorem exists_escape_eq_backslash {c : Char} (h : plain c = false) :
    ∃ x t, escape c = '\\' :: x :: t := by
  obtain ⟨x, -, hx⟩ | ⟨n, m, -, -, ⟨-, -, hn⟩ | ⟨-, -, -, -, hn⟩⟩ := escape_of_not_plain h
  · exact ⟨x, [], hx⟩
  · exact ⟨'u', _, hn⟩
  · exact ⟨'u', _, hn⟩

theorem toNat_inj {c d : Char} (h : c.toNat = d.toNat) : c = d := by
  rw [← Char.ofNat_toNat c, ← Char.ofNat_toNat d, h]

/-- A character's escape ends where it says it ends. -/
theorem escape_append_inj {c d : Char} {r r' : List Char} (h : escape c ++ r = escape d ++ r') :
    c = d ∧ r = r' := by
  have hne : ∀ {c : Char}, plain c = true → c ≠ '\\' := by
    rintro c hc rfl
    exact absurd hc (by decide)
  by_cases hc : plain c = true
  · rw [escape_of_plain hc] at h
    by_cases hd : plain d = true
    · rw [escape_of_plain hd] at h
      exact List.cons.inj h
    · obtain ⟨x, t, ht⟩ := exists_escape_eq_backslash (Bool.eq_false_iff.mpr hd)
      rw [ht] at h
      exact absurd (List.cons.inj h).1 (hne hc)
  by_cases hd : plain d = true
  · obtain ⟨x, t, ht⟩ := exists_escape_eq_backslash (Bool.eq_false_iff.mpr hc)
    rw [escape_of_plain hd, ht] at h
    exact absurd (List.cons.inj h).1.symm (hne hd)
  -- both start with a backslash
  obtain ⟨x, hx, hcx⟩ | ⟨n, m, hn, hm, hcnm⟩ := escape_of_not_plain (Bool.eq_false_iff.mpr hc)
  · obtain ⟨y, hy, hdy⟩ | ⟨k, l, hk, hl, hdkl⟩ := escape_of_not_plain (Bool.eq_false_iff.mpr hd)
    · rw [hcx, hdy] at h
      obtain ⟨rfl, rfl⟩ : x = y ∧ r = r' := by simpa using h
      exact ⟨letter_inj hx hy, rfl⟩
    · obtain ⟨-, -, hdk⟩ | ⟨-, -, -, -, hdk⟩ := hdkl
      · rw [hcx, hdk] at h
        exact absurd (List.cons.inj (List.cons.inj h).2).1 (letter_ne hx)
      · rw [hcx, hdk] at h
        exact absurd (List.cons.inj (List.cons.inj h).2).1 (letter_ne hx)
  · obtain ⟨y, hy, hdy⟩ | ⟨k, l, hk, hl, hdkl⟩ := escape_of_not_plain (Bool.eq_false_iff.mpr hd)
    · obtain ⟨-, -, hcn⟩ | ⟨-, -, -, -, hcn⟩ := hcnm
      · rw [hcn, hdy] at h
        exact absurd (List.cons.inj (List.cons.inj h).2).1.symm (letter_ne hy)
      · rw [hcn, hdy] at h
        exact absurd (List.cons.inj (List.cons.inj h).2).1.symm (letter_ne hy)
    · obtain ⟨hcn, hnot, hcu⟩ | ⟨hcn, hlo, hhi, hm', hcu⟩ := hcnm
      · obtain ⟨hdk, -, hdu⟩ | ⟨hdk, hlo', hhi', hl', hdu⟩ := hdkl
        · rw [hcu, hdu] at h
          obtain ⟨rfl, rfl⟩ := unit_append_inj hn hk h
          exact ⟨toNat_inj (hcn.trans hdk.symm), rfl⟩
        · -- a code unit alone is no surrogate
          rw [hcu, hdu, List.append_assoc] at h
          obtain ⟨rfl, -⟩ := unit_append_inj hn hk h
          exact absurd ⟨hlo', by omega⟩ hnot
      · obtain ⟨hdk, hnot', hdu⟩ | ⟨hdk, -, -, hl', hdu⟩ := hdkl
        · rw [hcu, hdu, List.append_assoc] at h
          obtain ⟨rfl, -⟩ := unit_append_inj hn hk h
          exact absurd ⟨hlo, by omega⟩ hnot'
        · rw [hcu, hdu, List.append_assoc, List.append_assoc] at h
          obtain ⟨rfl, hrest⟩ := unit_append_inj hn hk h
          obtain ⟨rfl, rfl⟩ := unit_append_inj hm hl hrest
          exact ⟨toNat_inj (hcn.trans hdk.symm), rfl⟩

/-- No escape starts with a quote. -/
theorem escape_append_ne_quote (c : Char) (r r' : List Char) : escape c ++ r ≠ '"' :: r' := by
  by_cases hc : plain c = true
  · rw [escape_of_plain hc]
    rintro h
    obtain rfl := (List.cons.inj h).1
    exact absurd hc (by decide)
  · obtain ⟨x, t, ht⟩ := exists_escape_eq_backslash (Bool.eq_false_iff.mpr hc)
    rw [ht]
    rintro h
    exact absurd (List.cons.inj h).1 (by decide)

/-! ## Texts and integers -/

theorem flatMap_escape_inj {cs ds : List Char} {r r' : List Char}
    (h : cs.flatMap escape ++ '"' :: r = ds.flatMap escape ++ '"' :: r') : cs = ds ∧ r = r' := by
  induction cs generalizing ds with
  | nil =>
      cases ds with
      | nil => exact ⟨rfl, (List.cons.inj h).2⟩
      | cons d ds =>
          rw [List.flatMap_cons, List.append_assoc] at h
          exact absurd h.symm (escape_append_ne_quote d _ _)
  | cons c cs ih =>
      rw [List.flatMap_cons, List.append_assoc] at h
      cases ds with
      | nil => exact absurd h (escape_append_ne_quote c _ _)
      | cons d ds =>
          rw [List.flatMap_cons, List.append_assoc] at h
          obtain ⟨rfl, hrest⟩ := escape_append_inj h
          obtain ⟨rfl, rfl⟩ := ih hrest
          exact ⟨rfl, rfl⟩

/-- A text ends at its closing quote. -/
theorem text_append_inj {s t : String} {r r' : List Char} (h : text s ++ r = text t ++ r') :
    s = t ∧ r = r' := by
  simp only [text, List.cons_append, List.append_assoc, List.nil_append, List.cons.injEq,
    true_and] at h
  obtain ⟨hst, hr⟩ := flatMap_escape_inj h
  exact ⟨String.toList_injective hst, hr⟩

/-- Behind a value stands a comma or a closing brace. -/
def Closes (r : List Char) : Prop := ∃ c t, r = c :: t ∧ (c = ',' ∨ c = '}')

/-- The first character of a list that another property begins to hold at. -/
theorem append_cons_inj {P : Char → Prop} {a b : List Char} {c d : Char} {r r' : List Char}
    (ha : ∀ x ∈ a, P x) (hb : ∀ x ∈ b, P x) (hc : ¬ P c) (hd : ¬ P d)
    (h : a ++ c :: r = b ++ d :: r') : a = b ∧ c :: r = d :: r' := by
  induction a generalizing b with
  | nil =>
      cases b with
      | nil => exact ⟨rfl, h⟩
      | cons y b =>
          obtain ⟨rfl, -⟩ := List.cons.inj h
          exact absurd (hb c List.mem_cons_self) hc
  | cons x a ih =>
      cases b with
      | nil =>
          obtain ⟨rfl, -⟩ := List.cons.inj h
          exact absurd (ha x List.mem_cons_self) hd
      | cons y b =>
          obtain ⟨rfl, hrest⟩ := List.cons.inj h
          obtain ⟨rfl, hend⟩ := ih (fun z hz => ha z (List.mem_cons_of_mem _ hz))
            (fun z hz => hb z (List.mem_cons_of_mem _ hz)) hrest
          exact ⟨rfl, hend⟩

theorem decimal_of_nonneg {n : ℤ} (h : 0 ≤ n) : decimal n = Nat.toDigits 10 n.toNat := by
  unfold decimal
  rw [Int.repr_eq_if, if_pos h, Nat.toList_repr]

theorem decimal_of_neg {n : ℤ} (h : n < 0) : decimal n = '-' :: Nat.toDigits 10 (-n).toNat := by
  unfold decimal
  rw [Int.repr_eq_if, if_neg (by omega), String.toList_append, Nat.toList_repr]
  rfl

theorem toDigits_injective {a b : ℕ} (h : Nat.toDigits 10 a = Nat.toDigits 10 b) : a = b := by
  rw [← Nat.ofDigitChars_ten_toDigits (n := a), h, Nat.ofDigitChars_ten_toDigits]

/-- No digits start with a sign. -/
theorem toDigits_ne_minus (n : ℕ) (t : List Char) : Nat.toDigits 10 n ≠ '-' :: t := by
  intro h
  have hmem : '-' ∈ Nat.toDigits 10 n := h ▸ List.mem_cons_self
  exact absurd (Nat.isDigit_of_mem_toDigits (by norm_num) (by norm_num) hmem) (by decide)

theorem decimal_injective : Function.Injective decimal := by
  intro a b h
  rcases lt_or_ge a 0 with ha | ha
  · rw [decimal_of_neg ha] at h
    rcases lt_or_ge b 0 with hb | hb
    · rw [decimal_of_neg hb] at h
      have := toDigits_injective (List.cons.inj h).2
      omega
    · rw [decimal_of_nonneg hb] at h
      exact absurd h.symm (toDigits_ne_minus _ _)
  · rw [decimal_of_nonneg ha] at h
    rcases lt_or_ge b 0 with hb | hb
    · rw [decimal_of_neg hb] at h
      exact absurd h (toDigits_ne_minus _ _)
    · rw [decimal_of_nonneg hb] at h
      have := toDigits_injective h
      omega

/-- The characters of an integer are no comma, no brace and no quote. -/
theorem ne_of_mem_decimal {n : ℤ} {c : Char} (h : c ∈ decimal n) : c ≠ ',' ∧ c ≠ '}' ∧ c ≠ '"' := by
  have hdigits : ∀ {m : ℕ}, c ∈ Nat.toDigits 10 m → c ≠ ',' ∧ c ≠ '}' ∧ c ≠ '"' := by
    intro m hm
    have hdigit := Nat.isDigit_of_mem_toDigits (by norm_num) (by norm_num) hm
    refine ⟨?_, ?_, ?_⟩ <;>
    · rintro rfl
      exact absurd hdigit (by decide)
  rcases lt_or_ge n 0 with hn | hn
  · rw [decimal_of_neg hn] at h
    rcases List.mem_cons.mp h with rfl | h
    · decide
    · exact hdigits h
  · rw [decimal_of_nonneg hn] at h
    exact hdigits h

theorem decimal_ne_nil (n : ℤ) : decimal n ≠ [] := by
  rcases lt_or_ge n 0 with hn | hn
  · rw [decimal_of_neg hn]
    exact List.cons_ne_nil _ _
  · rw [decimal_of_nonneg hn]
    exact Nat.toDigits_ne_nil

/-- An integer before a comma or a brace ends there. -/
theorem decimal_append_inj {n m : ℤ} {r r' : List Char} (hr : Closes r) (hr' : Closes r')
    (h : decimal n ++ r = decimal m ++ r') : n = m ∧ r = r' := by
  obtain ⟨c, t, rfl, hc⟩ := hr
  obtain ⟨d, t', rfl, hd⟩ := hr'
  obtain ⟨hnm, hrest⟩ := append_cons_inj (P := fun x => x ≠ ',' ∧ x ≠ '}')
    (fun x hx => ⟨(ne_of_mem_decimal hx).1, (ne_of_mem_decimal hx).2.1⟩)
    (fun x hx => ⟨(ne_of_mem_decimal hx).1, (ne_of_mem_decimal hx).2.1⟩) (by tauto) (by tauto) h
  exact ⟨decimal_injective hnm, hrest⟩

/-- An integer is no text. -/
theorem decimal_append_ne_text (n : ℤ) (s : String) (r r' : List Char) :
    decimal n ++ r ≠ text s ++ r' := by
  intro h
  obtain ⟨c, t, hct⟩ := List.exists_cons_of_ne_nil (decimal_ne_nil n)
  have hmem : c ∈ decimal n := hct ▸ List.mem_cons_self
  rw [hct] at h
  exact (ne_of_mem_decimal hmem).2.2 (List.cons.inj h).1

/-! ## Members and objects -/

theorem render_append_inj {v w : Value} {r r' : List Char} (hr : Closes r) (hr' : Closes r')
    (h : v.render ++ r = w.render ++ r') : v = w ∧ r = r' := by
  cases v with
  | str s =>
      cases w with
      | str t =>
          obtain ⟨rfl, rfl⟩ := text_append_inj h
          exact ⟨rfl, rfl⟩
      | int m => exact absurd h.symm (decimal_append_ne_text m s r' r)
  | int n =>
      cases w with
      | str t => exact absurd h (decimal_append_ne_text n t r r')
      | int m =>
          obtain ⟨rfl, rfl⟩ := decimal_append_inj hr hr' h
          exact ⟨rfl, rfl⟩

theorem member_append_inj {f g : String × Value} {r r' : List Char} (hr : Closes r) (hr' : Closes r')
    (h : member f ++ r = member g ++ r') : f = g ∧ r = r' := by
  unfold member at h
  rw [List.append_assoc, List.append_assoc] at h
  obtain ⟨hkey, hrest⟩ := text_append_inj h
  obtain ⟨hvalue, hend⟩ := render_append_inj hr hr' (List.cons.inj hrest).2
  exact ⟨Prod.ext hkey hvalue, hend⟩

theorem closes_members (fs : List (String × Value)) : Closes (members fs) := by
  cases fs with
  | nil => exact ⟨'}', [], rfl, .inr rfl⟩
  | cons f fs => exact ⟨',', _, rfl, .inl rfl⟩

theorem members_injective : Function.Injective members := by
  intro fs gs h
  induction fs generalizing gs with
  | nil =>
      cases gs with
      | nil => rfl
      | cons g gs => exact absurd (List.cons.inj h).1 (by decide)
  | cons f fs ih =>
      cases gs with
      | nil => exact absurd (List.cons.inj h).1 (by decide)
      | cons g gs =>
          obtain ⟨rfl, hrest⟩ := member_append_inj (closes_members fs) (closes_members gs)
            (List.cons.inj h).2
          rw [ih hrest]

/-- A rendering determines its members. -/
theorem object_injective : Function.Injective object := by
  intro fs gs h
  cases fs with
  | nil =>
      cases gs with
      | nil => rfl
      | cons g gs => exact absurd (List.cons.inj (List.cons.inj h).2).1 (by decide)
  | cons f fs =>
      cases gs with
      | nil => exact absurd (List.cons.inj (List.cons.inj h).2).1 (by decide)
      | cons g gs =>
          obtain ⟨rfl, hrest⟩ := member_append_inj (closes_members fs) (closes_members gs)
            (List.cons.inj h).2
          rw [members_injective hrest]

/-- A quote, a control character, a character outside ASCII and one beyond the first plane. -/
example : object [("a\"\n", .str "é𝄞"), ("n", .int (-12))] =
    "\x7b\"a\\\"\\n\":\"\\u00e9\\ud834\\udd1e\",\"n\":-12\x7d".toList := by decide

end Json
