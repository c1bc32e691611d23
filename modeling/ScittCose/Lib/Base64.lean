import ScittCose.Lib.Octets

/-!
# Base64

`encode` writes octets as text of the standard alphabet, with padding, and `decode` is the forgiving reader of
web browsers: it skips ASCII white space, does without padding, and passes over the bits a last digit has too
many. In the URL-safe form two digits are others and there is no padding.

What is written is read back, in either form (`decode_encode`, `decodeUrl_encodeUrl`).
-/

namespace Base64

/-! ## Digits -/

/-- The digit of a number below 64. -/
def digit (n : ℕ) : Char :=
  if n < 26 then Char.ofNat (65 + n)
  else if n < 52 then Char.ofNat (71 + n)
  else if n < 62 then Char.ofNat (n - 4)
  else if n = 62 then '+'
  else '/'

/-- The number of a digit. -/
def value (c : Char) : Option ℕ :=
  if 'A' ≤ c ∧ c ≤ 'Z' then some (c.toNat - 65)
  else if 'a' ≤ c ∧ c ≤ 'z' then some (c.toNat - 71)
  else if '0' ≤ c ∧ c ≤ '9' then some (c.toNat + 4)
  else if c = '+' then some 62
  else if c = '/' then some 63
  else none

/-- ASCII white space, without the vertical tab. -/
def isWhite (c : Char) : Bool := c == ' ' || c == '\t' || c == '\n' || c == '\x0c' || c == '\r'

theorem value_digit {n : ℕ} (h : n < 64) : value (digit n) = some n := by
  revert n
  decide

theorem digit_spec {n : ℕ} (h : n < 64) :
    isWhite (digit n) = false ∧ digit n ≠ '=' ∧ digit n ≠ '-' ∧ digit n ≠ '_' := by
  revert n
  decide

/-! ## Octets in groups of six bits -/

/-- Octets as numbers of six bits. -/
def sextets : Octets → List ℕ
  | a :: b :: c :: rest =>
    a.toNat / 4 :: (a.toNat % 4 * 16 + b.toNat / 16) :: (b.toNat % 16 * 4 + c.toNat / 64) :: c.toNat % 64 ::
      sextets rest
  | [a, b] => [a.toNat / 4, a.toNat % 4 * 16 + b.toNat / 16, b.toNat % 16 * 4]
  | [a] => [a.toNat / 4, a.toNat % 4 * 16]
  | [] => []

/-- Numbers of six bits as octets; bits that fill no octet are left out. -/
def octets : List ℕ → Octets
  | p :: q :: r :: s :: rest =>
    UInt8.ofNat (p * 4 + q / 16) :: UInt8.ofNat (q % 16 * 16 + r / 4) :: UInt8.ofNat (r % 4 * 64 + s) ::
      octets rest
  | [p, q, r] => [UInt8.ofNat (p * 4 + q / 16), UInt8.ofNat (q % 16 * 16 + r / 4)]
  | [p, q] => [UInt8.ofNat (p * 4 + q / 16)]
  | _ => []

theorem ofNat_eq {a : UInt8} {n : ℕ} (h : n = a.toNat) : UInt8.ofNat n = a := by
  rw [h, UInt8.ofNat_toNat]

theorem octets_sextets (b : Octets) : octets (sextets b) = b := by
  induction b using sextets.induct with
  | case1 a b c rest ih =>
      have hb := b.toNat_lt
      have hc := c.toNat_lt
      rw [sextets, octets, ih, ofNat_eq (a := a) (by omega), ofNat_eq (a := b) (by omega),
        ofNat_eq (a := c) (by omega)]
  | case2 a b =>
      have hb := b.toNat_lt
      rw [sextets, octets, ofNat_eq (a := a) (by omega), ofNat_eq (a := b) (by omega)]
  | case3 a => rw [sextets, octets, ofNat_eq (a := a) (by omega)]
  | case4 => rfl

theorem lt_of_mem_sextets {b : Octets} {n : ℕ} (h : n ∈ sextets b) : n < 64 := by
  induction b using sextets.induct with
  | case1 a b c rest ih =>
      have ha := a.toNat_lt
      have hb := b.toNat_lt
      have hc := c.toNat_lt
      simp only [sextets, List.mem_cons] at h
      rcases h with rfl | rfl | rfl | rfl | h
      · omega
      · omega
      · omega
      · omega
      · exact ih h
  | case2 a b =>
      have ha := a.toNat_lt
      have hb := b.toNat_lt
      simp only [sextets, List.mem_cons, List.not_mem_nil, or_false] at h
      omega
  | case3 a =>
      have ha := a.toNat_lt
      simp only [sextets, List.mem_cons, List.not_mem_nil, or_false] at h
      omega
  | case4 => cases h

/-! ## Text -/

/-- How many `=` fill up the last group of four digits. -/
def padding (digits : ℕ) : ℕ := (4 - digits % 4) % 4

/-- The digits of octets, without padding. -/
def digits (b : Octets) : List Char := (sextets b).map digit

/-- Octets as text (`btoa`). -/
def encode (b : Octets) : List Char := digits b ++ List.replicate (padding (digits b).length) '='

/-- A text without one or two `=` at its end. -/
def dropPadding (cs : List Char) : List Char :=
  match cs.reverse with
  | '=' :: '=' :: rest => rest.reverse
  | '=' :: rest => rest.reverse
  | _ => cs

/-- The forgiving reader (`atob`). -/
def decode (cs : List Char) : Option Octets :=
  let cs := cs.filter fun c => !isWhite c
  let cs := if cs.length % 4 = 0 then dropPadding cs else cs
  if cs.length % 4 = 1 then none else (cs.mapM value).map octets

theorem length_digits_mod (b : Octets) : (digits b).length % 4 ≠ 1 := by
  rw [digits, List.length_map]
  induction b using sextets.induct with
  | case1 a b c rest ih =>
      simp only [sextets, List.length_cons]
      omega
  | case2 a b => exact (by decide : 3 % 4 ≠ 1)
  | case3 a => exact (by decide : 2 % 4 ≠ 1)
  | case4 => decide

theorem mem_digits {b : Octets} {c : Char} (h : c ∈ digits b) :
    isWhite c = false ∧ c ≠ '=' ∧ c ≠ '-' ∧ c ≠ '_' := by
  obtain ⟨n, hn, rfl⟩ := List.mem_map.mp h
  exact digit_spec (lt_of_mem_sextets hn)

theorem mapM_value_digits (b : Octets) : (digits b).mapM value = some (sextets b) := by
  rw [Octets.mapM_eq_some_iff, digits, List.map_map]
  exact List.map_congr_left fun n hn => value_digit (lt_of_mem_sextets hn)

/-- Padding of at most two is dropped from what does not end in `=` otherwise. -/
theorem dropPadding_append {cs : List Char} (hcs : ∀ c ∈ cs, c ≠ '=') {k : ℕ} (hk : k ≤ 2) :
    dropPadding (cs ++ List.replicate k '=') = cs := by
  have hreverse : (cs ++ List.replicate k '=').reverse = List.replicate k '=' ++ cs.reverse := by
    rw [List.reverse_append, List.reverse_replicate]
  have hlast : ∀ d ds, cs.reverse = d :: ds → d ≠ '=' := by
    intro d ds h
    exact hcs d (List.mem_reverse.mp (h ▸ List.mem_cons_self))
  unfold dropPadding
  rw [hreverse]
  obtain rfl | rfl | rfl : k = 0 ∨ k = 1 ∨ k = 2 := by omega
  · rw [List.replicate_zero, List.nil_append, List.append_nil]
    split
    · next rest h => exact absurd rfl (hlast _ _ h)
    · next rest _ h => exact absurd rfl (hlast _ _ h)
    · rfl
  · rw [List.replicate_one, List.singleton_append]
    split
    · next rest h => exact absurd rfl (hlast _ _ (List.cons.inj h).2)
    · next rest _ h => rw [← (List.cons.inj h).2, List.reverse_reverse]
    · next h => exact absurd rfl (h _)
  · exact List.reverse_reverse cs

/-- What is written is read back. -/
theorem decode_encode (b : Octets) : decode (encode b) = some b := by
  have hmod := length_digits_mod b
  have hpadding : padding (digits b).length ≤ 2 := by
    unfold padding
    omega
  have hwhite : (encode b).filter (fun c => !isWhite c) = encode b := by
    rw [List.filter_eq_self]
    intro c hc
    rcases List.mem_append.mp hc with hc | hc
    · rw [(mem_digits hc).1]
      rfl
    · rw [List.eq_of_mem_replicate hc]
      rfl
  have hlength : (encode b).length % 4 = 0 := by
    rw [encode, List.length_append, List.length_replicate, padding]
    omega
  unfold decode
  simp only
  rw [hwhite, if_pos hlength, encode, dropPadding_append (fun c hc => (mem_digits hc).2.1) hpadding,
    if_neg hmod, mapM_value_digits, Option.map_some, octets_sextets]

/-! ## The URL-safe form -/

/-- A digit of the URL-safe form. -/
def toUrl (c : Char) : Char := if c = '+' then '-' else if c = '/' then '_' else c

/-- A digit of the standard form. -/
def ofUrl (c : Char) : Char := if c = '-' then '+' else if c = '_' then '/' else c

/-- Octets as text of the URL-safe form: the standard form in other digits, without the `=` at its end. -/
def encodeUrl (b : Octets) : List Char := ((encode b).map toUrl).rdropWhile fun c => c = '='

/-- A reader of the URL-safe form: in digits of the standard form and with padding. -/
def decodeUrl (cs : List Char) : Option Octets :=
  let std := cs.map ofUrl
  decode (std ++ List.replicate (padding std.length) '=')

theorem ofUrl_toUrl {c : Char} (h : c ≠ '-' ∧ c ≠ '_') : ofUrl (toUrl c) = c := by
  by_cases hplus : c = '+'
  · rw [hplus]
    rfl
  · by_cases hslash : c = '/'
    · rw [hslash]
      rfl
    · rw [toUrl, if_neg hplus, if_neg hslash, ofUrl, if_neg h.1, if_neg h.2]

theorem toUrl_ne_padding {c : Char} (h : c ≠ '=') : toUrl c ≠ '=' := by
  unfold toUrl
  split_ifs
  · decide
  · decide
  · exact h

/-- The padding is dropped, and nothing else. -/
theorem encodeUrl_eq (b : Octets) : encodeUrl b = (digits b).map toUrl := by
  have hlast : ((digits b).map toUrl).rdropWhile (fun c => c = '=') = (digits b).map toUrl := by
    rw [List.rdropWhile_eq_self_iff]
    intro hne
    obtain ⟨c, hc, heq⟩ := List.mem_map.mp (List.getLast_mem hne)
    rw [← heq, decide_eq_true_iff]
    exact toUrl_ne_padding (mem_digits hc).2.1
  have hdrop : ∀ k, ((digits b).map toUrl ++ List.replicate k '=').rdropWhile (fun c => c = '=') =
      (digits b).map toUrl := by
    intro k
    induction k with
    | zero => rw [List.replicate_zero, List.append_nil, hlast]
    | succ k ih =>
        rw [List.replicate_succ', ← List.append_assoc, List.rdropWhile_concat_pos _ _ _ (by simp), ih]
  have hpad : ∀ k, (List.replicate k '=').map toUrl = List.replicate k '=' := by
    intro k
    rw [List.map_replicate]
    rfl
  rw [encodeUrl, encode, List.map_append, hpad, hdrop]

/-- What is written in the URL-safe form is read back. -/
theorem decodeUrl_encodeUrl (b : Octets) : decodeUrl (encodeUrl b) = some b := by
  have hback : (encodeUrl b).map ofUrl = digits b := by
    rw [encodeUrl_eq, List.map_map]
    conv_rhs => rw [← List.map_id (digits b)]
    exact List.map_congr_left fun c hc => ofUrl_toUrl (mem_digits hc).2.2
  unfold decodeUrl
  simp only
  rw [hback]
  exact decode_encode b

end Base64
