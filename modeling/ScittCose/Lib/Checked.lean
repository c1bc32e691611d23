import ScittCose.Lib.Octets

/-!
# Checked machine arithmetic

A `Checked` computation returns a value, refuses with a message, or faults: an addition, a
subtraction or a conversion that leaves its machine type is a fault, and so is an index or a slice
out of bounds. A run that never faults is one in which nothing wraps.

`Gives` says what a checked computation returns, and that it refuses where there is nothing to return.
`Simulates` compares a computation over unbounded integers with a checked one: both return related
values, or both refuse with the same message (the first under a `what: ` prefix), and the checked
one does not fault.
-/

/-- Why a checked computation stops without a result. -/
inductive Stop where
  /-- The program reports an error. -/
  | refused (message : String)
  /-- Arithmetic leaves its type, or an index is out of bounds. -/
  | fault
deriving DecidableEq

/-- A computation over machine integers. -/
abbrev Checked (α : Type) := Except Stop α

/-- The octets a machine slice can hold: a Rust slice is at most `isize::MAX` octets long and the
length of a Go slice is an `int`. -/
structure Slice where
  octets : Octets
  length_lt : octets.length < 2 ^ 63

namespace Checked

theorem ok_bind {α β : Type} (a : α) (f : α → Checked β) : ((.ok a : Checked α) >>= f) = f a := rfl

/-- An absent value is an error with this message (`ok_or`). -/
def okOr {α : Type} (o : Option α) (message : String) : Checked α :=
  match o with
  | some a => .ok a
  | none => .error (.refused message)

/-- An expected value is there (`unwrap`, `expect`). -/
def unwrap {α : Type} : Option α → Checked α
  | some a => .ok a
  | none => .error .fault

/-- A text in front of a refusal. -/
def explain {α : Type} (what : String) (x : Checked α) : Checked α :=
  x.mapError fun
    | .refused e => .refused s!"{what}{e}"
    | .fault => .fault

/-- The octets as a slice a machine holds. -/
def toSlice (octets : Octets) : Checked Slice :=
  if h : octets.length < 2 ^ 63 then .ok ⟨octets, h⟩ else .error .fault

theorem toSlice_eq {octets : Octets} (h : octets.length < 2 ^ 63) :
    toSlice octets = .ok ⟨octets, h⟩ :=
  dif_pos h

/-! ## Unsigned 64-bit positions (`usize` on a 64-bit target) -/

def usizeAdd (a b : ℕ) : Checked ℕ := if a + b < 2 ^ 64 then .ok (a + b) else .error .fault

def usizeSub (a b : ℕ) : Checked ℕ := if b ≤ a then .ok (a - b) else .error .fault

def usizeMul (a b : ℕ) : Checked ℕ := if a * b < 2 ^ 64 then .ok (a * b) else .error .fault

/-- `a << b`: the shift itself loses bits without a fault. -/
def usizeShl (a b : ℕ) : Checked ℕ := if b < 64 then .ok (a * 2 ^ b % 2 ^ 64) else .error .fault

/-- `octets[start..stop]`. -/
def usizeSlice (octets : Octets) (start stop : ℕ) : Checked Octets :=
  if start ≤ stop ∧ stop ≤ octets.length then .ok (octets.slice start stop) else .error .fault

/-- `octets.get(start..stop)`. -/
def getRange (octets : Octets) (start stop : ℕ) : Option Octets :=
  if start ≤ stop ∧ stop ≤ octets.length then some (octets.slice start stop) else none

/-! ## Signed 64-bit positions (Go's `int`) -/

/-- `n` is one of the values of an `int`: from `-2 ^ 63` to `2 ^ 63 - 1`. -/
def IsInt (n : ℤ) : Prop := -0x8000000000000000 ≤ n ∧ n < 0x8000000000000000

instance (n : ℤ) : Decidable (IsInt n) := inferInstanceAs (Decidable (_ ∧ _))

def intAdd (a b : ℤ) : Checked ℤ := if IsInt (a + b) then .ok (a + b) else .error .fault

def intSub (a b : ℤ) : Checked ℤ := if IsInt (a - b) then .ok (a - b) else .error .fault

def intMul (a b : ℤ) : Checked ℤ := if IsInt (a * b) then .ok (a * b) else .error .fault

/-- `int(a)` of a `uint64`. -/
def intOfU64 (a : UInt64) : Checked ℤ := if a.toNat < 2 ^ 63 then .ok a.toNat else .error .fault

/-- `uint64(a)` of an `int`. -/
def u64OfInt (a : ℤ) : Checked UInt64 :=
  if 0 ≤ a then .ok (UInt64.ofNat a.toNat) else .error .fault

/-- `octets[pos]`. -/
def intIndex (octets : Octets) (pos : ℤ) : Checked UInt8 :=
  if 0 ≤ pos then
    match octets[pos.toNat]? with
    | some x => .ok x
    | none => .error .fault
  else .error .fault

/-- `octets[start:stop]`. -/
def intSlice (octets : Octets) (start stop : ℤ) : Checked Octets :=
  if 0 ≤ start ∧ start ≤ stop ∧ stop ≤ octets.length then
    .ok (octets.slice start.toNat stop.toNat)
  else .error .fault

/-! ## Big-endian arguments in a 64-bit word -/

/-- `acc << 8 | octet` over the octets of an argument. -/
def u64OfOctets (b : Octets) : UInt64 := b.foldl (fun acc x => (acc <<< 8) ||| x.toUInt64) 0

theorem toNat_shl_or (acc : UInt64) (x : UInt8) (h : acc.toNat < 2 ^ 56) :
    ((acc <<< 8) ||| x.toUInt64).toNat = acc.toNat * 256 + x.toNat := by
  have hx := x.toNat_lt
  have h8 : (8 : UInt64).toNat % 64 = 8 := rfl
  rw [UInt64.toNat_or, UInt64.toNat_shiftLeft, h8, UInt8.toNat_toUInt64,
    Nat.mod_eq_of_lt (by rw [Nat.shiftLeft_eq]; omega), ← Nat.shiftLeft_add_eq_or_of_lt hx,
    Nat.shiftLeft_eq]

/-- Eight octets fit a 64-bit word, so no shift loses a bit. -/
theorem toNat_u64OfOctets {b : Octets} (h : b.length ≤ 8) :
    (u64OfOctets b).toNat = Octets.toNat b := by
  induction b using List.reverseRecOn with
  | nil => rfl
  | append_singleton b x ih =>
      rw [List.length_append, List.length_singleton] at h
      have ih := ih (by omega)
      have hlt : (u64OfOctets b).toNat < 2 ^ 56 := by
        calc (u64OfOctets b).toNat = Octets.toNat b := ih
          _ < 256 ^ b.length := Octets.toNat_lt b
          _ ≤ 256 ^ 7 := Nat.pow_le_pow_right (by norm_num) (by omega)
          _ = 2 ^ 56 := by norm_num
      have hstep := toNat_shl_or (u64OfOctets b) x hlt
      rw [ih] at hstep
      rw [Octets.toNat_concat, ← hstep]
      simp [u64OfOctets]

/-! ## Results -/

/-- The checked computation returns the value, or refuses when there is none; it does not fault. -/
inductive Gives {α : Type} : Checked α → Option α → Prop
  | ok (a : α) : Gives (.ok a) (some a)
  | refused (message : String) : Gives (.error (.refused message)) none

section Gives

variable {α β : Type} {x : Checked α} {o : Option α}

theorem Gives.ne_fault (h : Gives x o) : x ≠ .error .fault := by
  intro hfault
  rw [hfault] at h
  cases h

theorem Gives.eq_ok {a : α} (h : Gives x (some a)) : x = .ok a := by
  cases h
  rfl

theorem Gives.eq_ok_iff (h : Gives x o) (a : α) : x = .ok a ↔ o = some a := by
  cases h with
  | ok b => rw [Except.ok.injEq, Option.some.injEq]
  | refused message => exact iff_of_false nofun nofun

theorem Gives.exists_refused (h : Gives x none) : ∃ message, x = .error (.refused message) := by
  cases h with
  | refused message => exact ⟨message, rfl⟩

/-- What a sequence of steps returns. -/
theorem Gives.bind {f : α → Checked β} {g : α → Option β} (h : Gives x o)
    (hfg : ∀ a, o = some a → Gives (f a) (g a)) : Gives (x >>= f) (o.bind g) := by
  cases h with
  | ok a => exact hfg a rfl
  | refused message => exact .refused message

theorem Gives.okOr (o : Option α) (message : String) : Gives (okOr o message) o := by
  cases o with
  | none => exact .refused message
  | some a => exact .ok a

theorem Gives.explain (what : String) (h : Gives x o) : Gives (explain what x) o := by
  cases h with
  | ok a => exact .ok a
  | refused message => exact .refused _

theorem Gives.ite {p : Prop} [Decidable p] {y : Checked α} {q : Option α} (h : p → Gives x o)
    (h' : ¬ p → Gives y q) : Gives (if p then x else y) (if p then o else q) := by
  split_ifs with hp
  · exact h hp
  · exact h' hp

/-- A walk over a list gives what its step gives. -/
theorem Gives.mapM {f : α → Checked β} {g : α → Option β} {l : List α}
    (h : ∀ a ∈ l, Gives (f a) (g a)) : Gives (l.mapM f) (l.mapM g) := by
  induction l with
  | nil => exact .ok []
  | cons a l ih =>
      rw [List.mapM_cons, List.mapM_cons]
      refine (h a (by simp)).bind fun b _ => ?_
      exact (ih fun a' ha' => h a' (by simp [ha'])).bind fun bs _ => .ok (b :: bs)

theorem Gives.foldlM {f : β → α → Checked β} {g : β → α → Option β} (h : ∀ b a, Gives (f b a) (g b a))
    (l : List α) (b : β) : Gives (l.foldlM f b) (l.foldlM g b) := by
  induction l generalizing b with
  | nil => exact .ok b
  | cons a l ih =>
      rw [List.foldlM_cons, List.foldlM_cons]
      exact (h b a).bind fun b' _ => ih b'

end Gives

/-! ## Simulation -/

/-- The checked computation does what the other does: it returns a related value, or refuses with
the message the other prefixes with `what`; it does not fault. -/
inductive Simulates {α β : Type} (what : String) (R : α → β → Prop) :
    Except String α → Checked β → Prop
  | ok {a : α} {b : β} : R a b → Simulates what R (.ok a) (.ok b)
  | refused (message : String) :
      Simulates what R (.error s!"{what}: {message}") (.error (.refused message))

section Simulates

variable {α β γ δ : Type} {what : String} {R : α → β → Prop} {S : γ → δ → Prop}

/-- Simulation composes along a sequence of steps. -/
theorem Simulates.bind {x : Except String α} {y : Checked β} {f : α → Except String γ}
    {g : β → Checked δ} (h : Simulates what R x y)
    (hfg : ∀ a b, R a b → Simulates what S (f a) (g b)) :
    Simulates what S (x >>= f) (y >>= g) := by
  cases h with
  | ok hab => exact hfg _ _ hab
  | refused message => exact .refused message

theorem Simulates.mono {R' : α → β → Prop} {x : Except String α} {y : Checked β}
    (h : Simulates what R x y) (hR : ∀ a b, R a b → R' a b) : Simulates what R' x y := by
  cases h with
  | ok hab => exact .ok (hR _ _ hab)
  | refused message => exact .refused message

theorem Simulates.ite {p q : Prop} [Decidable p] [Decidable q] {x x' : Except String α}
    {y y' : Checked β} (hpq : p ↔ q) (h : p → Simulates what R x y)
    (h' : ¬ p → Simulates what R x' y') :
    Simulates what R (if p then x else x') (if q then y else y') := by
  by_cases hp : p
  · rw [if_pos hp, if_pos (hpq.mp hp)]
    exact h hp
  · rw [if_neg hp, if_neg (mt hpq.mpr hp)]
    exact h' hp

/-- What the checked computation returns, once its messages carry the prefix. -/
theorem Simulates.eq_lift {x : Except String α} {y : Checked α}
    (h : Simulates what (fun a b => a = b) x y) :
    y.mapError (fun | .refused e => .refused s!"{what}: {e}" | .fault => .fault) =
      x.mapError Stop.refused := by
  cases h with
  | ok hab => rw [hab]; rfl
  | refused message => rfl

end Simulates

end Checked
