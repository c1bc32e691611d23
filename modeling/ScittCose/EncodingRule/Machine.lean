import ScittCose.EncodingRule.Walk
import ScittCose.Lib.Checked

/-!
# The receipt encoding rule: what the walks over machine integers share

The Rust and the Go walk carry their arguments in 64-bit words and their positions in a machine
type. `Advance` and `SameHead` relate their positions and heads to those of the Python walk, through
the embedding `embed` of a position in the machine's type.
-/

namespace ScittCose.EncodingRule.Machine

open Checked

/-- The argument's width and the smallest value that needs it (the `match` on `info` in Rust's
`head`, the `switch` in Go's `encodingHead`). -/
def width : ℕ → Checked (ℕ × UInt64)
  | 24 => .ok (1, 24)
  | 25 => .ok (2, (1 : UInt64) <<< 8)
  | 26 => .ok (4, (1 : UInt64) <<< 16)
  | 27 => .ok (8, (1 : UInt64) <<< 32)
  | 31 => .error (.refused "an indefinite length")
  | _ => .error (.refused "a reserved additional-information value")

/-- The width of an argument read alike: the width table refuses what the Python head refuses. -/
theorem width_spec {info : ℕ} (h : 24 ≤ info) (h' : info < 32) :
    info = 31 ∧ width info = .error (.refused "an indefinite length") ∨
      (info ≠ 31 ∧ EncodingRule.width info = none ∧
        width info = .error (.refused "a reserved additional-information value")) ∨
      ∃ w s, info ≠ 31 ∧ EncodingRule.width info = some (w, s) ∧ s < 2 ^ 64 ∧ w ≤ 8 ∧
        width info = .ok (w, UInt64.ofNat s) := by
  interval_cases info
  · exact .inr (.inr ⟨1, 24, by simp, rfl, by norm_num, by norm_num, rfl⟩)
  · exact .inr (.inr ⟨2, 2 ^ 8, by simp, rfl, by norm_num, by norm_num, rfl⟩)
  · exact .inr (.inr ⟨4, 2 ^ 16, by simp, rfl, by norm_num, by norm_num, rfl⟩)
  · exact .inr (.inr ⟨8, 2 ^ 32, by simp, rfl, by norm_num, by norm_num, rfl⟩)
  · exact .inr (.inl ⟨by simp, rfl, rfl⟩)
  · exact .inr (.inl ⟨by simp, rfl, rfl⟩)
  · exact .inr (.inl ⟨by simp, rfl, rfl⟩)
  · exact .inl ⟨rfl, rfl⟩

variable {α : Type} (embed : ℕ → α)

/-- Both walks went from `start` to one position, not back and not past the end. -/
structure Advance (octets : Octets) (start p : ℕ) (q : α) : Prop where
  eq : embed p = q
  le : start ≤ p
  le_length : p ≤ octets.length

variable {embed} {octets : Octets} {what : String}

theorem Advance.from_le {start mid p : ℕ} {q : α} (h : Advance embed octets mid p q)
    (hle : start ≤ mid) : Advance embed octets start p q := ⟨h.eq, hle.trans h.le, h.le_length⟩

variable (embed)

/-- A head read alike: equal fields, the argument as a 64-bit word, and the additional information
of the initial octet. -/
structure SameHead (octets : Octets) (start : ℕ) (p : ℕ × ℕ × ℕ) (q : ℕ × ℕ × UInt64 × α) :
    Prop where
  major : p.1 = q.1
  info : q.2.1 = ((octets[start]?).getD 0).toNat % 32
  argument : q.2.2.1.toNat = p.2.1
  direct : q.2.1 < 24 ∧ p.2.1 = q.2.1 ∨ q.2.1 ∈ [24, 25, 26, 27]
  pos : embed p.2.2 = q.2.2.2
  le : start ≤ p.2.2
  le_length : p.2.2 ≤ octets.length
  major_lt : p.1 < 8

/-- The walk `g` does what `f` does from every position inside the octets. -/
def Follows (octets : Octets) (what : String) (f : ℕ → Except String ℕ) (g : α → Checked α) :
    Prop :=
  ∀ p ≤ octets.length, Simulates what (Advance embed octets p) (f p) (g (embed p))

variable {embed}

/-- A walk that follows another does so over the members of an array. -/
theorem items_simulates {f : ℕ → Except String ℕ} {g : α → Checked α}
    (hfg : Follows embed octets what f g) (n : ℕ) :
    Follows embed octets what (items f n) (items g n) := by
  induction n with
  | zero => exact fun p hp => .ok ⟨rfl, le_rfl, hp⟩
  | succ n ih =>
      intro p hp
      refine (hfg p hp).bind ?_
      rintro k _ ⟨rfl, hpk, hk⟩
      exact (ih k hk).mono fun _ _ h => h.from_le hpk

end ScittCose.EncodingRule.Machine
