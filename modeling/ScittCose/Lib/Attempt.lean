import Mathlib

/-!
# Attempts

An attempt gives a value, is refused for a reason, or is cut short by an exception. In `do` notation it goes on
only as long as it gives values; `bind_gives_iff` takes a chain of steps apart, and the other lemmas say when one
step gives a value.
-/

/-- A computation that can be refused for a reason, or raise. -/
abbrev Attempt (α : Type) := ExceptT String Option α

namespace Attempt

variable {α β : Type}

/-- The attempt gives this value. -/
def Gives (x : Attempt α) (a : α) : Prop := x.run = some (.ok a)

/-- What there is, or a refusal. -/
def orRefuse (found : Option α) (reason : String) : Attempt α :=
  match found with
  | some a => pure a
  | none => throw reason

/-- What there is, or an exception. -/
def orRaise (found : Option α) : Attempt α := ExceptT.mk (found.map .ok)

/-- A condition, or a refusal. -/
def ensure (c : Prop) [Decidable c] (reason : String) : Attempt Unit :=
  if c then pure () else throw reason

theorem bind_gives_iff {x : Attempt α} {f : α → Attempt β} {b : β} :
    (x >>= f).Gives b ↔ ∃ a, x.Gives a ∧ (f a).Gives b := by
  unfold Gives
  rw [ExceptT.run_bind]
  cases x.run with
  | none => simp
  | some found => cases found <;> simp

theorem pure_gives_iff {a b : α} : (pure a : Attempt α).Gives b ↔ a = b := by
  simp [Gives]

theorem orRefuse_gives_iff {found : Option α} {reason : String} {a : α} :
    (orRefuse found reason).Gives a ↔ found = some a := by
  cases found with
  | none => exact iff_of_false nofun nofun
  | some b => rw [orRefuse, pure_gives_iff, Option.some.injEq]

theorem orRaise_gives_iff {found : Option α} {a : α} : (orRaise found).Gives a ↔ found = some a := by
  cases found <;> simp [Gives, orRaise]

theorem ensure_gives_iff {c : Prop} [Decidable c] {reason : String} {u : Unit} :
    (ensure c reason).Gives u ↔ c := by
  unfold ensure
  split_ifs with hc
  · exact iff_of_true (pure_gives_iff.mpr rfl) hc
  · exact iff_of_false nofun hc

/-- After a condition, an attempt goes on as if there were none. -/
theorem ensure_bind_gives_iff {c : Prop} [Decidable c] {reason : String} {x : Unit → Attempt α} {a : α} :
    (ensure c reason >>= x).Gives a ↔ c ∧ (x ()).Gives a := by
  rw [bind_gives_iff]
  constructor
  · rintro ⟨u, hc, hx⟩
    exact ⟨ensure_gives_iff.mp hc, hx⟩
  · rintro ⟨hc, hx⟩
    exact ⟨(), ensure_gives_iff.mpr hc, hx⟩

/-- The attempt to use what there is. -/
theorem orRefuse_bind_gives_iff {found : Option α} {reason : String} {f : α → Attempt β} {b : β} :
    (orRefuse found reason >>= f).Gives b ↔ ∃ a, found = some a ∧ (f a).Gives b := by
  simp only [bind_gives_iff, orRefuse_gives_iff]

theorem orRaise_bind_gives_iff {found : Option α} {f : α → Attempt β} {b : β} :
    (orRaise found >>= f).Gives b ↔ ∃ a, found = some a ∧ (f a).Gives b := by
  simp only [bind_gives_iff, orRaise_gives_iff]

end Attempt
