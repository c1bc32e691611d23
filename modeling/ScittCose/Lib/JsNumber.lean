import Mathlib

/-!
# Integers as JavaScript numbers

A JavaScript number is a double: `Js.num` is the double nearest to an integer, ties to even. Every sum,
difference and product of a program is one `Js.num`; a quotient by a power of two that is rounded down,
and a power of two, are exact. Between `-2 ^ 53` and `2 ^ 53` nothing is rounded (`Js.num_eq`).
-/

namespace Js

/-- The double nearest to an integer; none is as large as the infinities here. -/
def num (n : ℤ) : ℤ :=
  let m := n.natAbs
  let unit := 2 ^ (m.log2 - 52)
  let q := m / unit
  let r := m % unit
  let rounded := if 2 * r < unit ∨ 2 * r = unit ∧ q % 2 = 0 then q else q + 1
  n.sign * (rounded * unit : ℕ)

theorem num_eq {n : ℤ} (hlo : -2 ^ 53 < n) (hhi : n < 2 ^ 53) : num n = n := by
  have hm : n.natAbs < 2 ^ 53 := by omega
  have hlog : n.natAbs.log2 - 52 = 0 := by
    rcases Nat.eq_zero_or_pos n.natAbs with h | h
    · rw [h]
      rfl
    · have := (Nat.log2_lt (by omega)).mpr hm
      omega
  unfold num
  dsimp only
  rw [hlog, pow_zero, Nat.mod_one, Nat.div_one, if_pos (Or.inl (by omega)), Nat.mul_one]
  exact Int.sign_mul_natAbs n

theorem num_natCast {n : ℕ} (h : n < 2 ^ 53) : num n = n := num_eq (by omega) (by omega)

/-- A number above the safe integers is rounded. -/
example : num (2 ^ 53 + 1) = 2 ^ 53 := by decide

end Js
