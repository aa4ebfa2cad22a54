import Mathlib.Tactic.Common
import Mathlib.Algebra.Group.Int.Defs
import Mathlib.Algebra.Group.Nat.Defs

/-!
# Signed 32-bit arithmetic

A computation on numbers of type `int` is done on integers, and its result is taken modulo 2^32.
-/

namespace Framework

/-- The value of a signed 32-bit computation. -/
def int32 (x : Int) : Int := (BitVec.ofInt 32 x).toInt

theorem int32_eq_bmod (x : Int) : int32 x = x.bmod (2 ^ 32) := by
  rw [int32, BitVec.toInt_ofInt]

theorem int32_of_range {x : Int} (h : -2 ^ 31 ≤ x ∧ x < 2 ^ 31) : int32 x = x := by
  rw [int32_eq_bmod]
  apply Int.bmod_eq_of_le
  · omega
  · omega

theorem int32_natCast {n : Nat} (h : n < 2 ^ 31) : int32 n = n :=
  int32_of_range (by omega)

theorem int32_wrap {x : Int} (hlow : 2 ^ 31 ≤ x) (hhigh : x < 2 ^ 32) : int32 x = x - 2 ^ 32 := by
  rw [int32_eq_bmod, Int.bmod_eq_emod, if_pos (by omega)]
  omega

/-- A sum may be taken modulo 2^32 after each addition. -/
theorem int32_int32_add (x y : Int) : int32 (int32 x + y) = int32 (x + y) := by
  simp only [int32_eq_bmod, Int.bmod_add_bmod]

theorem int32_eq_zero {x : Int} : int32 x = 0 ↔ x % 2 ^ 32 = 0 := by
  rw [int32_eq_bmod, Int.bmod_eq_emod]
  split <;> omega

theorem int32_range (x : Int) : -2 ^ 31 ≤ int32 x ∧ int32 x < 2 ^ 31 := by
  have hlow := (BitVec.ofInt 32 x).le_toInt
  have hhigh := (BitVec.ofInt 32 x).toInt_lt
  exact ⟨hlow, hhigh⟩

/-- A number too large for an `int`, but not by more than a turn, gives a negative one. -/
theorem int32_of_nonneg {x : Int} (h : 0 ≤ int32 x) (hx : -2 ^ 31 ≤ x ∧ x < 2 ^ 32) :
    int32 x = x := by
  by_cases hlt : x < 2 ^ 31
  · exact int32_of_range ⟨hx.1, hlt⟩
  · rw [int32_wrap (by omega) hx.2] at h
    omega

end Framework
