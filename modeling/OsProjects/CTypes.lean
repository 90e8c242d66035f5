import Mathlib.Data.Int.Basic
import Mathlib.Algebra.Order.Group.Unbundled.Int
import Mathlib.Tactic.Ring

/-! # C integer types

`int` values are integers; `cInt` is the conversion of a wider value to `int` (two's
complement, 32 bits) and `sizeT` the conversion to `size_t` (64 bits), in which a difference wraps
around below zero (`subSize`). -/

namespace OsProjects

/-- A byte of memory or of a stream. -/
abbrev Byte := UInt8

/-- Conversion to `int`. -/
def cInt (z : ℤ) : ℤ := Int.bmod z (2 ^ 32)

/-- Conversion to `size_t`. -/
def sizeT (z : ℤ) : ℕ := (z % 2 ^ 64).toNat

/-- Subtraction of `size_t`s. -/
def subSize (a b : ℕ) : ℕ := if b ≤ a then a - b else sizeT (a - b)

theorem cInt_of_lt {z : ℤ} (h₀ : -2 ^ 31 ≤ z) (h₁ : z < 2 ^ 31) : cInt z = z := by
  unfold cInt
  rw [Int.bmod_def]
  split_ifs <;> omega

theorem sizeT_of_nonneg {z : ℤ} (h₀ : 0 ≤ z) (h₁ : z < 2 ^ 64) : sizeT z = z.toNat := by
  unfold sizeT
  rw [Int.emod_eq_of_lt h₀ h₁]

@[simp] theorem sizeT_natCast {n : ℕ} (h : n < 2 ^ 64) : sizeT n = n := by
  rw [sizeT_of_nonneg (by omega) (by omega)]
  simp

theorem sizeT_lt (z : ℤ) : sizeT z < 2 ^ 64 := by
  unfold sizeT
  omega

theorem subSize_of_le {a b : ℕ} (h : b ≤ a) : subSize a b = a - b := if_pos h

theorem cInt_lt (z : ℤ) : cInt z < 2 ^ 31 := by
  unfold cInt
  rw [Int.bmod_def]
  split_ifs <;> omega

/-- Only the multiples of `2 ^ 32` become 0. -/
theorem cInt_eq_zero_iff (z : ℤ) : cInt z = 0 ↔ 2 ^ 32 ∣ z :=
  Int.dvd_iff_bmod_eq_zero.symm

/-- A size goes through an `int` unchanged exactly below `2 ^ 31`. -/
theorem sizeT_cInt_eq_iff (n : ℕ) : 0 ≤ cInt n ∧ sizeT (cInt n) = n ↔ n < 2 ^ 31 := by
  have hlt := cInt_lt n
  constructor
  · rintro ⟨hnn, heq⟩
    rw [sizeT_of_nonneg hnn (by omega)] at heq
    omega
  · intro hn
    have heq : cInt n = n := cInt_of_lt (by omega) (by omega)
    rw [heq, sizeT_natCast (by omega)]
    exact ⟨by omega, rfl⟩

end OsProjects
