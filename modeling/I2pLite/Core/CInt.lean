import Mathlib.Algebra.Group.Int.Defs
import Mathlib.Algebra.Group.Nat.Defs
import Mathlib.Data.Int.Order.Basic
import I2pLite.Core.CRun

/-!
# Integers of C

A wider integer is converted to an `int` of 32 bits modulo `2 ^ 32`, and an
integer to a `size_t` modulo `2 ^ 64`.  Arithmetic in an `int` that leaves its
range has no meaning.
-/

namespace I2pLite.CInt

open I2pLite.CRun

/-- The conversion of a wider integer to `int`. -/
def toInt32 (value : ℤ) : ℤ := value.bmod (2 ^ 32)

/-- The conversion to `size_t`. -/
def toSize (value : ℤ) : ℕ := (value % 2 ^ 64).toNat

/-- The result of arithmetic in `int`. -/
def inInt32 (value : ℤ) : Run ℤ :=
  if -2 ^ 31 ≤ value ∧ value < 2 ^ 31 then .ok value else .error .signedOverflow

variable {value : ℤ}

theorem toInt32_le (hvalue : 0 ≤ value) : toInt32 value ≤ value := by
  rw [toInt32, Int.bmod_def]
  split_ifs <;> omega

theorem toInt32_of_lt (hlow : -2 ^ 31 ≤ value) (hhigh : value < 2 ^ 31) :
    toInt32 value = value := by
  apply Int.bmod_eq_of_le
  · simpa using hlow
  · simpa using hhigh

theorem toSize_of_lt (hlow : 0 ≤ value) (hhigh : value < 2 ^ 64) : toSize value = value.toNat := by
  rw [toSize, Int.emod_eq_of_lt hlow hhigh]

theorem toSize_lt (value : ℤ) : toSize value < 2 ^ 64 := by
  rw [toSize]
  omega

/-- The narrower conversion forgets the wider one. -/
theorem toInt32_toSize (value : ℤ) : toInt32 (toSize value) = toInt32 value := by
  rw [toInt32, toInt32, toSize, Int.bmod_def, Int.bmod_def]
  split_ifs <;> omega

theorem inInt32_of_lt (hlow : -2 ^ 31 ≤ value) (hhigh : value < 2 ^ 31) :
    inInt32 value = .ok value :=
  if_pos ⟨hlow, hhigh⟩

theorem inInt32_eq_ok_iff {result : ℤ} :
    inInt32 value = .ok result ↔ result = value ∧ -2 ^ 31 ≤ value ∧ value < 2 ^ 31 := by
  rw [inInt32]
  split_ifs with hrange
  · constructor
    · intro hresult
      exact ⟨(Except.ok.inj hresult).symm, hrange⟩
    · rintro ⟨rfl, _⟩
      rfl
  · exact iff_of_false (by simp) fun hresult => hrange hresult.2

end I2pLite.CInt
