import Mathlib.Data.List.Basic
import Mathlib.Data.Nat.Bitwise
import Mathlib.Tactic.Ring

/-!
# Bit strings

A bit string is a list of bits, most significant first.  It is cut into groups
of a width; where its bits do not fill the last group, zeros do.
-/

namespace I2pLite.BitString

/-- The number that the bits stand for. -/
def valueOf : List Bool → ℕ
  | [] => 0
  | bit :: bits => 2 ^ bits.length * bit.toNat + valueOf bits

/-- The low bits of a number. -/
def bitsOf : ℕ → ℕ → List Bool
  | 0, _ => []
  | width + 1, number => number.testBit width :: bitsOf width number

/-- The first bits, with zeros behind them where there are not enough. -/
def firstGroup (width : ℕ) (bits : List Bool) : List Bool :=
  (bits ++ List.replicate width false).take width

/-- How many groups hold this many bits. -/
def groupsFor (width count : ℕ) : ℕ := (count + (width - 1)) / width

/-- The group with this number, from 0 on. -/
def groupAt (width : ℕ) (bits : List Bool) (number : ℕ) : List Bool :=
  firstGroup width (bits.drop (width * number))

def groups (width : ℕ) (bits : List Bool) : List (List Bool) :=
  (List.range (groupsFor width bits.length)).map (groupAt width bits)

variable {width number : ℕ} {bits more : List Bool}

/-! ## Values -/

theorem valueOf_append (bits more : List Bool) :
    valueOf (bits ++ more) = 2 ^ more.length * valueOf bits + valueOf more := by
  induction bits with
  | nil => simp [valueOf]
  | cons bit bits ih =>
      rw [List.cons_append, valueOf, valueOf, ih, List.length_append, pow_add]
      ring

theorem valueOf_lt (bits : List Bool) : valueOf bits < 2 ^ bits.length := by
  induction bits with
  | nil => exact Nat.one_pos
  | cons bit bits ih =>
      have hbit : bit.toNat ≤ 1 := Bool.toNat_le bit
      calc valueOf (bit :: bits)
          = 2 ^ bits.length * bit.toNat + valueOf bits := rfl
        _ < 2 ^ bits.length * 1 + 2 ^ bits.length :=
            Nat.add_lt_add_of_le_of_lt (Nat.mul_le_mul_left _ hbit) ih
        _ = 2 ^ (bit :: bits).length := by
            rw [List.length_cons, pow_succ]
            ring

theorem length_bitsOf (width number : ℕ) : (bitsOf width number).length = width := by
  induction width with
  | zero => rfl
  | succ width ih => rw [bitsOf, List.length_cons, ih]

theorem valueOf_bitsOf (width number : ℕ) :
    valueOf (bitsOf width number) = number % 2 ^ width := by
  induction width with
  | zero => rw [pow_zero, Nat.mod_one]; rfl
  | succ width ih =>
      rw [bitsOf, valueOf, length_bitsOf, ih, Nat.mod_pow_succ, Nat.toNat_testBit, Nat.add_comm]

theorem valueOf_replicate_false (count : ℕ) : valueOf (List.replicate count false) = 0 := by
  induction count with
  | zero => rfl
  | succ count ih => rw [List.replicate_succ, valueOf, ih]; simp

/-- The front of the bits is the quotient, and what follows it the remainder. -/
theorem valueOf_take_drop (bits : List Bool) (count : ℕ) :
    valueOf (bits.take count) = valueOf bits / 2 ^ (bits.length - count) ∧
      valueOf (bits.drop count) = valueOf bits % 2 ^ (bits.length - count) := by
  have hsplit := valueOf_append (bits.take count) (bits.drop count)
  have hrest := valueOf_lt (bits.drop count)
  rw [List.take_append_drop, List.length_drop] at hsplit
  rw [List.length_drop] at hrest
  rw [hsplit]
  constructor
  · rw [Nat.mul_add_div (Nat.two_pow_pos _), Nat.div_eq_of_lt hrest, Nat.add_zero]
  · rw [Nat.mul_add_mod, Nat.mod_eq_of_lt hrest]

/-! ## Groups -/

theorem firstGroup_of_le (hfull : width ≤ bits.length) : firstGroup width bits = bits.take width :=
  List.take_append_of_le_length hfull

theorem firstGroup_of_lt (hshort : bits.length ≤ width) :
    firstGroup width bits = bits ++ List.replicate (width - bits.length) false := by
  rw [firstGroup, List.take_append, List.take_of_length_le hshort, List.take_replicate,
    Nat.min_eq_left (Nat.sub_le _ _)]

theorem groups_nil (hwidth : 0 < width) : groups width [] = [] := by
  have hnone : groupsFor width 0 = 0 := Nat.div_eq_of_lt (by omega)
  rw [groups, List.length_nil, hnone]
  rfl

theorem length_groups : (groups width bits).length = groupsFor width bits.length := by
  rw [groups, List.length_map, List.length_range]

/-- The first group, and the groups of the bits behind it. -/
theorem groups_eq_cons (hwidth : 0 < width) (hbits : bits ≠ []) :
    groups width bits = firstGroup width bits :: groups width (bits.drop width) := by
  have hpos := List.length_pos_iff.mpr hbits
  have hcount : groupsFor width bits.length = groupsFor width (bits.drop width).length + 1 := by
    rw [groupsFor, groupsFor, List.length_drop]
    by_cases hfull : width ≤ bits.length
    · rw [show bits.length + (width - 1) = bits.length - width + (width - 1) + width by omega,
        Nat.add_div_right _ hwidth]
    · rw [show bits.length - width = 0 by omega, Nat.zero_add,
        Nat.div_eq_of_lt (show width - 1 < width by omega),
        show bits.length + (width - 1) = bits.length - 1 + width by omega,
        Nat.add_div_right _ hwidth, Nat.div_eq_of_lt (by omega)]
  rw [groups, hcount, List.range_succ_eq_map, List.map_cons, List.map_map, groups]
  congr 1
  apply List.map_congr_left
  intro number _
  rw [Function.comp_apply, groupAt, groupAt, List.drop_drop, Nat.mul_succ, Nat.add_comm]

end I2pLite.BitString
