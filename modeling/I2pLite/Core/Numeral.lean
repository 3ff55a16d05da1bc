import I2pLite.Core.CInt
import I2pLite.Core.CRun
import I2pLite.Core.Decimal

/-!
# Reading numerals

`atoi` skips white space, takes a sign and then digits.  It leaves a buffer in
which no byte ends the digits; in a string the NUL does.
-/

namespace I2pLite.Numeral

open I2pLite.CRun
open I2pLite.CBytes
open I2pLite.CInt
open I2pLite.Decimal

def isSpace (byte : Byte) : Bool := byte = 32 || (9 ≤ byte && byte ≤ 13)

/-- The sign of a numeral, and what follows it. -/
def splitSign : List Byte → ℤ × List Byte
  | [] => (1, [])
  | byte :: rest =>
      if byte = ch '-' then (-1, rest)
      else if byte = ch '+' then (1, rest)
      else (1, byte :: rest)

/-- `atoi` on the bytes of a buffer, which it leaves where no byte ends the
numeral.  `strtol` clamps to a `long`, and `atoi` converts that to an `int`. -/
def atoi (buffer : List Byte) : Run ℤ :=
  let (sign, digits) := splitSign (buffer.dropWhile isSpace)
  if digits.all isDigit then .error .outOfBounds
  else
    let value := sign * digitsValue (digits.takeWhile isDigit)
    .ok (toInt32 (max (-2 ^ 63) (min value (2 ^ 63 - 1))))

/-! ## Digits -/

theorem not_isDigit_of_isSpace {byte : Byte} (hspace : isSpace byte) : ¬ isDigit byte := by
  rw [isDigit_iff]
  simp only [isSpace, Bool.or_eq_true, Bool.and_eq_true, decide_eq_true_eq,
    UInt8.le_iff_toNat_le, ← UInt8.toNat_inj] at hspace
  simp at hspace
  omega

/-- A first byte that is a digit or a NUL is neither white space nor a sign. -/
theorem splitSign_dropWhile {buffer : List Byte}
    (hfirst : ∀ byte ∈ buffer.head?, isDigit byte ∨ byte = 0) :
    splitSign (buffer.dropWhile isSpace) = (1, buffer) := by
  cases buffer with
  | nil => rfl
  | cons byte rest =>
      have hbyte : isDigit byte ∨ byte = 0 := hfirst byte rfl
      have hspace : ¬ isSpace byte := by
        rcases hbyte with hdigit | rfl
        · exact fun hspace => not_isDigit_of_isSpace hspace hdigit
        · decide
      have hminus : byte ≠ ch '-' := by
        rintro rfl
        revert hbyte
        decide
      have hplus : byte ≠ ch '+' := by
        rintro rfl
        revert hbyte
        decide
      rw [List.dropWhile_cons_of_neg hspace, splitSign, if_neg hminus, if_neg hplus]

theorem atoi_digits {digits more : List Byte} (hdigits : ∀ byte ∈ digits, isDigit byte) :
    atoi (digits ++ 0 :: more) = .ok (toInt32 (min (digitsValue digits) (2 ^ 63 - 1))) := by
  have hfirst : ∀ byte ∈ (digits ++ 0 :: more).head?, isDigit byte ∨ byte = 0 := by
    intro byte hbyte
    cases digits with
    | nil => exact Or.inr (by simpa using hbyte.symm)
    | cons first digits =>
        obtain rfl : first = byte := by simpa using hbyte
        exact Or.inl (hdigits first (by simp))
  have hall : (digits ++ 0 :: more).all isDigit = false := by
    simp [show isDigit 0 = false from rfl]
  have htake : (digits ++ 0 :: more).takeWhile isDigit = digits := by
    rw [List.takeWhile_append_of_pos hdigits, List.takeWhile_cons_of_neg (by decide),
      List.append_nil]
  simp only [atoi, splitSign_dropWhile hfirst, hall, htake, Bool.false_eq_true, if_false, one_mul]
  congr 2
  omega

/-- A numeral that fills the buffer is followed out of it. -/
theorem atoi_all_digits {digits : List Byte} (hdigits : ∀ byte ∈ digits, isDigit byte) :
    atoi digits = .error .outOfBounds := by
  have hfirst : ∀ byte ∈ digits.head?, isDigit byte ∨ byte = 0 :=
    fun byte hbyte => Or.inl (hdigits byte (List.mem_of_mem_head? hbyte))
  have hall : digits.all isDigit = true := List.all_eq_true.mpr hdigits
  simp only [atoi, splitSign_dropWhile hfirst, hall, if_true]

/-! ## Strings -/

/-- The number in front of a string. -/
def numberOf (text : CString) : ℤ :=
  match atoi (text.bytes ++ [0]) with
  | .ok number => number
  | .error _ => 0

theorem zero_mem_splitSign (digits : List Byte) : 0 ∈ (splitSign (digits ++ [0])).2 := by
  cases digits with
  | nil => decide
  | cons byte digits =>
      rw [List.cons_append, splitSign]
      split_ifs <;> simp

/-- The NUL of a string ends its numeral. -/
theorem atoi_string (text : CString) : atoi (text.bytes ++ [0]) = .ok (numberOf text) := by
  have hspaces :
      (text.bytes ++ [0]).dropWhile isSpace = text.bytes.dropWhile isSpace ++ [0] := by
    rw [List.dropWhile_append]
    split_ifs with hempty
    · rw [List.isEmpty_iff.mp hempty]
      rfl
    · rfl
  have hmem := zero_mem_splitSign (text.bytes.dropWhile isSpace)
  have hall : ((splitSign (text.bytes.dropWhile isSpace ++ [0])).2.all isDigit) = false := by
    rw [List.all_eq_false]
    exact ⟨0, hmem, by decide⟩
  simp only [numberOf, atoi, hspaces, hall, Bool.false_eq_true, if_false]

end I2pLite.Numeral
