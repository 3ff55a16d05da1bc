import Mathlib.Data.List.Induction
import Mathlib.Data.Nat.Digits.Lemmas
import I2pLite.Core.CBytes

/-!
# Decimal numerals as bytes

`decimal` is what `printf` writes for an unsigned number, `signedDecimal` for a
signed one.  `digitsValue` reads a run of digits back.
-/

namespace I2pLite.Decimal

open I2pLite.CBytes

def digit (value : ℕ) : Byte := UInt8.ofNat (48 + value)

def isDigit (byte : Byte) : Bool := ch '0' ≤ byte && byte ≤ ch '9'

def decimal (value : ℕ) : List Byte :=
  if value = 0 then [digit 0] else (Nat.digits 10 value).reverse.map digit

def signedDecimal (value : ℤ) : List Byte :=
  if value < 0 then ch '-' :: decimal value.natAbs else decimal value.natAbs

def digitsValue (digits : List Byte) : ℕ :=
  digits.foldl (fun total byte => 10 * total + (byte.toNat - 48)) 0

theorem toNat_digit {value : ℕ} (hvalue : value < 10) : (digit value).toNat = 48 + value := by
  simp only [digit, UInt8.toNat_ofNat']
  omega

theorem isDigit_iff {byte : Byte} : isDigit byte = true ↔ 48 ≤ byte.toNat ∧ byte.toNat ≤ 57 := by
  simp [isDigit, UInt8.le_iff_toNat_le, ch]

theorem isDigit_digit {value : ℕ} (hvalue : value < 10) : isDigit (digit value) = true := by
  rw [isDigit_iff, toNat_digit hvalue]
  omega

theorem decimal_ne_nil (value : ℕ) : decimal value ≠ [] := by
  unfold decimal
  split_ifs with hzero
  · simp
  · simpa using Nat.digits_ne_nil_iff_ne_zero.mpr hzero

theorem isDigit_of_mem_decimal {value : ℕ} {byte : Byte} (hbyte : byte ∈ decimal value) :
    isDigit byte = true := by
  unfold decimal at hbyte
  split_ifs at hbyte with hzero
  · rw [List.mem_singleton.mp hbyte]
    exact isDigit_digit (by omega)
  · obtain ⟨figure, hfigure, rfl⟩ := List.mem_map.mp hbyte
    exact isDigit_digit (Nat.digits_lt_base (by omega) (List.mem_reverse.mp hfigure))

theorem digitsValue_append_singleton (digits : List Byte) (byte : Byte) :
    digitsValue (digits ++ [byte]) = 10 * digitsValue digits + (byte.toNat - 48) := by
  simp [digitsValue]

private theorem digitsValue_reverse_map {figures : List ℕ}
    (hfigures : ∀ figure ∈ figures, figure < 10) :
    digitsValue (figures.reverse.map digit) = Nat.ofDigits 10 figures := by
  induction figures with
  | nil => rfl
  | cons figure figures ih =>
      rw [List.reverse_cons, List.map_append, List.map_singleton, digitsValue_append_singleton,
        ih fun other hother => hfigures other (by simp [hother]),
        toNat_digit (hfigures figure (by simp)), Nat.ofDigits_cons]
      omega

@[simp]
theorem digitsValue_decimal (value : ℕ) : digitsValue (decimal value) = value := by
  unfold decimal
  split_ifs with hzero
  · rw [hzero]
    decide
  · rw [digitsValue_reverse_map fun figure hfigure => Nat.digits_lt_base (by omega) hfigure]
    exact Nat.ofDigits_digits 10 value

theorem decimal_injective : Function.Injective decimal := by
  intro left right heq
  rw [← digitsValue_decimal left, heq, digitsValue_decimal]

theorem signedDecimal_injective : Function.Injective signedDecimal := by
  have hsign : ∀ {left right : ℤ}, ch '-' :: decimal left.natAbs ≠ decimal right.natAbs := by
    intro left right heq
    have hdigit := isDigit_of_mem_decimal (heq ▸ List.mem_cons_self : ch '-' ∈ decimal right.natAbs)
    exact absurd hdigit (by decide)
  intro left right heq
  unfold signedDecimal at heq
  split_ifs at heq with hleft hright hright
  · have := decimal_injective (List.cons.inj heq).2
    omega
  · exact absurd heq hsign
  · exact absurd heq.symm hsign
  · have := decimal_injective heq
    omega

/-- No byte of a signed numeral is a letter. -/
theorem ne_of_mem_signedDecimal {value : ℤ} {byte : Byte} (hbyte : byte ∈ signedDecimal value) :
    byte ≠ ch 'e' := by
  have hdigit : byte ∈ decimal value.natAbs → byte ≠ ch 'e' := by
    intro hmem heq
    have := isDigit_of_mem_decimal hmem
    rw [heq] at this
    exact absurd this (by decide)
  unfold signedDecimal at hbyte
  split_ifs at hbyte
  · rcases List.mem_cons.mp hbyte with rfl | hbyte
    · decide
    · exact hdigit hbyte
  · exact hdigit hbyte

/-- Leading zeros aside, a longer run of digits has a larger value. -/
theorem digitsValue_cons (byte : Byte) (digits : List Byte) :
    digitsValue (byte :: digits) = (byte.toNat - 48) * 10 ^ digits.length + digitsValue digits := by
  induction digits using List.reverseRecOn with
  | nil => simp [digitsValue]
  | append_singleton digits last ih =>
      rw [← List.cons_append, digitsValue_append_singleton, ih, digitsValue_append_singleton,
        List.length_append, List.length_singleton, pow_succ]
      ring

/-- Only zero is written with a leading zero. -/
theorem eq_zero_of_decimal_cons {value : ℕ} {rest : List Byte}
    (hdecimal : decimal value = ch '0' :: rest) : value = 0 := by
  by_contra hne
  rw [decimal, if_neg hne] at hdecimal
  obtain ⟨figure, figures, hreverse, hfigure, _⟩ := List.map_eq_cons_iff.mp hdecimal
  have hdigits : Nat.digits 10 value = figures.reverse ++ [figure] := by
    rw [← List.reverse_reverse (Nat.digits 10 value), hreverse, List.reverse_cons]
  have hlast := Nat.getLast_digit_ne_zero 10 hne
  have hlt : figure < 10 := Nat.digits_lt_base (by omega) (by rw [hdigits]; simp)
  have hvalue := congrArg UInt8.toNat hfigure
  rw [toNat_digit hlt] at hvalue
  simp only [hdigits, List.getLast_append_singleton] at hlast
  have hzero : (ch '0').toNat = 48 := rfl
  omega

end I2pLite.Decimal
