import Mathlib.Data.List.Lex
import Mathlib.Data.List.TakeWhile
import Mathlib.Order.Lattice
import Mathlib.Data.Nat.Notation
import Mathlib.Tactic.Common
import Mathlib.Tactic.Ring

/-!
# Bytes and NUL-terminated strings

A `CString` is the list of bytes before the terminator.  `strcmp` compares two
of them byte by byte as unsigned characters; its sign is a linear order.
-/

namespace I2pLite.CBytes

abbrev Byte := UInt8

/-- The byte of an ASCII character. -/
def ch (char : Char) : Byte := UInt8.ofNat char.toNat

structure CString where
  bytes : List Byte
  noNul : ∀ byte ∈ bytes, byte ≠ 0
  deriving DecidableEq

/-- The string that a pointer to `buffer` denotes: the bytes before the first
NUL.  The buffer is taken to be followed by one. -/
def ofBuffer (buffer : List Byte) : CString where
  bytes := buffer.takeWhile (· ≠ 0)
  noNul := fun byte hbyte => by simpa using List.mem_takeWhile_imp hbyte

def strlen (string : CString) : ℕ := string.bytes.length

theorem ofBuffer_bytes (string : CString) : ofBuffer string.bytes = string := by
  obtain ⟨bytes, hbytes⟩ := string
  simp only [ofBuffer, CString.mk.injEq]
  exact List.takeWhile_eq_self_iff.mpr fun byte hbyte => by
    simpa using hbytes byte hbyte

theorem ofBuffer_append_nul (string : CString) (tail : List Byte) :
    ofBuffer (string.bytes ++ 0 :: tail) = string := by
  obtain ⟨bytes, hbytes⟩ := string
  simp only [ofBuffer, CString.mk.injEq]
  rw [List.takeWhile_append_of_pos (by simpa using hbytes),
    List.takeWhile_cons_of_neg (by simp), List.append_nil]

/-- The first difference of two byte strings, the terminator counting as 0. -/
def compareBytes : List Byte → List Byte → ℤ
  | [], [] => 0
  | [], right :: _ => -(right.toNat : ℤ)
  | left :: _, [] => left.toNat
  | left :: lefts, right :: rights =>
      if left = right then compareBytes lefts rights
      else (left.toNat : ℤ) - right.toNat

def strcmp (left right : CString) : ℤ := compareBytes left.bytes right.bytes

/-- The unsigned values of the bytes, which decide the order of two strings. -/
private def values (string : CString) : List ℕ := string.bytes.map UInt8.toNat

private theorem values_injective : Function.Injective values := by
  rintro ⟨left, hleft⟩ ⟨right, hright⟩ hvalues
  have hinjective : Function.Injective UInt8.toNat := fun _ _ => UInt8.toNat_inj.mp
  simpa [values] using hinjective.list_map hvalues

instance : LinearOrder CString := LinearOrder.lift' values values_injective

private theorem toNat_pos_of_ne_zero {byte : Byte} (hbyte : byte ≠ 0) :
    0 < byte.toNat := by
  rcases Nat.eq_zero_or_pos byte.toNat with hzero | hpos
  · exact absurd (UInt8.toNat_inj.mp (by simpa using hzero)) hbyte
  · exact hpos

private theorem compareBytes_neg_iff {left right : List Byte}
    (hright : ∀ byte ∈ right, byte ≠ 0) :
    compareBytes left right < 0 ↔
      left.map UInt8.toNat < right.map UInt8.toNat := by
  induction left generalizing right with
  | nil =>
      cases right with
      | nil => simp [compareBytes]
      | cons byte bytes =>
          have hpos := toNat_pos_of_ne_zero (hright byte (by simp))
          simp only [compareBytes, List.map_nil, List.map_cons, List.nil_lt_cons, iff_true]
          omega
  | cons byte bytes ih =>
      cases right with
      | nil => simp [compareBytes]
      | cons other others =>
          simp only [compareBytes, List.map_cons, List.cons_lt_cons_iff]
          split_ifs with hsame
          · subst hsame
            simpa using ih (fun byte hbyte => hright byte (by simp [hbyte]))
          · have hvalue : byte.toNat ≠ other.toNat :=
              fun heq => hsame (UInt8.toNat_inj.mp heq)
            simp only [hvalue, false_and, or_false]
            omega

private theorem compareBytes_swap (left right : List Byte) :
    compareBytes right left = -compareBytes left right := by
  induction left generalizing right with
  | nil => cases right <;> simp [compareBytes]
  | cons byte bytes ih =>
      cases right with
      | nil => simp [compareBytes]
      | cons other others =>
          by_cases hsame : byte = other
          · simp [compareBytes, hsame, ih]
          · simp [compareBytes, hsame, Ne.symm hsame]

theorem strcmp_neg_iff {left right : CString} : strcmp left right < 0 ↔ left < right :=
  compareBytes_neg_iff right.noNul

theorem strcmp_pos_iff {left right : CString} : 0 < strcmp left right ↔ right < left := by
  rw [← strcmp_neg_iff, strcmp, strcmp, compareBytes_swap]
  omega

theorem strcmp_eq_zero_iff {left right : CString} : strcmp left right = 0 ↔ left = right := by
  constructor
  · intro hzero
    rcases lt_trichotomy left right with hlt | heq | hlt
    · have := strcmp_neg_iff.mpr hlt
      omega
    · exact heq
    · have := strcmp_pos_iff.mpr hlt
      omega
  · rintro rfl
    have hneg := (@strcmp_neg_iff left left).not.mpr (lt_irrefl left)
    have hpos := (@strcmp_pos_iff left left).not.mpr (lt_irrefl left)
    omega

end I2pLite.CBytes
