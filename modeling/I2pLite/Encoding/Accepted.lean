import Mathlib.Data.List.DropRight
import I2pLite.Encoding.DecodeBounds

/-!
# Which strings the base64 decoder accepts

The decoder never asks its table whether a byte is a digit, so it accepts far
more than what the encoder writes.
-/

namespace I2pLite.Accepted

open I2pLite.CRun
open I2pLite.CBytes
open I2pLite.CInt
open I2pLite.Memory
open I2pLite.Base64
open I2pLite.DecodeBounds

/-! ## Canonical strings -/

/-- The input without the padding at its end. -/
def digitsOf (input : List Byte) : List Byte := input.rdropWhile (· = p64)

/-- Whole groups of digits of the alphabet; the last group has at most two times
padding, and what its last digit says beyond the bytes is zero. -/
structure Canonical (input : List Byte) : Prop where
  wholeGroups : input.length % 4 = 0
  alphabet : ∀ byte ∈ digitsOf input, byte ∈ base64Chars
  padding : paddingCount input ≤ 2
  unusedBits : (iT64 ((digitsOf input).getLastD p64)).toNat % 4 ^ paddingCount input = 0

theorem digitsOf_append_padding (input : List Byte) :
    digitsOf input ++ List.replicate (paddingCount input) p64 = input := by
  have htake : List.rtakeWhile (fun byte => decide (byte = p64)) input =
      List.replicate (paddingCount input) p64 := by
    apply List.eq_replicate_iff.mpr
    constructor
    · rw [List.rtakeWhile, List.length_reverse, paddingCount]
    · intro byte hbyte
      simpa using List.mem_rtakeWhile_imp hbyte
  rw [digitsOf, ← htake]
  exact List.rdropWhile_append_rtakeWhile

section Parts

variable {digits : List Byte} {padding : ℕ}

/-- Digits and padding are told apart at the last digit. -/
theorem parts_of_append (hlast : ∀ hne : digits ≠ [], digits.getLast hne ≠ p64) :
    digitsOf (digits ++ List.replicate padding p64) = digits ∧
      paddingCount (digits ++ List.replicate padding p64) = padding := by
  have hdigits : digitsOf (digits ++ List.replicate padding p64) = digits := by
    induction padding with
    | zero =>
        rw [List.replicate_zero, List.append_nil, digitsOf, List.rdropWhile_eq_self_iff]
        simpa using hlast
    | succ padding ih =>
        rw [List.replicate_succ', ← List.append_assoc, digitsOf,
          List.rdropWhile_concat_pos _ _ _ (by simp)]
        exact ih
  have hparts := digitsOf_append_padding (digits ++ List.replicate padding p64)
  rw [hdigits] at hparts
  have hlength := congrArg List.length (List.append_cancel_left hparts)
  rw [List.length_replicate, List.length_replicate] at hlength
  exact ⟨hdigits, hlength⟩

end Parts

/-! ## The bytes of canonical groups -/

section Groups

variable {d1 d2 d3 d4 : Byte}

/-- A digit has six bits. -/
theorem highBits_eq_false {digit : Byte} (hdigit : digit.toNat < 64) :
    digit.toBitVec[6] = false ∧ digit.toBitVec[7] = false := by
  have hhigh : ∀ i, 6 ≤ i → digit.toBitVec.getLsbD i = false := by
    intro i hi
    apply Nat.testBit_lt_two_pow
    calc digit.toBitVec.toNat
        < 2 ^ 6 := hdigit
      _ ≤ 2 ^ i := Nat.pow_le_pow_right (by omega) hi
  exact ⟨hhigh 6 (by omega), hhigh 7 (by omega)⟩

theorem digit1_byte1 (hd1 : d1.toNat < 64) (hd2 : d2.toNat < 64) :
    digit1 (byte1 d1 d2) = d1 := by
  apply UInt8.toBitVec_inj.mp
  apply BitVec.eq_of_getLsbD_eq
  intro i hi
  interval_cases i <;> simp [byte1, digit1, highBits_eq_false hd1, highBits_eq_false hd2]

theorem digit2_bytes (hd2 : d2.toNat < 64) (hd3 : d3.toNat < 64) :
    digit2 (byte1 d1 d2) (byte2 d2 d3) = d2 := by
  apply UInt8.toBitVec_inj.mp
  apply BitVec.eq_of_getLsbD_eq
  intro i hi
  interval_cases i <;> simp [byte1, byte2, digit2, highBits_eq_false hd2, highBits_eq_false hd3]

theorem digit3_bytes (hd3 : d3.toNat < 64) (hd4 : d4.toNat < 64) :
    digit3 (byte2 d2 d3) (byte3 d3 d4) = d3 := by
  apply UInt8.toBitVec_inj.mp
  apply BitVec.eq_of_getLsbD_eq
  intro i hi
  interval_cases i <;> simp [byte2, byte3, digit3, highBits_eq_false hd3, highBits_eq_false hd4]

theorem digit4_byte3 (hd4 : d4.toNat < 64) : digit4 (byte3 d3 d4) = d4 := by
  apply UInt8.toBitVec_inj.mp
  apply BitVec.eq_of_getLsbD_eq
  intro i hi
  interval_cases i <;> simp [byte3, digit4, highBits_eq_false hd4]

/-- The bits of a second digit that no byte takes are the front of the next byte. -/
theorem byte2_zero (hunused : d2.toNat % 4 ^ 2 = 0) : byte2 d2 0 = 0 := by
  rw [byte2, UInt8.zero_shiftRight, UInt8.or_zero, ← UInt8.toNat_inj, UInt8.toNat_shiftLeft,
    Nat.shiftLeft_eq]
  change d2.toNat * 16 % 256 = 0
  omega

theorem byte3_zero (hunused : d3.toNat % 4 ^ 1 = 0) : byte3 d3 0 = 0 := by
  rw [byte3, UInt8.zero_or, ← UInt8.toNat_inj, UInt8.toNat_shiftLeft, Nat.shiftLeft_eq]
  change d3.toNat * 64 % 256 = 0
  omega

end Groups

section Characters

variable {byte : Byte}

/-- The characters are those of the digits. -/
theorem exists_t64 (hbyte : byte ∈ base64Chars) :
    ∃ digit : Byte, digit.toNat < 64 ∧ t64 digit = byte := by
  obtain ⟨place, hplace, rfl⟩ := List.getElem_of_mem hbyte
  have hlength : base64Chars.length = 64 := by decide
  have hdigit : (UInt8.ofNat place).toNat = place := by
    rw [UInt8.toNat_ofNat']
    omega
  refine ⟨UInt8.ofNat place, by omega, ?_⟩
  rw [t64, hdigit, List.getD_eq_getElem _ _ hplace]

theorem iT64_lt (hbyte : byte ∈ base64Chars) : (iT64 byte).toNat < 64 := by
  obtain ⟨digit, hdigit, rfl⟩ := exists_t64 hbyte
  rwa [iT64_t64 hdigit]

theorem t64_iT64 (hbyte : byte ∈ base64Chars) : t64 (iT64 byte) = byte := by
  obtain ⟨digit, hdigit, rfl⟩ := exists_t64 hbyte
  rw [iT64_t64 hdigit]

end Characters

section Encodings

variable {c1 c2 c3 c4 : Byte}

theorem encodeGroups_of_four (hc1 : c1 ∈ base64Chars) (hc2 : c2 ∈ base64Chars)
    (hc3 : c3 ∈ base64Chars) (hc4 : c4 ∈ base64Chars) (bytes : List Byte) :
    encodeGroups (byte1 (iT64 c1) (iT64 c2) :: byte2 (iT64 c2) (iT64 c3) ::
        byte3 (iT64 c3) (iT64 c4) :: bytes) =
      c1 :: c2 :: c3 :: c4 :: encodeGroups bytes := by
  rw [encodeGroups, digit1_byte1 (iT64_lt hc1) (iT64_lt hc2),
    digit2_bytes (iT64_lt hc2) (iT64_lt hc3), digit3_bytes (iT64_lt hc3) (iT64_lt hc4),
    digit4_byte3 (iT64_lt hc4), t64_iT64 hc1, t64_iT64 hc2, t64_iT64 hc3, t64_iT64 hc4]

theorem encodeGroups_of_three (hc1 : c1 ∈ base64Chars) (hc2 : c2 ∈ base64Chars)
    (hc3 : c3 ∈ base64Chars) (hunused : (iT64 c3).toNat % 4 ^ 1 = 0) :
    encodeGroups [byte1 (iT64 c1) (iT64 c2), byte2 (iT64 c2) (iT64 c3)] = [c1, c2, c3, p64] := by
  have hdigit : digit3 (byte2 (iT64 c2) (iT64 c3)) (byte3 (iT64 c3) 0) = iT64 c3 :=
    digit3_bytes (iT64_lt hc3) (by decide)
  rw [byte3_zero hunused] at hdigit
  rw [encodeGroups, digit2_masked, digit3_zero, hdigit, digit1_byte1 (iT64_lt hc1) (iT64_lt hc2),
    digit2_bytes (iT64_lt hc2) (iT64_lt hc3), t64_iT64 hc1, t64_iT64 hc2, t64_iT64 hc3]

theorem encodeGroups_of_two (hc1 : c1 ∈ base64Chars) (hc2 : c2 ∈ base64Chars)
    (hunused : (iT64 c2).toNat % 4 ^ 2 = 0) :
    encodeGroups [byte1 (iT64 c1) (iT64 c2)] = [c1, c2, p64, p64] := by
  have hdigit : digit2 (byte1 (iT64 c1) (iT64 c2)) (byte2 (iT64 c2) 0) = iT64 c2 :=
    digit2_bytes (iT64_lt hc2) (by decide)
  rw [byte2_zero hunused] at hdigit
  rw [encodeGroups, digit2_zero, hdigit, digit1_byte1 (iT64_lt hc1) (iT64_lt hc2), t64_iT64 hc1,
    t64_iT64 hc2]

end Encodings

/-- A group that is not whole: there are two digits, or three of them. -/
theorem exists_encodeGroups_short {digits : List Byte} {padding groups : ℕ}
    (hshort : digits.length < 4) (halphabet : ∀ byte ∈ digits, byte ∈ base64Chars)
    (hlength : digits.length + padding = 4 * groups) (hpadding : padding ≤ 2)
    (hunused : (iT64 (digits.getLastD p64)).toNat % 4 ^ padding = 0) :
    ∃ bytes, encodeGroups bytes = digits ++ List.replicate padding p64 := by
  match digits with
  | [] =>
      rw [List.length_nil] at hlength
      obtain rfl : padding = 0 := by omega
      exact ⟨[], rfl⟩
  | [c1] =>
      rw [List.length_singleton] at hlength
      omega
  | [c1, c2] =>
      rw [List.length_cons, List.length_singleton] at hlength
      obtain rfl : padding = 2 := by omega
      have hc1 := halphabet c1 (by simp)
      have hc2 := halphabet c2 (by simp)
      exact ⟨_, encodeGroups_of_two hc1 hc2 hunused⟩
  | [c1, c2, c3] =>
      rw [List.length_cons, List.length_cons, List.length_singleton] at hlength
      obtain rfl : padding = 1 := by omega
      have hc1 := halphabet c1 (by simp)
      have hc2 := halphabet c2 (by simp)
      have hc3 := halphabet c3 (by simp)
      exact ⟨_, encodeGroups_of_three hc1 hc2 hc3 hunused⟩

/-- Canonical groups are what some bytes are encoded to. -/
theorem exists_encodeGroups {digits : List Byte} {padding groups : ℕ}
    (halphabet : ∀ byte ∈ digits, byte ∈ base64Chars)
    (hlength : digits.length + padding = 4 * groups) (hpadding : padding ≤ 2)
    (hunused : (iT64 (digits.getLastD p64)).toNat % 4 ^ padding = 0) :
    ∃ bytes, encodeGroups bytes = digits ++ List.replicate padding p64 := by
  fun_induction groupBytes digits generalizing groups with
  | case1 c1 c2 c3 c4 rest ih =>
      simp only [List.forall_mem_cons] at halphabet
      obtain ⟨hc1, hc2, hc3, hc4, hrest⟩ := halphabet
      simp only [List.length_cons] at hlength
      have hgroups : rest.length + padding = 4 * (groups - 1) := by omega
      obtain ⟨bytes, hbytes⟩ : ∃ bytes, encodeGroups bytes =
          rest ++ List.replicate padding p64 := by
        cases rest with
        | nil =>
            rw [List.length_nil] at hgroups
            obtain rfl : padding = 0 := by omega
            exact ⟨[], rfl⟩
        | cons c5 rest => exact ih hrest hgroups hunused
      refine ⟨_, (encodeGroups_of_four hc1 hc2 hc3 hc4 bytes).trans ?_⟩
      simp only [hbytes, List.cons_append]
  | case2 digits hshort =>
      exact exists_encodeGroups_short (length_lt_four hshort) halphabet hlength hpadding hunused

section Image

variable {input : List Byte}

/-- The canonical strings are the encodings. -/
theorem canonical_iff (hdigit : ∃ byte ∈ input, byte ≠ p64) :
    Canonical input ↔ ∃ bytes, bytes ≠ [] ∧ encodeGroups bytes = input := by
  constructor
  · rintro ⟨hgroups, halphabet, hpadding, hunused⟩
    have hparts := digitsOf_append_padding input
    have hlength : (digitsOf input).length + paddingCount input = 4 * (input.length / 4) := by
      have hlength := congrArg List.length hparts
      rw [List.length_append, List.length_replicate] at hlength
      omega
    obtain ⟨bytes, hbytes⟩ := exists_encodeGroups halphabet hlength hpadding hunused
    rw [hparts] at hbytes
    refine ⟨bytes, ?_, hbytes⟩
    rintro rfl
    obtain ⟨byte, hbyte, _⟩ := hdigit
    rw [← hbytes] at hbyte
    cases hbyte
  · rintro ⟨bytes, hbytes, rfl⟩
    obtain ⟨body, padding, heq, hbody, _, hlength, hcount, hunused⟩ :=
      exists_encodeGroups_eq bytes
    have hlast : ∀ hne : body ≠ [], body.getLast hne ≠ p64 := fun hne =>
      base64Chars_noPadding _ (hbody _ (List.getLast_mem hne))
    obtain ⟨hdigits, hpadding⟩ := @parts_of_append body padding hlast
    refine ⟨?_, ?_, ?_, ?_⟩
    · rw [length_encodeGroups]
      omega
    · rw [heq, hdigits]
      exact hbody
    · rw [heq, hpadding]
      omega
    · rw [heq, hdigits, hpadding]
      exact hunused

/-- What the encoder writes for some buffer that is not empty. -/
def Encoding (input : List Byte) : Prop :=
  ∃ inBuffer outBuffer written : List Byte,
    inBuffer ≠ [] ∧ inBuffer.length < 2 ^ 63 ∧ outBuffer.length < 2 ^ 63 ∧
      base64Encode inBuffer inBuffer.length outBuffer outBuffer.length =
        .ok (input.length, written) ∧
      written.take input.length = input

theorem exists_of_base64Encode {inBuffer outBuffer written : List Byte} {inCount : ℕ}
    (hout : outBuffer.length < 2 ^ 63) (hne : input ≠ [])
    (hencode : base64Encode inBuffer inCount outBuffer outBuffer.length =
      .ok (input.length, written)) (hwritten : written.take input.length = input) :
    (∃ bytes, encodeGroups bytes = input) ∧ input.length < 2 ^ 31 := by
  have hpos := List.length_pos_iff.mpr hne
  simp only [base64Encode] at hencode
  generalize hn : toInt32 (inCount / 3 : ℕ) = n at hencode
  obtain ⟨size, hint, hencode⟩ := bind_eq_ok.mp hencode
  obtain ⟨rfl, hlow, hhigh⟩ := inInt32_eq_ok_iff.mp hint
  generalize hsize : (if inCount % 3 = 0 then 4 * n else 4 * (n + 1)) = size at hencode hlow hhigh
  split_ifs at hencode with hover
  · have := (ok_pair_inj hencode).1
    omega
  obtain ⟨bytes, hload, hencode⟩ := bind_eq_ok.mp hencode
  obtain ⟨outBuffer', hstore, hresult⟩ := bind_eq_ok.mp hencode
  obtain ⟨hcount, rfl⟩ := ok_pair_inj hresult
  have hbytes := List.Vector.toList_length bytes
  have hlength : (encodeGroups bytes.toList).length = input.length := by
    rw [length_encodeGroups, hbytes]
    rw [toSize] at hcount hover
    split_ifs at hsize <;> omega
  refine ⟨⟨bytes.toList, ?_⟩, by rw [toSize] at hcount hover; omega⟩
  rw [← hwritten, (store_eq_ok hstore).1, List.take_zero, List.nil_append, ← hlength,
    List.take_left]

/-- The size of an encoding is computed as an `int`. -/
theorem encoding_iff (hdigit : ∃ byte ∈ input, byte ≠ p64) :
    Encoding input ↔ Canonical input ∧ input.length < 2 ^ 31 := by
  have hne : input ≠ [] := by
    obtain ⟨byte, hbyte, _⟩ := hdigit
    exact List.ne_nil_of_mem hbyte
  rw [canonical_iff hdigit]
  constructor
  · rintro ⟨inBuffer, outBuffer, written, hin, hinlen, houtlen, hencode, hwritten⟩
    obtain ⟨⟨bytes, rfl⟩, hlength⟩ := exists_of_base64Encode houtlen hne hencode hwritten
    refine ⟨⟨bytes, ?_, rfl⟩, hlength⟩
    rintro rfl
    exact hne rfl
  · rintro ⟨⟨bytes, hbytes, rfl⟩, hlength⟩
    rw [length_encodeGroups] at hlength
    refine ⟨bytes, List.replicate (4 * ((bytes.length + 2) / 3)) 0, encodeGroups bytes, hbytes,
      by omega, by rw [List.length_replicate]; omega, ?_, List.take_length⟩
    rw [List.length_replicate, base64Encode_eq le_rfl le_rfl (List.length_replicate).ge hlength,
      List.take_length, List.drop_replicate, Nat.sub_self, List.replicate_zero, List.append_nil,
      length_encodeGroups]

end Image

/-! ## Accepted strings -/

/-- A string with something before the padding, and room for all its groups. -/
structure Taken (input outBuffer : List Byte) : Prop where
  digit : ∃ byte ∈ input, byte ≠ p64
  capacity : 3 * (input.length / 4) ≤ outBuffer.length
  size : input.length + outBuffer.length < 2 ^ 63

/-- A positive size is returned exactly for what the encoder writes. -/
def AcceptsRightly (input outBuffer : List Byte) : Prop :=
  ∃ count buffer, base64Decode input input.length outBuffer outBuffer.length =
    .ok (count, buffer) ∧ (0 < count ↔ Encoding input)

def DecodesTo (input outBuffer bytes : List Byte) : Prop :=
  ∃ buffer, base64Decode input input.length outBuffer outBuffer.length =
    .ok (bytes.length, buffer) ∧ buffer.take bytes.length = bytes

/-- No other string is decoded to the same bytes. -/
def SoleForm (input outBuffer : List Byte) : Prop :=
  ∀ bytes other otherBuffer : List Byte, bytes ≠ [] → DecodesTo input outBuffer bytes →
    Taken other otherBuffer → DecodesTo other otherBuffer bytes → other = input

section Acceptance

variable {input outBuffer : List Byte}

theorem Taken.not_refused (htaken : Taken input outBuffer) (hgroups : input.length % 4 = 0) :
    ¬ (input.length = 0 ∨ input.length % 4 ≠ 0) := by
  obtain ⟨byte, hbyte, _⟩ := htaken.digit
  have := List.length_pos_of_mem hbyte
  omega

/-- Where `3 * n` is an `int` the decoder returns, and zero only where the padding
takes away all the bytes. -/
theorem exists_decode (htaken : Taken input outBuffer) (hgroups : input.length % 4 = 0)
    (hlow : -2 ^ 31 ≤ 3 * groupCount input) (hhigh : 3 * groupCount input < 2 ^ 31) :
    ∃ count buffer, base64Decode input input.length outBuffer outBuffer.length =
        .ok (count, buffer) ∧ (0 < count ↔ 3 * groupCount input ≠ paddingCount input) := by
  have hpadding := paddingCount_le input
  have hcount := groupCount_le input
  have hcapacity := htaken.capacity
  have hsize := htaken.size
  rw [base64Decode_eq (htaken.not_refused hgroups), inInt32_of_lt hlow hhigh, ok_bind,
    paddingOf_eq_ok_iff.mpr ⟨htaken.digit, rfl⟩, ok_bind]
  split_ifs with hover
  · refine ⟨_, _, rfl, iff_of_true (by omega) fun heq => ?_⟩
    rw [heq, sub_self, toSize] at hover
    omega
  · have hfits : (decodedBytes input (toSize (3 * groupCount input - paddingCount input))).length ≤
        outBuffer.length := by
      have := writtenCount_le (toSize (3 * groupCount input - paddingCount input))
        (3 * (groupCount input).toNat)
      rw [length_decodedBytes]
      omega
    rw [store_of_le (by omega), ok_bind]
    refine ⟨_, _, rfl, ?_⟩
    rw [toSize]
    omega

theorem int_of_decode {count : ℕ} {buffer : List Byte} (htaken : Taken input outBuffer)
    (hgroups : input.length % 4 = 0)
    (hdecode : base64Decode input input.length outBuffer outBuffer.length = .ok (count, buffer)) :
    -2 ^ 31 ≤ 3 * groupCount input ∧ 3 * groupCount input < 2 ^ 31 := by
  rw [base64Decode_eq (htaken.not_refused hgroups)] at hdecode
  obtain ⟨size, hint, _⟩ := bind_eq_ok.mp hdecode
  exact (inInt32_eq_ok_iff.mp hint).2

/-- Canonical groups are more than their padding. -/
theorem padding_lt_of_canonical (htaken : Taken input outBuffer) (hcanonical : Canonical input)
    (hlength : input.length < 2 ^ 31) :
    (paddingCount input : ℤ) < 3 * groupCount input ∧ 3 * groupCount input < 2 ^ 31 := by
  obtain ⟨byte, hbyte, _⟩ := htaken.digit
  have hpos := List.length_pos_of_mem hbyte
  have hwhole := hcanonical.wholeGroups
  have hpadding := hcanonical.padding
  rw [groupCount, toInt32_of_lt (by omega) (by omega)]
  omega

theorem acceptsRightly_iff (htaken : Taken input outBuffer) :
    AcceptsRightly input outBuffer ↔
      input.length % 4 ≠ 0 ∨ Canonical input ∧ input.length < 2 ^ 31 ∨
        3 * groupCount input = paddingCount input ∧ paddingCount input < 2 ^ 31 := by
  rw [AcceptsRightly, encoding_iff htaken.digit]
  by_cases hgroups : input.length % 4 = 0
  · rw [or_iff_right (not_not.mpr hgroups)]
    constructor
    · rintro ⟨count, buffer, hdecode, haccepts⟩
      obtain ⟨hlow, hhigh⟩ := int_of_decode htaken hgroups hdecode
      obtain ⟨count', buffer', hdecode', hpositive⟩ := exists_decode htaken hgroups hlow hhigh
      obtain ⟨rfl, _⟩ := ok_pair_inj (hdecode.symm.trans hdecode')
      by_cases heq : 3 * groupCount input = paddingCount input
      · exact Or.inr ⟨heq, by omega⟩
      · exact Or.inl (haccepts.mp (hpositive.mpr heq))
    · rintro (⟨hcanonical, hlength⟩ | ⟨heq, hint⟩)
      · obtain ⟨hpadding, hhigh⟩ := padding_lt_of_canonical htaken hcanonical hlength
        obtain ⟨count, buffer, hdecode, hpositive⟩ :=
          exists_decode htaken hgroups (by omega) hhigh
        exact ⟨count, buffer, hdecode,
          iff_of_true (hpositive.mpr hpadding.ne') ⟨hcanonical, hlength⟩⟩
      · obtain ⟨count, buffer, hdecode, hpositive⟩ :=
          exists_decode htaken hgroups (by omega) (by omega)
        refine ⟨count, buffer, hdecode, iff_of_false (fun hcount => hpositive.mp hcount heq) ?_⟩
        rintro ⟨hcanonical, hlength⟩
        exact (padding_lt_of_canonical htaken hcanonical hlength).1.ne' heq
  · refine iff_of_true ⟨0, outBuffer, ?_, iff_of_false (by omega) ?_⟩ (Or.inl hgroups)
    · exact base64Decode_of_refused (Or.inr hgroups) outBuffer
    · exact fun hcanonical => hgroups hcanonical.1.wholeGroups

/-- What a string is decoded to: the front of the bytes of its groups. -/
theorem decodesTo_iff {bytes : List Byte} (htaken : Taken input outBuffer) (hbytes : bytes ≠ []) :
    DecodesTo input outBuffer bytes ↔
      input.length % 4 = 0 ∧ 3 * groupCount input < 2 ^ 31 ∧
        (paddingCount input : ℤ) < 3 * groupCount input ∧
        bytes = (groupBytes input).take (3 * groupCount input - paddingCount input).toNat := by
  have hpositive := List.length_pos_iff.mpr hbytes
  have hsize := htaken.size
  have hcapacity := htaken.capacity
  have hgroups := groupCount_le input
  constructor
  · rintro ⟨buffer, hdecode, htake⟩
    have hwhole : input.length % 4 = 0 := by
      by_contra hcut
      have := (ok_pair_inj
        ((base64Decode_of_refused (Or.inr hcut) outBuffer).symm.trans hdecode)).1
      omega
    have hlow := (int_of_decode htaken hwhole hdecode).1
    have hpadding := paddingCount_le input
    obtain ⟨hhigh, _, ⟨_, hlarge, rfl⟩ | ⟨hcount, hfits, hstore⟩⟩ :=
      base64Decode_eq_ok (htaken.not_refused hwhole) hdecode
    · have hlength := congrArg List.length htake
      rw [List.length_take] at hlength
      omega
    · have hle : (paddingCount input : ℤ) < 3 * groupCount input := by
        rw [toSize] at hcount
        omega
      rw [toSize_of_lt (by omega) (by omega)] at hcount
      have hbuffer := (store_eq_ok hstore).1
      rw [List.take_zero, List.nil_append] at hbuffer
      have hfront := (take_decodedBytes (show (bytes.length : ℤ) ≤ 3 * groupCount input by omega)
        (outBuffer.drop (0 + (decodedBytes input bytes.length).length))).2
      rw [← hbuffer, htake, hcount] at hfront
      exact ⟨hwhole, hhigh, hle, hfront⟩
  · rintro ⟨hwhole, hhigh, hle, hfront⟩
    have hcount : bytes.length = (3 * groupCount input - paddingCount input).toNat := by
      rw [hfront, List.length_take, length_groupBytes]
      omega
    have hwritten := writtenCount_le bytes.length (3 * (groupCount input).toNat)
    rw [DecodesTo, base64Decode_of_balanced (htaken.not_refused hwhole) (by omega)
      ⟨hhigh, htaken.digit, hle.le⟩ (by omega), ← hcount]
    simp only []
    rw [store_of_le (by rw [length_decodedBytes]; omega), ok_bind, List.take_zero, List.nil_append]
    refine ⟨_, rfl, ?_⟩
    rw [(take_decodedBytes (show (bytes.length : ℤ) ≤ 3 * groupCount input by omega) _).2, hcount,
      ← hfront]

end Acceptance

/-! ## Other strings for the same bytes -/

section OtherForms

variable {input outBuffer : List Byte} {fill : Byte}

/-- The groups of the input, and as many more as an `int` does not count, in
front of the same padding. -/
def otherForm (input : List Byte) (fill : Byte) : List Byte :=
  input.take (4 * (groupCount input).toNat) ++
    List.replicate (2 ^ 34 - paddingCount input) fill ++ List.replicate (paddingCount input) p64

theorem groupBytes_otherForm :
    (groupBytes (otherForm input fill)).take (3 * (groupCount input).toNat) =
      (groupBytes input).take (3 * (groupCount input).toNat) := by
  have hgroups := groupCount_le input
  have hinput : (input.take (4 * (groupCount input).toNat)).length =
      4 * (groupCount input).toNat := by
    rw [List.length_take]
    omega
  rw [← groupBytes_take, ← groupBytes_take, otherForm, List.append_assoc, List.take_left' hinput]

variable (hpadding : (paddingCount input : ℤ) < 3 * groupCount input)
  (hrange : 3 * groupCount input < 2 ^ 31)

include hpadding hrange

theorem length_otherForm :
    (otherForm input fill).length = 4 * (groupCount input).toNat + 2 ^ 34 := by
  have hgroups := groupCount_le input
  rw [otherForm, List.length_append, List.length_append, List.length_take, List.length_replicate,
    List.length_replicate]
  omega

theorem groupCount_otherForm : groupCount (otherForm input fill) = groupCount input := by
  have hlength := @length_otherForm input fill hpadding hrange
  have hgroups : (((otherForm input fill).length / 4 : ℕ) : ℤ) =
      groupCount input + 1 * 2 ^ 32 := by
    rw [hlength]
    omega
  rw [groupCount, hgroups, toInt32, Int.bmod_def]
  omega

theorem paddingCount_otherForm (hfill : fill ≠ p64) :
    paddingCount (otherForm input fill) = paddingCount input := by
  refine (parts_of_append fun hne => ?_).2
  have hmore : List.replicate (2 ^ 34 - paddingCount input) fill ≠ [] := by
    rw [Ne, List.replicate_eq_nil_iff]
    omega
  rw [List.getLast_append_of_ne_nil _ hmore, List.getLast_replicate]
  exact hfill

/-- The additional groups change nothing of what is decoded. -/
theorem decodesTo_otherForm {bytes : List Byte} (hfill : fill ≠ p64) (hbytes : bytes ≠ [])
    (htaken : Taken input outBuffer) (hdecodes : DecodesTo input outBuffer bytes) :
    ∃ otherBuffer, Taken (otherForm input fill) otherBuffer ∧
      DecodesTo (otherForm input fill) otherBuffer bytes := by
  have hlength := @length_otherForm input fill hpadding hrange
  have hdigit : fill ∈ otherForm input fill := by
    refine List.mem_append_left _ (List.mem_append_right _ (List.mem_replicate.mpr ⟨?_, rfl⟩))
    omega
  have hother : Taken (otherForm input fill)
      (List.replicate (3 * ((otherForm input fill).length / 4)) 0) := by
    refine ⟨⟨fill, hdigit, hfill⟩, (List.length_replicate).ge, ?_⟩
    rw [List.length_replicate]
    omega
  refine ⟨_, hother, ?_⟩
  obtain ⟨_, _, _, hfront⟩ := (decodesTo_iff htaken hbytes).mp hdecodes
  rw [decodesTo_iff hother hbytes, groupCount_otherForm hpadding hrange,
    paddingCount_otherForm hpadding hrange hfill]
  refine ⟨by omega, hrange, hpadding, ?_⟩
  have hgroups := congrArg
    (List.take (3 * groupCount input - paddingCount input).toNat)
    (@groupBytes_otherForm input fill)
  rw [List.take_take, List.take_take, Nat.min_eq_left (by omega)] at hgroups
  rw [hfront, hgroups]

end OtherForms

theorem otherForm_ne {input : List Byte} (hpadding : paddingCount input < 2 ^ 34) :
    otherForm input (ch 'A') ≠ otherForm input (ch 'B') := by
  intro heq
  have hfill := List.append_cancel_left (List.append_cancel_right heq)
  obtain ⟨_, hzero | hfill⟩ := List.replicate_inj.mp hfill
  · omega
  · exact absurd hfill (by decide)

/-- Whatever is decoded at all has another form. -/
theorem soleForm_iff {input outBuffer : List Byte} (htaken : Taken input outBuffer) :
    SoleForm input outBuffer ↔
      input.length % 4 ≠ 0 ∨ 2 ^ 31 ≤ 3 * groupCount input ∨
        3 * groupCount input ≤ paddingCount input := by
  constructor
  · intro hsole
    by_contra! hdecoded
    obtain ⟨hwhole, hrange, hpadding⟩ := hdecoded
    have hgroups := groupCount_le input
    generalize hbytes : (groupBytes input).take
      (3 * groupCount input - paddingCount input).toNat = bytes
    have hne : bytes ≠ [] := by
      rw [← List.length_pos_iff, ← hbytes, List.length_take, length_groupBytes]
      omega
    have hdecodes := (decodesTo_iff htaken hne).mpr ⟨hwhole, hrange, hpadding, hbytes.symm⟩
    have hforms : ∀ fill ≠ p64, otherForm input fill = input := by
      intro fill hfill
      obtain ⟨otherBuffer, hother, hothers⟩ :=
        decodesTo_otherForm hpadding hrange hfill hne htaken hdecodes
      exact hsole bytes _ otherBuffer hne hdecodes hother hothers
    apply @otherForm_ne input (by omega)
    rw [hforms (ch 'A') (by decide), hforms (ch 'B') (by decide)]
  · intro hrefused bytes other otherBuffer hne hdecodes
    obtain ⟨hwhole, hrange, hpadding, _⟩ := (decodesTo_iff htaken hne).mp hdecodes
    rcases hrefused with hcut | hlarge | hnothing
    · exact absurd hwhole hcut
    · omega
    · omega

/-- The encodings are the canonical strings of a size that is an `int`.  Of other
strings of whole groups the decoder refuses only those with as much padding as
there are bytes; and no string that it decodes is the only one for its bytes. -/
theorem base64Decode_accepts_iff (input outBuffer : List Byte) (htaken : Taken input outBuffer) :
    (Encoding input ↔ Canonical input ∧ input.length < 2 ^ 31) ∧
    (AcceptsRightly input outBuffer ↔
      input.length % 4 ≠ 0 ∨ Canonical input ∧ input.length < 2 ^ 31 ∨
        3 * groupCount input = paddingCount input ∧ paddingCount input < 2 ^ 31) ∧
    (SoleForm input outBuffer ↔
      input.length % 4 ≠ 0 ∨ 2 ^ 31 ≤ 3 * groupCount input ∨
        3 * groupCount input ≤ paddingCount input) :=
  ⟨encoding_iff htaken.digit, acceptsRightly_iff htaken, soleForm_iff htaken⟩

/-- One digit of padding. -/
def paddedInput : List Byte := List.replicate 7 (ch 'A') ++ [p64]

theorem base64Decode_accepts_iff_padded :
    (Encoding paddedInput ↔ Canonical paddedInput ∧ paddedInput.length < 2 ^ 31) ∧
    (AcceptsRightly paddedInput (List.replicate 6 0) ↔
      paddedInput.length % 4 ≠ 0 ∨ Canonical paddedInput ∧ paddedInput.length < 2 ^ 31 ∨
        3 * groupCount paddedInput = paddingCount paddedInput ∧
          paddingCount paddedInput < 2 ^ 31) ∧
    (SoleForm paddedInput (List.replicate 6 0) ↔
      paddedInput.length % 4 ≠ 0 ∨ 2 ^ 31 ≤ 3 * groupCount paddedInput ∨
        3 * groupCount paddedInput ≤ paddingCount paddedInput) :=
  base64Decode_accepts_iff paddedInput (List.replicate 6 0)
    ⟨⟨ch 'A', by decide, by decide⟩, by decide, by decide⟩

/-- A byte outside of the alphabet is decoded, and so are two strings that differ
in the unused bits of their last digit, to the same byte. -/
theorem not_acceptsRightly_mark :
    ¬ AcceptsRightly (List.replicate 4 (ch '!')) [0, 0, 0] ∧
      ∃ bytes, bytes ≠ [] ∧ DecodesTo [ch 'A', ch 'A', p64, p64] [0, 0, 0] bytes ∧
        DecodesTo [ch 'A', ch 'B', p64, p64] [0, 0, 0] bytes := by
  have htaken : Taken (List.replicate 4 (ch '!')) [0, 0, 0] :=
    ⟨⟨ch '!', by decide, by decide⟩, by decide, by simp⟩
  refine ⟨?_, [0], by simp, ⟨[0, 0, 0], rfl, rfl⟩, ⟨[0, 0, 0], rfl, rfl⟩⟩
  rw [acceptsRightly_iff htaken]
  rintro (hcut | ⟨hcanonical, _⟩ | ⟨heq, _⟩)
  · exact hcut (by decide)
  · exact absurd (hcanonical.alphabet (ch '!') (by decide)) (by decide)
  · revert heq
    decide

end I2pLite.Accepted
