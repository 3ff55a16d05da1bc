import Mathlib.Data.List.GetD
import Mathlib.Data.Nat.Bits
import Mathlib.Tactic.IntervalCases
import I2pLite.Core.CInt
import I2pLite.Core.Memory

/-!
# Base64

`mnet_base64_encode` and `mnet_base64_decode` with the string functions over
them.  What is encoded is decoded to the same bytes.
-/

namespace I2pLite.Base64

open I2pLite.CRun
open I2pLite.CBytes
open I2pLite.CInt
open I2pLite.Memory

/-! ## The tables -/

def base64Chars : List Byte :=
  ['A', 'B', 'C', 'D', 'E', 'F', 'G', 'H',
   'I', 'J', 'K', 'L', 'M', 'N', 'O', 'P',
   'Q', 'R', 'S', 'T', 'U', 'V', 'W', 'X',
   'Y', 'Z', 'a', 'b', 'c', 'd', 'e', 'f',
   'g', 'h', 'i', 'j', 'k', 'l', 'm', 'n',
   'o', 'p', 'q', 'r', 's', 't', 'u', 'v',
   'w', 'x', 'y', 'z', '0', '1', '2', '3',
   '4', '5', '6', '7', '8', '9', '-', '~'].map ch

def mnetBase64Chars : List Byte :=
  "ABCDEFGHIJKLMNOPQRSTUVWXYZabcdefghijklmnopqrstuvwxyz0123456789-~".toList.map ch

theorem base64Chars_eq : base64Chars = mnetBase64Chars := by decide

/-- `T64[digit]`; every digit that is looked up is below 64. -/
def t64 (digit : Byte) : Byte := base64Chars.getD digit.toNat 0

def p64 : Byte := ch '='

/-- The entry of `iT64` that `iT64Build` leaves, as an unsigned byte. -/
def iT64 (byte : Byte) : Byte :=
  if byte = p64 then 0
  else
    match base64Chars.idxOf? byte with
    | some digit => UInt8.ofNat digit
    | none => 255

/-! ## Encoding -/

def digit1 (a : Byte) : Byte := a >>> (2 : Byte)

def digit2 (a b : Byte) : Byte := (a <<< (4 : Byte) &&& (0x30 : Byte)) ||| b >>> (4 : Byte)

def digit3 (b c : Byte) : Byte := ((b &&& (0x0f : Byte)) <<< (2 : Byte)) ||| c >>> (6 : Byte)

def digit4 (c : Byte) : Byte := c &&& (0x3f : Byte)

/-- The loop over groups of three bytes, and what is done with the last one or
two. -/
def encodeGroups : List Byte → List Byte
  | a :: b :: c :: rest =>
      t64 (digit1 a) :: t64 (digit2 a b) :: t64 (digit3 b c) :: t64 (digit4 c) ::
        encodeGroups rest
  | [a, b] =>
      [t64 (digit1 a), t64 ((a <<< (4 : Byte) &&& (0x3f : Byte)) ||| b >>> (4 : Byte)),
        t64 ((b &&& (0x0f : Byte)) <<< (2 : Byte)), p64]
  | [a] => [t64 (digit1 a), t64 (a <<< (4 : Byte) &&& (0x3f : Byte)), p64, p64]
  | [] => []

/-- The returned count, and the output buffer. -/
def base64Encode (inBuffer : List Byte) (inCount : ℕ) (outBuffer : List Byte) (len : ℕ) :
    Run (ℕ × List Byte) := do
  let n := toInt32 (inCount / 3 : ℕ)
  let m := inCount % 3
  let outCount := toSize (← inInt32 (if m = 0 then 4 * n else 4 * (n + 1)))
  if outCount > len then .ok (0, outBuffer)
  else do
    let bytes ← load inBuffer 0 (3 * n.toNat + m)
    let outBuffer ← store outBuffer 0 (encodeGroups bytes.toList)
    .ok (outCount, outBuffer)

/-- `div` takes its arguments as `int`. -/
def base64EncodingBufferSize (inputSize : ℕ) : Run ℕ := do
  let quot := (toInt32 inputSize).tdiv 3
  let rem := (toInt32 inputSize).tmod 3
  .ok (toSize (← inInt32 (4 * if rem ≠ 0 then quot + 1 else quot)))

def base64EncodeStr (buf : List Byte) (len : ℕ) : Run CString := do
  let outlen ← base64EncodingBufferSize len
  let (_, str) ← base64Encode buf len (List.replicate (outlen + 1) 0) outlen
  .ok (ofBuffer str)

/-! ## Decoding -/

def byte1 (d1 d2 : Byte) : Byte := d1 <<< (2 : Byte) ||| d2 >>> (4 : Byte)

def byte2 (d2 d3 : Byte) : Byte := d2 <<< (4 : Byte) ||| d3 >>> (2 : Byte)

def byte3 (d3 d4 : Byte) : Byte := d4 ||| d3 <<< (6 : Byte)

/-- How often `while(*ps-- == P64)` turns, from the last byte of the input
down.  Where there is nothing but padding it goes on in front of the input. -/
def paddingOf (inBuffer : List Byte) : Run ℕ :=
  if inBuffer.all (· = p64) then .error .outOfBounds
  else .ok (inBuffer.reverse.takeWhile (· = p64)).length

/-- The loop over groups of four digits.  It ends early behind the first or
second byte of a group, once `outCount` bytes are written. -/
def decodeGroups (outCount : ℕ) : List Byte → List Byte → List Byte
  | c1 :: c2 :: c3 :: c4 :: rest, written =>
      let written := written ++ [byte1 (iT64 c1) (iT64 c2)]
      if outCount ≤ written.length then written
      else
        let written := written ++ [byte2 (iT64 c2) (iT64 c3)]
        if outCount ≤ written.length then written
        else decodeGroups outCount rest (written ++ [byte3 (iT64 c3) (iT64 c4)])
  | _, written => written

def base64Decode (inBuffer : List Byte) (inCount : ℕ) (outBuffer : List Byte) (len : ℕ) :
    Run (ℕ × List Byte) :=
  let n := toInt32 (inCount / 4 : ℕ)
  let m := inCount % 4
  if inCount = 0 ∨ m ≠ 0 then .ok (0, outBuffer)
  else do
    let outCount ← inInt32 (3 * n)
    let bytes ← load inBuffer 0 inCount
    let padding ← paddingOf bytes.toList
    -- a `size_t`, which wraps around below zero
    let outCount := toSize (outCount - padding)
    if outCount > len then .ok (2 ^ 64 - 1, outBuffer)
    else
      let outBuffer ←
        store outBuffer 0 (decodeGroups outCount (bytes.toList.take (4 * n.toNat)) [])
      .ok (outCount, outBuffer)

/-- The returned size and what is stored to `*out`. -/
def base64DecodeStr (string : CString) : Run (ℕ × Option (List Byte)) := do
  let inlen := strlen string
  let (outlen, temp) ← base64Decode string.bytes inlen (List.replicate inlen 0) inlen
  if outlen ≠ 0 then .ok (outlen, some temp)
  else .ok (0, none)

/-! ## The digits of a group -/

section Digits

variable (a b c : Byte)

theorem digit1_lt : (digit1 a).toNat < 64 := by
  have := a.toNat_lt
  simp only [digit1, UInt8.toNat_shiftRight, Nat.shiftRight_eq_div_pow]
  change a.toNat / 4 < 64
  omega

theorem digit2_lt : (digit2 a b).toNat < 2 ^ 6 := by
  have := b.toNat_lt
  rw [digit2, UInt8.toNat_or]
  apply Nat.or_lt_two_pow
  · rw [UInt8.toNat_and]
    exact Nat.lt_of_le_of_lt Nat.and_le_right (by decide)
  · simp only [UInt8.toNat_shiftRight, Nat.shiftRight_eq_div_pow]
    change b.toNat / 16 < 64
    omega

theorem digit3_lt : (digit3 b c).toNat < 2 ^ 6 := by
  have := c.toNat_lt
  rw [digit3, UInt8.toNat_or]
  apply Nat.or_lt_two_pow
  · have hlow : (b &&& (0x0f : Byte)).toNat ≤ 15 := by
      rw [UInt8.toNat_and]
      exact Nat.and_le_right
    simp only [UInt8.toNat_shiftLeft, Nat.shiftLeft_eq]
    change (b &&& (0x0f : Byte)).toNat * 4 % 256 < 64
    omega
  · simp only [UInt8.toNat_shiftRight, Nat.shiftRight_eq_div_pow]
    change c.toNat / 64 < 64
    omega

theorem digit4_lt : (digit4 c).toNat < 64 := by
  rw [digit4, UInt8.toNat_and]
  exact Nat.lt_of_le_of_lt Nat.and_le_right (by decide)

theorem byte1_digits : byte1 (digit1 a) (digit2 a b) = a := by
  apply UInt8.toBitVec_inj.mp
  apply BitVec.eq_of_getLsbD_eq
  intro i hi
  interval_cases i <;> simp [byte1, digit1, digit2]

theorem byte2_digits : byte2 (digit2 a b) (digit3 b c) = b := by
  apply UInt8.toBitVec_inj.mp
  apply BitVec.eq_of_getLsbD_eq
  intro i hi
  interval_cases i <;> simp [byte2, digit2, digit3]

theorem byte3_digits : byte3 (digit3 b c) (digit4 c) = c := by
  apply UInt8.toBitVec_inj.mp
  apply BitVec.eq_of_getLsbD_eq
  intro i hi
  interval_cases i <;> simp [byte3, digit3, digit4]

/-- The wider mask of the last group selects the same bits. -/
theorem and_mask : a <<< (4 : Byte) &&& (0x3f : Byte) = a <<< (4 : Byte) &&& (0x30 : Byte) := by
  apply UInt8.toBitVec_inj.mp
  apply BitVec.eq_of_getLsbD_eq
  intro i hi
  interval_cases i <;> simp

theorem digit2_masked :
    (a <<< (4 : Byte) &&& (0x3f : Byte)) ||| b >>> (4 : Byte) = digit2 a b := by
  rw [and_mask, digit2]

theorem digit2_zero : a <<< (4 : Byte) &&& (0x3f : Byte) = digit2 a 0 := by
  rw [and_mask, digit2, UInt8.zero_shiftRight, UInt8.or_zero]

/-- The low bits of a second digit are those of the next byte. -/
theorem digit2_low : (digit2 a 0).toNat % 16 = 0 := by
  have hbits : digit2 a 0 = (a &&& (0x03 : Byte)) <<< (4 : Byte) := by
    apply UInt8.toBitVec_inj.mp
    apply BitVec.eq_of_getLsbD_eq
    intro i hi
    interval_cases i <;> simp [digit2]
  rw [hbits, UInt8.toNat_shiftLeft, Nat.shiftLeft_eq]
  change (a &&& (0x03 : Byte)).toNat * 16 % 256 % 16 = 0
  omega

theorem digit3_zero : (b &&& (0x0f : Byte)) <<< (2 : Byte) = digit3 b 0 := by
  rw [digit3, UInt8.zero_shiftRight, UInt8.or_zero]

end Digits

/-! ## The characters -/

theorem iT64_t64 {digit : Byte} (hdigit : digit.toNat < 64) : iT64 (t64 digit) = digit := by
  have htable : ∀ value < 64, iT64 (base64Chars.getD value 0) = UInt8.ofNat value := by decide
  rw [t64, htable _ hdigit, UInt8.ofNat_toNat]

theorem t64_mem {digit : Byte} (hdigit : digit.toNat < 64) : t64 digit ∈ base64Chars := by
  have hlength : base64Chars.length = 64 := by decide
  rw [t64, List.getD_eq_getElem _ _ (by omega)]
  exact List.getElem_mem _

theorem base64Chars_noNul : ∀ byte ∈ base64Chars, byte ≠ 0 := by
  have hall : base64Chars.all (· ≠ 0) = true := by decide
  simpa using List.all_eq_true.mp hall

theorem base64Chars_noPadding : ∀ byte ∈ base64Chars, byte ≠ p64 := by
  have hall : base64Chars.all (· ≠ p64) = true := by decide
  simpa using List.all_eq_true.mp hall

/-! ## Whole buffers -/

/-- What is encoded: characters of the table, then the padding.  The last
character has nothing but zeros beyond the bytes. -/
theorem exists_encodeGroups_eq (bytes : List Byte) :
    ∃ body padding, encodeGroups bytes = body ++ List.replicate padding p64 ∧
      (∀ byte ∈ body, byte ∈ base64Chars) ∧ (bytes ≠ [] → body ≠ []) ∧
      body.length + padding = 4 * ((bytes.length + 2) / 3) ∧
      bytes.length + padding = 3 * ((bytes.length + 2) / 3) ∧
      (iT64 (body.getLastD p64)).toNat % 4 ^ padding = 0 := by
  have hone := fun a => t64_mem (digit1_lt a)
  have htwo := fun a b => t64_mem (digit2_lt a b)
  have hthree := fun b c => t64_mem (digit3_lt b c)
  have hfour := fun c => t64_mem (digit4_lt c)
  fun_induction encodeGroups bytes with
  | case1 a b c rest ih =>
      obtain ⟨body, padding, heq, hbody, hne, hlength, hcount, hunused⟩ := ih
      refine ⟨t64 (digit1 a) :: t64 (digit2 a b) :: t64 (digit3 b c) :: t64 (digit4 c) :: body,
        padding, by simp only [heq, List.cons_append], ?_, by simp, ?_, ?_, ?_⟩
      · simp only [List.forall_mem_cons]
        exact ⟨hone a, htwo a b, hthree b c, hfour c, hbody⟩
      · simp only [List.length_cons]
        omega
      · simp only [List.length_cons]
        omega
      · cases body with
        | nil =>
            obtain rfl : rest = [] := by
              by_contra hrest
              exact hne hrest rfl
            obtain rfl : padding = 0 := by
              rw [List.length_nil] at hcount
              omega
            exact Nat.mod_one _
        | cons byte body => exact hunused
  | case2 a b =>
      refine ⟨[t64 (digit1 a), t64 (digit2 a b), t64 (digit3 b 0)], 1, ?_, ?_, by simp, by simp,
        by simp, ?_⟩
      · rw [digit2_masked, digit3_zero]
        rfl
      · simp only [List.forall_mem_cons]
        exact ⟨hone a, htwo a b, hthree b 0, List.forall_mem_nil _⟩
      · change (iT64 (t64 (digit3 b 0))).toNat % 4 = 0
        rw [iT64_t64 (digit3_lt b 0), ← digit3_zero, UInt8.toNat_shiftLeft, Nat.shiftLeft_eq]
        change (b &&& (0x0f : Byte)).toNat * 4 % 256 % 4 = 0
        omega
  | case3 a =>
      refine ⟨[t64 (digit1 a), t64 (digit2 a 0)], 2, ?_, ?_, by simp, by simp, by simp, ?_⟩
      · rw [digit2_zero]
        rfl
      · simp only [List.forall_mem_cons]
        exact ⟨hone a, htwo a 0, List.forall_mem_nil _⟩
      · change (iT64 (t64 (digit2 a 0))).toNat % 16 = 0
        rw [iT64_t64 (digit2_lt a 0), digit2_low]
  | case4 => exact ⟨[], 0, rfl, List.forall_mem_nil _, by simp, rfl, rfl, Nat.mod_one _⟩

theorem length_encodeGroups (bytes : List Byte) :
    (encodeGroups bytes).length = 4 * ((bytes.length + 2) / 3) := by
  obtain ⟨body, padding, heq, _, _, hlength, _⟩ := exists_encodeGroups_eq bytes
  rw [heq, List.length_append, List.length_replicate, hlength]

theorem encodeGroups_noNul (bytes : List Byte) : ∀ byte ∈ encodeGroups bytes, byte ≠ 0 := by
  obtain ⟨body, padding, heq, hbody, _⟩ := exists_encodeGroups_eq bytes
  intro byte hbyte
  rw [heq, List.mem_append, List.mem_replicate] at hbyte
  rcases hbyte with hbyte | ⟨_, rfl⟩
  · exact base64Chars_noNul byte (hbody byte hbyte)
  · decide

/-- The decoder's loop undoes the encoder's. -/
theorem decodeGroups_encodeGroups (bytes written : List Byte) :
    decodeGroups (written.length + bytes.length) (encodeGroups bytes) written =
      written ++ bytes := by
  fun_induction encodeGroups bytes generalizing written with
  | case1 a b c rest ih =>
      have hmany : ¬ written.length + (rest.length + 1 + 1 + 1) ≤ written.length + 1 + 1 := by omega
      have hmore : ¬ written.length + (rest.length + 1 + 1 + 1) ≤ written.length + 1 := by omega
      have hrest := ih (written ++ [a] ++ [b] ++ [c])
      simp only [decodeGroups, iT64_t64 (digit1_lt a), iT64_t64 (digit2_lt a b),
        iT64_t64 (digit3_lt b c), iT64_t64 (digit4_lt c), byte1_digits, byte2_digits,
        byte3_digits, List.length_append, List.length_cons, List.length_nil, Nat.zero_add,
        if_neg hmore, if_neg hmany] at hrest ⊢
      rw [show written.length + (rest.length + 1 + 1 + 1) =
        written.length + 1 + 1 + 1 + rest.length by omega, hrest]
      simp only [List.append_assoc, List.cons_append, List.nil_append]
  | case2 a b =>
      have hmore : ¬ written.length + (1 + 1) ≤ written.length + 1 := by omega
      rw [digit2_masked, digit3_zero]
      simp only [decodeGroups, iT64_t64 (digit1_lt a), iT64_t64 (digit2_lt a b),
        iT64_t64 (digit3_lt b 0), byte1_digits, byte2_digits, List.length_append,
        List.length_cons, List.length_nil, Nat.zero_add, if_neg hmore]
      rw [if_pos (by omega), List.append_assoc]
      rfl
  | case3 a =>
      rw [digit2_zero]
      simp only [decodeGroups, iT64_t64 (digit1_lt a), iT64_t64 (digit2_lt a 0), byte1_digits,
        List.length_append, List.length_cons, List.length_nil, if_pos le_rfl]
  | case4 => simp [decodeGroups]

theorem base64EncodingBufferSize_eq {inputSize : ℕ} (hsize : inputSize < 2 ^ 29) :
    base64EncodingBufferSize inputSize = .ok (4 * ((inputSize + 2) / 3)) := by
  have hint : toInt32 inputSize = inputSize := toInt32_of_lt (by omega) (by omega)
  have hquot : (4 * if (inputSize : ℤ).tmod 3 ≠ 0 then (inputSize : ℤ).tdiv 3 + 1
      else (inputSize : ℤ).tdiv 3) = (4 * ((inputSize + 2) / 3) : ℕ) := by
    rw [Int.tmod_eq_emod_of_nonneg (by omega), Int.tdiv_eq_ediv_of_nonneg (by omega)]
    split_ifs <;> omega
  rw [base64EncodingBufferSize, hint, hquot, inInt32_of_lt (by omega) (by omega), ok_bind,
    toSize_of_lt (by omega) (by omega), Int.toNat_natCast]

/-- Into a buffer that is long enough, the encoding is written to the front. -/
theorem base64Encode_eq {inBuffer outBuffer : List Byte} {inCount len : ℕ}
    (hin : inCount ≤ inBuffer.length) (hlen : 4 * ((inCount + 2) / 3) ≤ len)
    (hout : len ≤ outBuffer.length) (hcount : 4 * ((inCount + 2) / 3) < 2 ^ 31) :
    base64Encode inBuffer inCount outBuffer len =
      .ok (4 * ((inCount + 2) / 3), encodeGroups (inBuffer.take inCount) ++
        outBuffer.drop (4 * ((inCount + 2) / 3))) := by
  have hint : toInt32 (inCount / 3 : ℕ) = (inCount / 3 : ℕ) :=
    toInt32_of_lt (by omega) (by omega)
  have hsize : (if inCount % 3 = 0 then 4 * ((inCount / 3 : ℕ) : ℤ)
      else 4 * (((inCount / 3 : ℕ) : ℤ) + 1)) = (4 * ((inCount + 2) / 3) : ℕ) := by
    split_ifs <;> omega
  have hread : 3 * ((inCount / 3 : ℕ) : ℤ).toNat + inCount % 3 = inCount := by
    rw [Int.toNat_natCast]
    omega
  obtain ⟨bytes, hload, hbytes⟩ := exists_load inBuffer (show 0 + inCount ≤ _ by omega)
  rw [List.drop_zero] at hbytes
  have hlength : (encodeGroups (inBuffer.take inCount)).length = 4 * ((inCount + 2) / 3) := by
    rw [length_encodeGroups, List.length_take, Nat.min_eq_left hin]
  simp only [base64Encode]
  rw [hint, hsize, hread, inInt32_of_lt (by omega) (by omega), ok_bind,
    toSize_of_lt (by omega) (by omega), Int.toNat_natCast, if_neg (by omega), hload, ok_bind,
    hbytes, store_of_le (by omega), ok_bind, List.take_zero, List.nil_append, Nat.zero_add, hlength]

theorem base64EncodeStr_eq {buf : List Byte} {len : ℕ} (hlen : len ≤ buf.length)
    (hcount : len < 2 ^ 29) :
    base64EncodeStr buf len = .ok ⟨encodeGroups (buf.take len), encodeGroups_noNul _⟩ := by
  rw [base64EncodeStr, base64EncodingBufferSize_eq hcount, ok_bind,
    base64Encode_eq hlen le_rfl (by rw [List.length_replicate]; omega) (by omega), ok_bind]
  rw [List.drop_replicate, Nat.add_sub_cancel_left]
  exact congrArg Except.ok (ofBuffer_append_nul ⟨_, encodeGroups_noNul _⟩ [])

theorem paddingOf_encodeGroups {bytes : List Byte} (hbytes : bytes ≠ []) :
    paddingOf (encodeGroups bytes) = .ok (3 * ((bytes.length + 2) / 3) - bytes.length) := by
  obtain ⟨body, padding, heq, hbody, hne, _, hcount, _⟩ := exists_encodeGroups_eq bytes
  have hpad : ∀ byte ∈ body, byte ≠ p64 := fun byte hbyte =>
    base64Chars_noPadding byte (hbody byte hbyte)
  obtain ⟨before, last, rfl⟩ := (List.eq_nil_or_concat' body).resolve_left (hne hbytes)
  have hlast : last ≠ p64 := hpad last (by simp)
  rw [paddingOf, heq, if_neg, List.reverse_append, List.reverse_replicate,
    List.takeWhile_append_of_pos (by simp)]
  · rw [List.reverse_append, List.reverse_singleton, List.singleton_append,
      List.takeWhile_cons_of_neg (by simpa using hlast), List.append_nil, List.length_replicate]
    congr 1
    omega
  · simp [hlast]

/-- A string that encodes bytes is decoded to these. -/
theorem base64DecodeStr_encodeGroups {string : CString} {bytes : List Byte}
    (hstring : string.bytes = encodeGroups bytes) (hbytes : bytes ≠ [])
    (hlength : bytes.length < 2 ^ 29) :
    ∃ tail, base64DecodeStr string = .ok (bytes.length, some (bytes ++ tail)) := by
  have hpos := List.length_pos_iff.mpr hbytes
  have hinlen : strlen string = 4 * ((bytes.length + 2) / 3) := by
    rw [strlen, hstring, length_encodeGroups]
  obtain ⟨loaded, hload, hloaded⟩ :=
    exists_load string.bytes (show 0 + strlen string ≤ _ by rw [strlen]; omega)
  replace hloaded : loaded.toList = encodeGroups bytes := by
    rw [hloaded, List.drop_zero, ← hstring]
    exact List.take_length
  have hgroups : toInt32 (strlen string / 4 : ℕ) = ((bytes.length + 2) / 3 : ℕ) := by
    rw [hinlen, Nat.mul_div_cancel_left _ (by omega), toInt32_of_lt (by omega) (by omega)]
  have hcount : toSize (3 * ((bytes.length + 2) / 3 : ℕ) -
      (3 * ((bytes.length + 2) / 3) - bytes.length : ℕ)) = bytes.length := by
    rw [toSize_of_lt (by omega) (by omega)]
    omega
  have hall : (encodeGroups bytes).take (4 * (((bytes.length + 2) / 3 : ℕ) : ℤ).toNat) =
      encodeGroups bytes := by
    rw [Int.toNat_natCast, ← length_encodeGroups, List.take_length]
  have hdecoded := decodeGroups_encodeGroups bytes []
  rw [List.length_nil, Nat.zero_add, List.nil_append] at hdecoded
  refine ⟨List.drop bytes.length (List.replicate (strlen string) 0), ?_⟩
  rw [base64DecodeStr, base64Decode, if_neg (by omega), hgroups,
    inInt32_of_lt (by omega) (by omega), ok_bind, hload, ok_bind, hloaded,
    paddingOf_encodeGroups hbytes, ok_bind]
  dsimp only
  rw [hcount, if_neg (by omega), hall, hdecoded, store_of_le (by simp; omega)]
  simp only [ok_bind, List.take_zero, List.nil_append, Nat.zero_add]
  rw [if_pos (by omega)]

/-- Different bytes have different encodings. -/
theorem encodeGroups_injective : Function.Injective encodeGroups := by
  intro left right heq
  have hblocks := congrArg List.length heq
  rw [length_encodeGroups, length_encodeGroups] at hblocks
  have hlength : left.length = right.length := by
    by_cases hleft : left = []
    · subst hleft
      simp only [List.length_nil] at hblocks ⊢
      omega
    · have hright : right ≠ [] := by
        rintro rfl
        have := List.length_pos_iff.mpr hleft
        simp only [List.length_nil] at hblocks
        omega
      have hpadding := paddingOf_encodeGroups hleft
      rw [heq, paddingOf_encodeGroups hright, Except.ok.injEq] at hpadding
      omega
  have hdecoded := decodeGroups_encodeGroups left []
  rw [heq, hlength, decodeGroups_encodeGroups right []] at hdecoded
  exact hdecoded.symm

/-- The string of a nonempty buffer has the announced size; it is made of
characters of the table, but for the padding of a last group of one or two
bytes; and from it the buffer is decoded again. -/
theorem base64EncodeStr_decodes {b : List Byte} (hb : b ≠ []) (hlength : b.length < 2 ^ 29) :
    ∃ string, base64EncodeStr b b.length = .ok string ∧
      base64EncodingBufferSize b.length = .ok (strlen string) ∧
      (∃ body, (∀ byte ∈ body, byte ∈ mnetBase64Chars) ∧
        string.bytes = body ++ List.replicate ((3 - b.length % 3) % 3) p64) ∧
      ∃ tail, base64DecodeStr string = .ok (b.length, some (b ++ tail)) := by
  have hencode := base64EncodeStr_eq (le_refl b.length) hlength
  rw [List.take_length] at hencode
  refine ⟨_, hencode, ?_, ?_, base64DecodeStr_encodeGroups rfl hb hlength⟩
  · rw [base64EncodingBufferSize_eq hlength, strlen, length_encodeGroups]
  · obtain ⟨body, padding, heq, hbody, _, _, hcount, _⟩ := exists_encodeGroups_eq b
    obtain rfl : padding = (3 - b.length % 3) % 3 := by omega
    rw [base64Chars_eq] at hbody
    exact ⟨body, hbody, heq⟩

theorem base64EncodeStr_decodes_fiveBytes :
    ∃ string, base64EncodeStr [0, 1, 127, 254, 255] 5 = .ok string ∧
      base64EncodingBufferSize 5 = .ok (strlen string) ∧
      (∃ body, (∀ byte ∈ body, byte ∈ mnetBase64Chars) ∧
        string.bytes = body ++ List.replicate ((3 - 5 % 3) % 3) p64) ∧
      ∃ tail, base64DecodeStr string = .ok (5, some ([0, 1, 127, 254, 255] ++ tail)) :=
  base64EncodeStr_decodes (b := [0, 1, 127, 254, 255]) (by simp) (by simp)

end I2pLite.Base64
