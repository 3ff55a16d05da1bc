import Mathlib.Data.Vector.Basic
import I2pLite.Core.BitString
import I2pLite.Core.Memory

/-!
# Base32

The encoder shifts byte after byte into an `int` and never clears the bits that
have been written.  They leave it at its top, and what is read from it is at
most the 12 bits at its bottom.
-/

namespace I2pLite.Base32

open I2pLite.CRun
open I2pLite.CBytes
open I2pLite.Memory
open I2pLite.BitString

/-! ## The code -/

/-- The character of an index, without a look at `T32`. -/
def indexChar (ind : ℕ) : Byte :=
  if ind < 26 then UInt8.ofNat ind + ch 'a' else UInt8.ofNat (ind - 26) + ch '2'

/-- From the top of the loop: `pos`, `bits` and `tmp` with at least 5 pending
bits. -/
def refill (inBuf : List Byte) (len pos bits : ℕ) (tmp : BitVec 32) : Run (ℕ × ℕ × BitVec 32) :=
  if bits < 5 then
    if pos < len then do
      let byte ← load inBuf pos 1
      .ok (pos + 1, bits + 8, tmp <<< 8 ||| (BitVec.ofNat 32 byte.head.toNat &&& 0xFF))
    else .ok (pos, 5, tmp <<< (5 - bits))
  else .ok (pos, bits, tmp)

/-- The loop of `mnet_base32_encode`. -/
def encodeLoop (inBuf : List Byte) (len outLen : ℕ) :
    ℕ → ℕ → ℕ → ℕ → BitVec 32 → List Byte → Run (ℕ × List Byte)
  | 0, _, _, _, _, _ => .error .outOfFuel
  | fuel + 1, ret, pos, bits, tmp, outBuf =>
      if ret < outLen ∧ (0 < bits ∨ pos < len) then do
        let (pos, bits, tmp) ← refill inBuf len pos bits tmp
        let bits := bits - 5
        let ind := (tmp.sshiftRight bits &&& 0x1F).toNat
        let outBuf ← store outBuf ret [indexChar ind]
        encodeLoop inBuf len outLen fuel (ret + 1) pos bits tmp outBuf
      else .ok (ret, outBuf)

def mnetBase32Encode (fuel : ℕ) (inBuf : List Byte) (len : ℕ) (outBuf : List Byte) (outLen : ℕ) :
    Run (ℕ × List Byte) := do
  let first ← load inBuf 0 1
  encodeLoop inBuf len outLen fuel 0 1 8 (BitVec.ofNat 32 first.head.toNat) outBuf

/-! ## What is to be written -/

def t32 : List Byte :=
  ['a', 'b', 'c', 'd', 'e', 'f', 'g', 'h',
   'i', 'j', 'k', 'l', 'm', 'n', 'o', 'p',
   'q', 'r', 's', 't', 'u', 'v', 'w', 'x',
   'y', 'z', '2', '3', '4', '5', '6', '7'].map ch

/-- The bits of the bytes, one byte after the other. -/
def bitsOfBytes (bytes : List Byte) : List Bool := bytes.flatMap fun byte => bitsOf 8 byte.toNat

/-- Groups of 5 bits, the last one filled with zeros, each as the digit of its
value. -/
def digits (bits : List Bool) : List Byte :=
  (groups 5 bits).map fun group => t32.getD (valueOf group) 0

/-- The base32 encoding in lower case, without padding. -/
def base32 (bytes : List Byte) : List Byte := digits (bitsOfBytes bytes)

theorem indexChar_eq {ind : ℕ} (hind : ind < 32) : indexChar ind = t32.getD ind 0 := by
  revert ind
  decide

theorem length_bitsOfBytes (bytes : List Byte) : (bitsOfBytes bytes).length = 8 * bytes.length := by
  induction bytes with
  | nil => rfl
  | cons byte bytes ih =>
      rw [bitsOfBytes, List.flatMap_cons, List.length_append, length_bitsOf, ← bitsOfBytes, ih,
        List.length_cons]
      ring

theorem length_base32 (bytes : List Byte) :
    (base32 bytes).length = (8 * bytes.length + 4) / 5 := by
  rw [base32, digits, List.length_map, length_groups, length_bitsOfBytes, groupsFor]

/-! ## Pending bits -/

/-- The low bits of `tmp` that have not been written. -/
structure Pending (bits : ℕ) (tmp : BitVec 32) (pending : List Bool) : Prop where
  length : pending.length = bits
  value : valueOf pending = tmp.toNat % 2 ^ bits

section Shifts

variable {bits : ℕ} {tmp : BitVec 32} {pending : List Bool}

/-- The low bits of a shift to the right are those of a quotient, whatever the
sign is. -/
theorem toNat_sshiftRight_and (tmp : BitVec 32) {count : ℕ} (hcount : count ≤ 27) :
    (tmp.sshiftRight count &&& 0x1F).toNat = tmp.toNat / 2 ^ count % 32 := by
  have hshift : tmp.sshiftRight count &&& 0x1F = tmp >>> count &&& 0x1F := by
    apply BitVec.eq_of_getLsbD_eq
    intro i hi
    by_cases hlow : i < 5
    · have hinside : count + i < 32 := by omega
      rw [BitVec.getLsbD_and, BitVec.getLsbD_and, BitVec.getLsbD_sshiftRight,
        BitVec.getLsbD_ushiftRight]
      simp [hi, hinside, Nat.not_le.mpr hi]
    · have hmask : (0x1F : BitVec 32).getLsbD i = false :=
        Nat.testBit_lt_two_pow (Nat.lt_of_lt_of_le (show 31 < 2 ^ 5 by decide)
          (Nat.pow_le_pow_right (by decide) (by omega)))
      simp only [BitVec.getLsbD_and, hmask, Bool.and_false]
  rw [hshift, BitVec.toNat_and, BitVec.toNat_ushiftRight, Nat.shiftRight_eq_div_pow]
  exact Nat.and_two_pow_sub_one_eq_mod _ 5

/-- A byte is shifted in behind the pending bits. -/
theorem Pending.load (hpending : Pending bits tmp pending) (hbits : bits ≤ 24) (byte : Byte) :
    Pending (bits + 8) (tmp <<< 8 ||| (BitVec.ofNat 32 byte.toNat &&& 0xFF))
      (pending ++ bitsOf 8 byte.toNat) where
  length := by rw [List.length_append, hpending.length, length_bitsOf]
  value := by
    have hbyte := byte.toNat_lt
    have hlow : (BitVec.ofNat 32 byte.toNat &&& 0xFF).toNat = byte.toNat := by
      rw [BitVec.toNat_and, BitVec.toNat_ofNat, Nat.mod_eq_of_lt (by omega)]
      exact (Nat.and_two_pow_sub_one_eq_mod _ 8).trans (Nat.mod_eq_of_lt hbyte)
    have hhigh : (tmp <<< 8).toNat = 2 ^ 8 * (tmp.toNat % 2 ^ 24) := by
      rw [BitVec.toNat_shiftLeft, Nat.shiftLeft_eq, Nat.mul_comm]
      exact Nat.mul_mod_mul_left (2 ^ 8) tmp.toNat (2 ^ 24)
    have hdvd : 2 ^ bits ∣ 2 ^ 24 := Nat.pow_dvd_pow 2 hbits
    rw [BitVec.toNat_or, hhigh, hlow, ← Nat.two_pow_add_eq_or_of_lt hbyte, pow_add, Nat.mul_comm
      (2 ^ bits), Nat.mod_mul, Nat.mul_add_mod, Nat.mod_eq_of_lt hbyte,
      Nat.mul_add_div (by decide), Nat.div_eq_of_lt hbyte, Nat.add_zero,
      Nat.mod_mod_of_dvd _ hdvd, valueOf_append, length_bitsOf, valueOf_bitsOf,
      Nat.mod_eq_of_lt hbyte, hpending.value, Nat.add_comm]

/-- Zeros are shifted in behind the last bits. -/
theorem Pending.fill (hpending : Pending bits tmp pending) (hbits : bits ≤ 5) :
    Pending 5 (tmp <<< (5 - bits)) (pending ++ List.replicate (5 - bits) false) where
  length := by
    rw [List.length_append, hpending.length, List.length_replicate]
    omega
  value := by
    have hpow : 2 ^ 5 = 2 ^ (5 - bits) * 2 ^ bits := by
      rw [← pow_add, Nat.sub_add_cancel hbits]
    have hdvd : 2 ^ 5 ∣ 2 ^ 32 := Nat.pow_dvd_pow 2 (by decide)
    rw [valueOf_append, valueOf_replicate_false, List.length_replicate, Nat.add_zero,
      hpending.value, BitVec.toNat_shiftLeft, Nat.shiftLeft_eq, Nat.mod_mod_of_dvd _ hdvd, hpow,
      Nat.mul_comm tmp.toNat, Nat.mul_mod_mul_left]

/-- The first five pending bits are the index of a character, and the others
stay pending. -/
theorem Pending.index (hpending : Pending bits tmp pending) (hlow : 5 ≤ bits) (hhigh : bits ≤ 32) :
    (tmp.sshiftRight (bits - 5) &&& 0x1F).toNat = valueOf (pending.take 5) := by
  have hpow : 2 ^ bits = 2 ^ (bits - 5) * 32 := by
    rw [← Nat.sub_add_cancel hlow, pow_add, Nat.add_sub_cancel]
    rfl
  rw [toNat_sshiftRight_and tmp (by omega), (valueOf_take_drop pending 5).1, hpending.value,
    hpending.length, hpow, Nat.mod_mul_right_div_self]

theorem Pending.rest (hpending : Pending bits tmp pending) :
    Pending (bits - 5) tmp (pending.drop 5) where
  length := by rw [List.length_drop, hpending.length]
  value := by
    have hdvd : 2 ^ (bits - 5) ∣ 2 ^ bits := Nat.pow_dvd_pow 2 (Nat.sub_le _ _)
    rw [(valueOf_take_drop pending 5).2, hpending.value, hpending.length,
      Nat.mod_mod_of_dvd _ hdvd]

end Shifts

/-! ## The loop -/

section Loop

variable {inBuf outBuf : List Byte} {outLen pos bits ret fuel : ℕ} {tmp : BitVec 32}
variable {pending : List Bool}

/-- The bits that have not been written: those of `tmp`, and of the bytes from
`pos` on. -/
def ahead (inBuf : List Byte) (pos : ℕ) (pending : List Bool) : List Bool :=
  pending ++ bitsOfBytes (inBuf.drop pos)

theorem ahead_ne_nil_iff (hlength : pending.length = bits) :
    ahead inBuf pos pending ≠ [] ↔ 0 < bits ∨ pos < inBuf.length := by
  rw [← List.length_pos_iff, ahead, List.length_append, length_bitsOfBytes, List.length_drop,
    hlength]
  omega

/-- Five bits are pending or come in, or zeros fill the last group. -/
theorem refill_eq (hpending : Pending bits tmp pending) (hbits : bits ≤ 8)
    (hpos : pos ≤ inBuf.length) :
    ∃ pos' bits' tmp' pending', refill inBuf inBuf.length pos bits tmp = .ok (pos', bits', tmp') ∧
      Pending bits' tmp' pending' ∧ 5 ≤ bits' ∧ bits' ≤ 12 ∧ pos' ≤ inBuf.length ∧
      firstGroup 5 (ahead inBuf pos pending) = pending'.take 5 ∧
      (ahead inBuf pos pending).drop 5 = ahead inBuf pos' (pending'.drop 5) := by
  rw [refill]
  split_ifs with hfew hmore
  · have hbyte : inBuf.drop pos = inBuf[pos] :: inBuf.drop (pos + 1) :=
      List.drop_eq_getElem_cons hmore
    have hsame : ahead inBuf pos pending =
        (pending ++ bitsOf 8 inBuf[pos].toNat) ++ bitsOfBytes (inBuf.drop (pos + 1)) := by
      rw [ahead, hbyte, bitsOfBytes, List.flatMap_cons, ← List.append_assoc]
      rfl
    have hloaded := hpending.load (by omega) inBuf[pos]
    have hfull : 5 ≤ (pending ++ bitsOf 8 inBuf[pos].toNat).length := by
      rw [hloaded.length]
      omega
    refine ⟨pos + 1, bits + 8, _, _, by rw [load_one hmore]; rfl, hloaded, by omega, by omega,
      hmore, ?_, ?_⟩
    · rw [hsame, firstGroup_of_le (by rw [List.length_append]; omega),
        List.take_append_of_le_length hfull]
    · rw [hsame, List.drop_append_of_le_length hfull, ahead]
  · have hend : inBuf.drop pos = [] := List.drop_eq_nil_of_le (by omega)
    have hsame : ahead inBuf pos pending = pending := by
      rw [ahead, hend]
      exact List.append_nil _
    have hfilled := hpending.fill (show bits ≤ 5 by omega)
    have hlength := hpending.length
    refine ⟨pos, 5, _, _, rfl, hfilled, le_rfl, by omega, hpos, ?_, ?_⟩
    · rw [hsame, firstGroup_of_lt (by omega), hlength,
        List.take_of_length_le hfilled.length.le]
    · rw [hsame, List.drop_eq_nil_of_le (by omega), List.drop_eq_nil_of_le hfilled.length.le,
        ahead, hend]
      rfl
  · have hfull : 5 ≤ pending.length := by
      rw [hpending.length]
      omega
    refine ⟨pos, bits, tmp, pending, rfl, hpending, by omega, by omega, hpos, ?_, ?_⟩
    · rw [ahead, firstGroup_of_le (by rw [List.length_append]; omega),
        List.take_append_of_le_length hfull]
    · rw [ahead, List.drop_append_of_le_length hfull, ahead]

theorem digits_nil : digits [] = [] := by
  rw [digits, groups_nil (by decide)]
  rfl

theorem digits_eq_cons {bits : List Bool} (hbits : bits ≠ []) :
    digits bits = t32.getD (valueOf (firstGroup 5 bits)) 0 :: digits (bits.drop 5) := by
  rw [digits, groups_eq_cons (by decide) hbits, List.map_cons, digits]

/-- The digits of what is ahead are written, as many as there is room for: one
in each turn. -/
theorem encodeLoop_eq {chars : List Byte} (hpending : Pending bits tmp pending) (hbits : bits ≤ 8)
    (hpos : pos ≤ inBuf.length) (hret : ret ≤ outLen) (hout : outLen ≤ outBuf.length)
    (hchars : chars = (digits (ahead inBuf pos pending)).take (outLen - ret))
    (hfuel : chars.length < fuel) :
    encodeLoop inBuf inBuf.length outLen fuel ret pos bits tmp outBuf =
      store outBuf ret chars >>= fun outBuf => .ok (ret + chars.length, outBuf) := by
  induction fuel generalizing ret pos bits tmp pending outBuf chars with
  | zero => omega
  | succ fuel ih =>
      rw [encodeLoop]
      have hahead := @ahead_ne_nil_iff inBuf pos bits pending hpending.length
      by_cases hturn : ret < outLen ∧ (0 < bits ∨ pos < inBuf.length)
      · obtain ⟨hroom, hmore⟩ := hturn
        obtain ⟨pos', bits', tmp', pending', hrefill, hpending', hlow, hhigh, hpos', hgroup,
          hrest⟩ := refill_eq hpending hbits hpos
        have hvalue : valueOf (pending'.take 5) < 32 := by
          have hlt := valueOf_lt (pending'.take 5)
          rwa [List.length_take_of_le (hlow.trans hpending'.length.ge)] at hlt
        rw [digits_eq_cons (hahead.mpr hmore), hgroup, hrest, ← indexChar_eq hvalue,
          ← hpending'.index hlow (by omega), show outLen - ret = outLen - (ret + 1) + 1 by omega,
          List.take_succ_cons] at hchars
        rw [if_pos ⟨hroom, hmore⟩, hrefill, ok_bind]
        dsimp only
        subst hchars
        rw [List.length_cons] at hfuel
        generalize indexChar (tmp'.sshiftRight (bits' - 5) &&& 0x1F).toNat = char
        generalize hothers :
          (digits (ahead inBuf pos' (pending'.drop 5))).take (outLen - (ret + 1)) = others at hfuel
        have hstore := store_of_le (show ret + [char].length ≤ outBuf.length by simp; omega)
        have hlength := (store_eq_ok hstore).2
        have hall := store_append outBuf ret [char] others
        rw [hstore, ok_bind] at hall
        have hcount : ret + (char :: others).length = ret + 1 + others.length := by
          rw [List.length_cons]
          omega
        rw [hstore, ok_bind, ih hpending'.rest (by omega) hpos' hroom (by omega) hothers.symm
          (by omega), hcount]
        exact congrArg (· >>= _) hall.symm
      · have hnone : chars = [] := by
          rw [hchars, List.take_eq_nil_iff]
          by_cases hroom : ret < outLen
          · right
            have hempty : ahead inBuf pos pending = [] := by
              by_contra hne
              exact hturn ⟨hroom, hahead.mp hne⟩
            rw [hempty, digits_nil]
          · exact Or.inl (by omega)
        rw [if_neg hturn, hnone, store_nil (hret.trans hout)]
        rfl

end Loop

/-- The buffer of a first byte: its bits are pending. -/
theorem pending_first (byte : Byte) :
    Pending 8 (BitVec.ofNat 32 byte.toNat) (bitsOf 8 byte.toNat) where
  length := length_bitsOf 8 _
  value := by
    have hbyte := byte.toNat_lt
    rw [valueOf_bitsOf, BitVec.toNat_ofNat, Nat.mod_eq_of_lt (show byte.toNat < 2 ^ 32 by omega)]

/-- The digits of a buffer are written up to the capacity, nothing is read or
written outside of the buffers, and a turn of the loop for each digit is enough. -/
theorem mnetBase32Encode_eq {inBuf outBuf : List Byte} {outLen fuel : ℕ} (hin : inBuf ≠ [])
    (hout : outLen ≤ outBuf.length) (hfuel : min outLen ((8 * inBuf.length + 4) / 5) < fuel) :
    mnetBase32Encode fuel inBuf inBuf.length outBuf outLen =
      .ok (min outLen ((8 * inBuf.length + 4) / 5),
        (base32 inBuf).take outLen ++
          outBuf.drop (min outLen ((8 * inBuf.length + 4) / 5))) := by
  have hpos := List.length_pos_iff.mpr hin
  have hahead : ahead inBuf 1 (bitsOf 8 inBuf[0].toNat) = bitsOfBytes inBuf := by
    calc ahead inBuf 1 (bitsOf 8 inBuf[0].toNat)
        = bitsOfBytes (inBuf[0] :: inBuf.drop 1) := rfl
      _ = bitsOfBytes inBuf := by rw [← List.drop_eq_getElem_cons hpos, List.drop_zero]
  have hlength : ((base32 inBuf).take outLen).length =
      min outLen ((8 * inBuf.length + 4) / 5) := by
    rw [List.length_take, length_base32]
  have hchars : (base32 inBuf).take outLen =
      (digits (ahead inBuf 1 (bitsOf 8 inBuf[0].toNat))).take (outLen - 0) := by
    rw [hahead, base32, Nat.sub_zero]
  have hinside : 0 + ((base32 inBuf).take outLen).length ≤ outBuf.length := by
    rw [hlength]
    omega
  rw [mnetBase32Encode, load_one hpos, ok_bind, List.Vector.head_cons,
    encodeLoop_eq (pending_first inBuf[0]) le_rfl hpos (Nat.zero_le _) hout hchars (by omega),
    store_of_le hinside, ok_bind, hlength, List.take_zero, List.nil_append, Nat.zero_add]

example : base32 ("foobar".toList.map ch) = "mzxw6ytboi".toList.map ch := by decide

/-- Two bytes into three characters of four. -/
theorem mnetBase32Encode_eq_fo :
    mnetBase32Encode 5 [ch 'f', ch 'o'] 2 [0, 0, 0, 0, 0] 3 =
      .ok (3, [ch 'm', ch 'z', ch 'x', 0, 0]) :=
  @mnetBase32Encode_eq [ch 'f', ch 'o'] [0, 0, 0, 0, 0] 3 5 (by simp) (by decide) (by decide)

end I2pLite.Base32
