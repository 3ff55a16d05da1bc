import I2pLite.Encoding.DecodeBounds
import I2pLite.Identity.Commitment

/-!
# Texts of identities

`mnet_identity_from_base64` on any text.  What the decoder returns for too much
padding is taken for the size of its output, so a text that is long enough is
read as an identity of zeros.
-/

namespace I2pLite.IdentTexts

open I2pLite.CRun
open I2pLite.CBytes
open I2pLite.CInt
open I2pLite.Memory
open I2pLite.Base64
open I2pLite.DecodeBounds
open I2pLite.Cert
open I2pLite.Identity
open I2pLite.Commitment

/-- The text is not of whole groups; or what these are decoded to is counted by
an `int`, not all of it is padding, and there is no more padding than bytes, or
the text is as long as an identity. -/
def Readable (text : CString) : Prop :=
  (strlen text = 0 ∨ strlen text % 4 ≠ 0) ∨
    (-2 ^ 31 ≤ 3 * groupCount text.bytes ∧ 3 * groupCount text.bytes < 2 ^ 31) ∧
      (∃ byte ∈ text.bytes, byte ≠ p64) ∧
      (paddingCount text.bytes ≤ 3 * groupCount text.bytes ∨ 35 ≤ strlen text)

section Buffers

variable {i : MnetIdentity} {input : List Byte} {len : ℕ}

/-- A certificate that is no longer than the rest of what was counted is within
a buffer that is three bytes longer. -/
theorem exists_mnetIdentityReadBuffer (i : MnetIdentity)
    (hroom : len + 3 ≤ input.length ∨ 2 ^ 17 ≤ input.length) :
    ∃ result, mnetIdentityReadBuffer i input len = .ok result := by
  by_cases hlen : len < 35
  · exact ⟨_, mnetIdentityReadBuffer_short hlen⟩
  · have hannounced := announcedLength_lt (input.drop 32)
    rw [← certLength] at hannounced
    rw [mnetIdentityReadBuffer_eq i input (by omega) (by omega)]
    split_ifs
    · exact ⟨_, rfl⟩
    · exact ⟨_, rfl⟩
    · omega

theorem length_le_of_mnetIdentityReadBuffer {result : MnetIdentity × Option ℕ} (hlen : 35 ≤ len)
    (hread : mnetIdentityReadBuffer i input len = .ok result) : 35 ≤ input.length := by
  rw [mnetIdentityReadBuffer, if_neg (by omega)] at hread
  obtain ⟨_, _, hread⟩ := bind_eq_ok.mp hread
  obtain ⟨_, hcert, _⟩ := bind_eq_ok.mp hread
  rw [mnetCertReadBuffer, if_neg (by omega)] at hcert
  obtain ⟨_, hvalue, _⟩ := bind_eq_ok.mp hcert
  have hinside := bufbe16toh_eq_ok hvalue
  rw [List.length_drop] at hinside
  omega

/-- A buffer of zeros is an identity, where it is as long as one. -/
theorem exists_readBuffer_zeros_iff (i : MnetIdentity) (count : ℕ) (hlen : 35 ≤ len) :
    (∃ result, mnetIdentityReadBuffer i (List.replicate count 0) len = .ok result) ↔
      35 ≤ count := by
  constructor
  · rintro ⟨result, hread⟩
    have hlength := length_le_of_mnetIdentityReadBuffer hlen hread
    rwa [List.length_replicate] at hlength
  · intro hcount
    have hannounced : certLength (List.replicate count 0) = 0 := by
      have hzero : ∀ index, ((List.replicate count (0 : Byte)).drop 32).getD index 0 = 0 := by
        intro index
        rw [List.drop_replicate, List.getD_eq_getElem?_getD, List.getElem?_replicate]
        split_ifs <;> rfl
      rw [certLength, announcedLength, hzero, hzero]
      rfl
    rw [mnetIdentityReadBuffer_eq i _ hlen (by rw [List.length_replicate]; exact hcount),
      hannounced, if_neg (by omega), if_pos (by rw [List.length_replicate]; exact hcount)]
    exact ⟨_, rfl⟩

end Buffers

section Texts

variable {text : CString}

/-- The identity is looked for in what was decoded. -/
def readDecoded (i : MnetIdentity) (decoded : ℕ × Option (List Byte)) : Run (MnetIdentity × ℤ) :=
  if decoded.1 ≠ 0 then do
    let (i, data) ← mnetIdentityReadBuffer i (← deref decoded.2) decoded.1
    .ok (i, if data ≠ none then 1 else 0)
  else .ok (i, 0)

theorem exists_readDecoded_iff {i : MnetIdentity} {count : ℕ} {buffer : List Byte}
    (hcount : count ≠ 0) :
    (∃ result, readDecoded i (count, some buffer) = .ok result) ↔
      ∃ result, mnetIdentityReadBuffer i buffer count = .ok result := by
  rw [readDecoded, if_pos hcount, deref_some, ok_bind]
  cases mnetIdentityReadBuffer i buffer count with
  | error fault => simp
  | ok result => simp

/-- Whole groups that are not padding all over are decoded, unless their number
is too large; too much padding leaves the buffer as it was, and an error that
counts as a size. -/
theorem base64DecodeStr_groups (hgroups : ¬ (strlen text = 0 ∨ strlen text % 4 ≠ 0))
    (hrange : -2 ^ 31 ≤ 3 * groupCount text.bytes ∧ 3 * groupCount text.bytes < 2 ^ 31)
    (hdigit : ∃ byte ∈ text.bytes, byte ≠ p64) :
    ∃ size, size = toSize (3 * groupCount text.bytes - paddingCount text.bytes) ∧
      ((strlen text < size ∧ ∃ count, 35 ≤ count ∧ base64DecodeStr text =
          .ok (count, some (List.replicate (strlen text) 0))) ∨
        size ≤ strlen text ∧ ∃ buffer, buffer.length = strlen text ∧ base64DecodeStr text =
          if size ≠ 0 then .ok (size, some buffer) else .ok (0, none)) := by
  refine ⟨_, rfl, ?_⟩
  have hdecode := @base64Decode_eq text.bytes (List.replicate (strlen text) 0) (strlen text) hgroups
  rw [inInt32_of_lt hrange.1 hrange.2, ok_bind, paddingOf_eq_ok_iff.mpr ⟨hdigit, rfl⟩, ok_bind]
    at hdecode
  generalize hsize : toSize (3 * groupCount text.bytes - paddingCount text.bytes) = size at *
  by_cases hover : size > strlen text
  · rw [if_pos hover] at hdecode
    refine Or.inl ⟨hover, 2 ^ 64 - 1, by omega, ?_⟩
    have hcall : base64Decode text.bytes (strlen text) (List.replicate (strlen text) 0)
        (strlen text) = _ := hdecode
    rw [base64DecodeStr, hcall, ok_bind]
    rfl
  · have hwritten : (decodedBytes text.bytes size).length ≤ strlen text := by
      have hcount := writtenCount_le size (3 * (groupCount text.bytes).toNat)
      have hgroupCount := groupCount_le text.bytes
      have hstrlen : strlen text = text.bytes.length := rfl
      rw [length_decodedBytes]
      omega
    obtain ⟨buffer, hstore⟩ : ∃ buffer, store (List.replicate (strlen text) 0) 0
        (decodedBytes text.bytes size) = .ok buffer :=
      ⟨_, store_of_le (by rw [List.length_replicate]; omega)⟩
    rw [if_neg hover, hstore, ok_bind] at hdecode
    have hcall : base64Decode text.bytes (strlen text) (List.replicate (strlen text) 0)
        (strlen text) = _ := hdecode
    refine Or.inr ⟨by omega, buffer, ?_, ?_⟩
    · rw [(store_eq_ok hstore).2, List.length_replicate]
    · rw [base64DecodeStr, hcall, ok_bind]

/-- A text of whole groups that is read without a fault is readable. -/
theorem readable_of_read {i : MnetIdentity} {result : MnetIdentity × ℤ}
    (hgroups : ¬(strlen text = 0 ∨ strlen text % 4 ≠ 0))
    (hread : (base64DecodeStr text >>= readDecoded i) = .ok result) :
    (-2 ^ 31 ≤ 3 * groupCount text.bytes ∧ 3 * groupCount text.bytes < 2 ^ 31) ∧
      (∃ byte ∈ text.bytes, byte ≠ p64) ∧
      (paddingCount text.bytes ≤ 3 * groupCount text.bytes ∨ 35 ≤ strlen text) := by
  obtain ⟨decoded, hdecode, hread⟩ := bind_eq_ok.mp hread
  obtain ⟨⟨count, buffer⟩, hbytes, _⟩ := bind_eq_ok.mp hdecode
  have hstrlen : strlen text = text.bytes.length := rfl
  rw [hstrlen, base64Decode_eq hgroups] at hbytes
  obtain ⟨outCount, hout, hbytes⟩ := bind_eq_ok.mp hbytes
  obtain ⟨padding, hpadding, _⟩ := bind_eq_ok.mp hbytes
  have hrange := (inInt32_eq_ok_iff.mp hout).2
  have hdigit := (paddingOf_eq_ok_iff.mp hpadding).1
  refine ⟨hrange, hdigit, ?_⟩
  by_contra hneither
  obtain ⟨hmany, hshort⟩ := not_or.mp hneither
  obtain ⟨size, hsize, ⟨_, count, hcount, hwrapped⟩ | ⟨hle, _⟩⟩ :=
    base64DecodeStr_groups hgroups hrange hdigit
  · rw [← Except.ok.inj (hwrapped.symm.trans hdecode)] at hread
    have hzeros := (exists_readDecoded_iff (by omega)).mp ⟨result, hread⟩
    exact hshort ((exists_readBuffer_zeros_iff i _ hcount).mp hzeros)
  · have hpaddingLe := paddingCount_le text.bytes
    rw [toSize] at hsize
    omega

/-- With room for what its padding counts, a text of whole groups is read. -/
theorem exists_read_of_readable (i : MnetIdentity)
    (hgroups : ¬(strlen text = 0 ∨ strlen text % 4 ≠ 0))
    (hrange : -2 ^ 31 ≤ 3 * groupCount text.bytes ∧ 3 * groupCount text.bytes < 2 ^ 31)
    (hdigit : ∃ byte ∈ text.bytes, byte ≠ p64)
    (hroom : paddingCount text.bytes ≤ 3 * groupCount text.bytes ∨ 35 ≤ strlen text) :
    ∃ result, (base64DecodeStr text >>= readDecoded i) = .ok result := by
  have hgroupCount := groupCount_le text.bytes
  have hstrlen : strlen text = text.bytes.length := rfl
  obtain ⟨size, hsize, ⟨hover, count, hcount, hwrapped⟩ | ⟨hle, buffer, hlength, hdecode⟩⟩ :=
    base64DecodeStr_groups hgroups hrange hdigit
  · have hlong : 35 ≤ strlen text := by
      refine hroom.resolve_left fun hpadding => ?_
      rw [toSize] at hsize
      omega
    rw [hwrapped, ok_bind, exists_readDecoded_iff (by omega)]
    exact (exists_readBuffer_zeros_iff i _ hcount).mpr hlong
  · rw [hdecode]
    by_cases hzero : size = 0
    · rw [if_neg (not_not_intro hzero)]
      exact ⟨_, rfl⟩
    · rw [if_pos hzero, ok_bind, exists_readDecoded_iff hzero]
      by_cases hshort : size < 35
      · exact ⟨_, mnetIdentityReadBuffer_short hshort⟩
      · refine exists_mnetIdentityReadBuffer i ?_
        have hpaddingLe := paddingCount_le text.bytes
        rw [toSize] at hsize
        rcases lt_or_ge (3 * groupCount text.bytes) (paddingCount text.bytes) with hlt | hge
        · omega
        · omega

/-- A text is read without a fault exactly where it is readable, whether there
is an identity in it or not. -/
theorem exists_mnetIdentityFromBase64_iff (i : MnetIdentity) (text : CString) :
    (∃ result, mnetIdentityFromBase64 i text = .ok result) ↔ Readable text := by
  have hcall : mnetIdentityFromBase64 i text = base64DecodeStr text >>= readDecoded i := rfl
  rw [hcall, Readable]
  by_cases hgroups : strlen text = 0 ∨ strlen text % 4 ≠ 0
  · have hnothing : base64DecodeStr text = .ok (0, none) := by
      simp only [base64DecodeStr, strlen]
      rw [base64Decode_of_refused hgroups, ok_bind]
      rfl
    rw [hnothing]
    exact iff_of_true ⟨_, rfl⟩ (Or.inl hgroups)
  · rw [or_iff_right hgroups]
    constructor
    · rintro ⟨result, hread⟩
      exact readable_of_read hgroups hread
    · rintro ⟨hrange, hdigit, hroom⟩
      exact exists_read_of_readable i hgroups hrange hdigit hroom

end Texts

end I2pLite.IdentTexts
