import I2pLite.Core.Memory

/-!
# Certificates

A certificate is a type byte, a length of 16 bits, and data of that length.
-/

namespace I2pLite.Cert

open I2pLite.CRun
open I2pLite.CBytes
open I2pLite.Memory

/-- `struct mnet_cert`, whose `data` is allocated with `len` bytes. -/
structure MnetCert where
  data : Option (List Byte)
  len : ℕ
  allocated : ∀ bytes ∈ data, bytes.length = len
  deriving DecidableEq

def mnetCertNew : MnetCert where
  data := none
  len := 0
  allocated := by simp

/-- A certificate whose data has just been allocated and filled. -/
def MnetCert.filled (bytes : List Byte) : MnetCert where
  data := some bytes
  len := bytes.length
  allocated := by simp

def mnetCertInit (type : Byte) (data : List Byte) (len : UInt16) : Run MnetCert := do
  let body ← load data 0 len.toNat
  .ok (.filled (type :: htobe16 len ++ body.toList))

/-- The certificate, and where reading stopped, from `d` on. -/
def mnetCertReadBuffer (c : MnetCert) (d : List Byte) (len : ℕ) : Run (MnetCert × Option ℕ) :=
  if len < 3 then .ok (c, none)
  else do
    let cLen := (← bufbe16toh d 1).toNat + 3
    let type ← load d 0 1
    let data ← store (List.replicate cLen 0) 0 type.toList
    if cLen ≠ 0 then
      if cLen - 3 > len then .ok (.filled data, none)
      else
        let body ← load d 3 (cLen - 3)
        let data ← store data 3 body.toList
        .ok (.filled data, some cLen)
    else .ok (.filled data, some cLen)

def mnetCertBuffer (c : MnetCert) : Option (List Byte) := c.data

def mnetCertBufferLength (c : MnetCert) : UInt16 := UInt16.ofNat c.len

def mnetCertData (c : MnetCert) : Run (List Byte) := do
  let data ← deref c.data
  .ok (data.drop 3)

def mnetCertDataLength (c : MnetCert) : UInt16 := UInt16.ofNat c.len - 3

def mnetCertType (c : MnetCert) : Run Byte := do
  let type ← load (← deref c.data) 0 1
  .ok type.head

/-! ## What a certificate is read from -/

/-- The length that a serialized certificate announces for its data. -/
def announcedLength (d : List Byte) : ℕ := 256 * (d.getD 1 0).toNat + (d.getD 2 0).toNat

theorem MnetCert.ext {c c' : MnetCert} (hdata : c.data = c'.data) (hlen : c.len = c'.len) :
    c = c' := by
  obtain ⟨data, len, hallocated⟩ := c
  obtain rfl : data = c'.data := hdata
  obtain rfl : len = c'.len := hlen
  rfl

theorem announcedLength_lt (d : List Byte) : announcedLength d < 65536 := by
  have := (d.getD 1 0).toNat_lt
  have := (d.getD 2 0).toNat_lt
  rw [announcedLength]
  omega

theorem bufbe16toh_eq {d : List Byte} (hlength : 3 ≤ d.length) :
    ∃ value, bufbe16toh d 1 = .ok value ∧ value.toNat = announcedLength d := by
  match d, hlength with
  | type :: high :: low :: rest, _ =>
    have hload : load (type :: high :: low :: rest) 1 2 = .ok ⟨[high, low], rfl⟩ :=
      load_eq_ok_iff.mpr ⟨by simp, rfl⟩
    refine ⟨be16toh high low, ?_, be16toh_toNat high low⟩
    rw [bufbe16toh, hload]
    rfl

/-- What is stored for the certificate at `d`: the length bytes stay zero. -/
def storedBytes (d : List Byte) : List Byte :=
  d.getD 0 0 :: 0 :: 0 :: (d.drop 3).take (announcedLength d)

/-- A certificate that announces more than `len` bytes is refused.  One that
announces as much, its header not counted, is read past the end. -/
theorem mnetCertReadBuffer_eq (c : MnetCert) {d : List Byte} {len : ℕ} (hlen : 3 ≤ len)
    (hlength : 3 ≤ d.length) :
    mnetCertReadBuffer c d len =
      if len < announcedLength d then
        .ok (.filled (d.getD 0 0 :: List.replicate (announcedLength d + 2) 0), none)
      else if 3 + announcedLength d ≤ d.length then
        .ok (.filled (storedBytes d), some (announcedLength d + 3))
      else .error .outOfBounds := by
  obtain ⟨value, hvalue, htoNat⟩ := bufbe16toh_eq hlength
  obtain ⟨type, htype, htypeBytes⟩ := exists_load d (show 0 + 1 ≤ d.length by omega)
  have hfirst : type.toList = [d.getD 0 0] := by
    rw [htypeBytes]
    cases d with
    | nil => simp at hlength
    | cons first rest => rfl
  have hheader : store (List.replicate (announcedLength d + 3) 0) 0 type.toList =
      .ok (d.getD 0 0 :: List.replicate (announcedLength d + 2) 0) := by
    rw [hfirst, store_of_le (by simp)]
    rfl
  rw [mnetCertReadBuffer, if_neg (by omega), hvalue]
  rw [← htoNat] at hheader ⊢
  simp only [ok_bind, htype, hheader]
  rw [if_pos (by omega)]
  by_cases hover : len < value.toNat
  · rw [if_pos (by omega), if_pos hover]
  · rw [if_neg (by omega), if_neg hover]
    by_cases hinside : 3 + value.toNat ≤ d.length
    · obtain ⟨body, hbody, hbodyBytes⟩ :=
        exists_load d (show 3 + (value.toNat + 3 - 3) ≤ d.length by omega)
      have hstore : store (d.getD 0 0 :: List.replicate (value.toNat + 2) 0) 3 body.toList =
          .ok (storedBytes d) := by
        rw [store_of_le (by simp; omega), hbodyBytes, storedBytes, ← htoNat]
        simp
        omega
      rw [if_pos hinside, hbody, ok_bind, hstore]
      rfl
    · rw [if_neg hinside, load_of_lt (by omega)]
      rfl

end I2pLite.Cert
