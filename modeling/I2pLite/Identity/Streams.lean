import I2pLite.Core.Stdio
import I2pLite.Identity.Identity

/-!
# Identities on streams

`fread` and `fwrite` return the number of complete items, but it is compared
with sizes: what is one item of more than one byte is taken for a failure.
-/

namespace I2pLite.Streams

open I2pLite.CRun
open I2pLite.CBytes
open I2pLite.Memory
open I2pLite.Stdio
open I2pLite.Cert
open I2pLite.Identity

/-! ## Certificates -/

/-- The returned flag and the certificate, and the stream behind the call. -/
def mnetCertRead (c : MnetCert) (f : InFile) : Run ((ℤ × MnetCert) × InFile) :=
  let ((count, b), f) := fread 1 3 f
  if count ≠ 3 then .ok ((0, c), f)
  else do
    let cLen := (← bufbe16toh b 1).toNat + 3
    let data ← store (List.replicate cLen 0) 0 b
    if cLen ≠ 0 then
      let l := cLen - 3
      let ((count, body), f) := fread l 1 f
      let data ← store data 3 body
      .ok ((if count ≠ l then 0 else 1, .filled data), f)
    else .ok ((1, .filled data), f)

/-- Without a byte to write there is no call that follows the pointer. -/
def mnetCertWrite (c : MnetCert) (f : OutFile) : Run (ℤ × OutFile) :=
  if c.len = 0 then .ok (1, f)
  else do
    let (count, f) := fwriteItem (← deref c.data) f
    .ok (if count = c.len then 1 else 0, f)

/-! ## Identities -/

/-- The returned flag and the identity, and the stream behind the call. -/
def mnetIdentityRead (i : MnetIdentity) (f : InFile) : Run ((ℤ × MnetIdentity) × InFile) :=
  let ((count, edPub), f) := fread 32 1 f
  if count ≠ 32 then .ok ((0, i), f)
  else do
    let key ← load edPub 0 32
    let ((ret, cert), f) ← mnetCertRead mnetCertNew f
    .ok ((ret, { cert := some cert, eddsa := some key }), f)

def mnetIdentityWrite (i : MnetIdentity) (f : OutFile) : Run (ℤ × OutFile) := do
  let edPub ← deref i.eddsa
  let (count, f) := fwriteItem edPub.toList f
  -- -1 is compared as a `size_t`
  if count = 2 ^ 64 - 1 then .ok (0, f)
  else mnetCertWrite (← deref i.cert) f

/-- An identity with this certificate is written with success, and what was
written is read back, whatever follows it. -/
def StreamsBack (key : EddsaPubkey) (type : Byte) (data : List Byte) : Prop :=
  ∃ cert, mnetCertInit type data (UInt16.ofNat data.length) = .ok cert ∧
    ∀ f : OutFile, f.NeverFails → ∃ written f',
      mnetIdentityWrite (identityOf key cert) f = .ok (1, f') ∧ f'.bytes = f.bytes ++ written ∧
        ∀ suffix, mnetIdentityRead mnetIdentityNew (written ++ suffix) =
          .ok ((1, identityOf key cert), suffix)

/-! ## What the calls return -/

section Calls

variable {key : EddsaPubkey} {type : Byte} {data : List Byte}

/-- A whole identity reaches the stream, and is reported as a failure. -/
theorem mnetIdentityWrite_eq {f : OutFile} (hf : f.NeverFails) (key : EddsaPubkey)
    {bytes : List Byte}
    (hbytes : 2 ≤ bytes.length) :
    mnetIdentityWrite (identityOf key (.filled bytes)) f =
      .ok (0, (f.put key.toList).put bytes) := by
  have hkey : key.toList ≠ [] := by
    rw [← List.length_pos_iff, key.toList_length]
    omega
  have hne : bytes ≠ [] := by
    rw [← List.length_pos_iff]
    omega
  have hlen : (MnetCert.filled bytes).len = bytes.length := rfl
  have hdata : (MnetCert.filled bytes).data = some bytes := rfl
  rw [mnetIdentityWrite, identityOf, deref_some, ok_bind, hf.fwriteItem_eq hkey]
  dsimp only
  rw [if_neg (by omega), deref_some, ok_bind, mnetCertWrite, hlen, hdata, if_neg (by omega),
    deref_some, ok_bind, (hf.put key.toList).fwriteItem_eq hne]
  dsimp only
  rw [if_neg (by omega)]

/-- One item is never thirty-two. -/
theorem mnetIdentityRead_eq (i : MnetIdentity) (f : InFile) :
    mnetIdentityRead i f = .ok ((0, i), f.drop 32) := by
  have hcount : min 1 (f.length / 32) ≤ 1 := min_le_left _ _
  rw [mnetIdentityRead, fread_item (by omega)]
  dsimp only
  rw [if_pos (by omega)]

end Calls

/-- No identity is streamed back. -/
theorem not_streamsBack (key : EddsaPubkey) (type : Byte) (data : List Byte) :
    ¬ StreamsBack key type data := by
  rintro ⟨cert, _, hstreams⟩
  obtain ⟨written, f', _, _, hread⟩ := hstreams { fails := fun _ => none } fun _ => rfl
  have hcall := hread []
  rw [mnetIdentityRead_eq] at hcall
  obtain ⟨hret, _⟩ := ok_pair_inj hcall
  cases (Prod.mk.inj hret).1

/-- The write of an identity of zeros reports a failure. -/
theorem not_streamsBack_zeros : ¬ StreamsBack (List.Vector.replicate 32 0) 0 [] := by
  rintro ⟨cert, hinit, hstreams⟩
  have hfilled : mnetCertInit 0 [] (UInt16.ofNat ([] : List Byte).length) =
      .ok (.filled [0, 0, 0]) := rfl
  obtain rfl := Except.ok.inj (hfilled.symm.trans hinit)
  have hnever : ({ fails := fun _ => none } : OutFile).NeverFails := fun _ => rfl
  obtain ⟨written, f', hwrite, _⟩ := hstreams _ hnever
  rw [mnetIdentityWrite_eq hnever _ (by simp)] at hwrite
  cases (ok_pair_inj hwrite).1

end I2pLite.Streams
