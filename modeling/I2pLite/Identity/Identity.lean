import I2pLite.Encoding.Base64
import I2pLite.Identity.Cert

/-!
# Identities

An identity is an EdDSA key of 32 bytes and a certificate.  It is read from a
buffer, hashed, and turned into base64 and back.
-/

namespace I2pLite.Identity

open I2pLite.CRun
open I2pLite.CBytes
open I2pLite.Memory
open I2pLite.Base64
open I2pLite.Cert

abbrev EddsaPubkey := List.Vector Byte 32

/-- `struct mnet_identity`; the `ident` field is not used. -/
structure MnetIdentity where
  cert : Option MnetCert
  eddsa : Option EddsaPubkey
  deriving DecidableEq

def mnetIdentityNew : MnetIdentity := { cert := none, eddsa := none }

/-- The identity, and where reading stopped, from `input` on. -/
def mnetIdentityReadBuffer (i : MnetIdentity) (input : List Byte) (len : ℕ) :
    Run (MnetIdentity × Option ℕ) :=
  if len < 3 + 32 then .ok (i, none)
  else do
    let edPub ← load input 0 32
    let (cert, stop) ← mnetCertReadBuffer mnetCertNew (input.drop 32) (len - 32)
    .ok ({ cert := some cert, eddsa := some edPub }, stop.map (32 + ·))

/-- The bytes that `mnet_identity_hash` hands to the hasher, one update after
the other. -/
def mnetIdentityHashed (i : MnetIdentity) : Run (List Byte) := do
  let key ← deref i.eddsa
  let cert ← deref i.cert
  let sz := mnetCertBufferLength cert
  let data ← load (← deref (mnetCertBuffer cert)) 0 sz.toNat
  .ok (key.toList ++ data.toList)

def mnetIdentityHash {Hash : Type} (digest : List Byte → Hash) (i : MnetIdentity) : Run Hash := do
  let hashed ← mnetIdentityHashed i
  .ok (digest hashed)

def mnetIdentityToBase64 (i : MnetIdentity) : Run (Option CString) := do
  let pubkey ← deref i.eddsa
  let data ← store (List.replicate 128 0) 0 pubkey.toList
  let cert ← deref i.cert
  let sz := (mnetCertBufferLength cert).toNat
  if sz + 32 ≤ 128 then
    let certdata ← load (← deref (mnetCertBuffer cert)) 0 sz
    let data ← store data 0 certdata.toList
    let sz := sz + 32
    let string ← base64EncodeStr data sz
    .ok (some string)
  else .ok none

def mnetIdentityFromBase64 (i : MnetIdentity) (string : CString) : Run (MnetIdentity × ℤ) := do
  let (sz, data) ← base64DecodeStr string
  if sz ≠ 0 then
    let (i, data) ← mnetIdentityReadBuffer i (← deref data) sz
    .ok (i, if data ≠ none then 1 else 0)
  else .ok (i, 0)

/-! ## Reading a buffer -/

/-- The length that the certificate of an identity announces. -/
def certLength (input : List Byte) : ℕ := announcedLength (input.drop 32)

/-- The key at the front of a buffer that is long enough. -/
def keyOf (input : List Byte) (hlength : 32 ≤ input.length) : EddsaPubkey :=
  ⟨input.take 32, by simp [hlength]⟩

/-- An identity that has both of its parts. -/
def identityOf (key : EddsaPubkey) (cert : MnetCert) : MnetIdentity :=
  { cert := some cert, eddsa := some key }

section Read

variable {i i' : MnetIdentity} {input : List Byte} {len : ℕ}

theorem mnetIdentityReadBuffer_short (hlen : len < 35) :
    mnetIdentityReadBuffer i input len = .ok (i, none) := by
  rw [mnetIdentityReadBuffer, if_pos (by omega)]

theorem mnetIdentityReadBuffer_eq (i : MnetIdentity) (input : List Byte) (hlen : 35 ≤ len)
    (hlength : 35 ≤ input.length) :
    mnetIdentityReadBuffer i input len =
      if len < 32 + certLength input then
        .ok (identityOf (keyOf input (by omega)) (.filled ((input.drop 32).getD 0 0 ::
          List.replicate (certLength input + 2) 0)), none)
      else if 35 + certLength input ≤ input.length then
        .ok (identityOf (keyOf input (by omega)) (.filled (storedBytes (input.drop 32))),
          some (35 + certLength input))
      else .error .outOfBounds := by
  have hkey : load input 0 32 = .ok (keyOf input (by omega)) :=
    load_eq_ok_iff.mpr ⟨by omega, rfl⟩
  have hcert := mnetCertReadBuffer_eq mnetCertNew (show 3 ≤ len - 32 by omega)
    (show 3 ≤ (input.drop 32).length by rw [List.length_drop]; omega)
  rw [mnetIdentityReadBuffer, if_neg (by omega), hkey, ok_bind, hcert, ← certLength,
    List.length_drop]
  by_cases hover : len < 32 + certLength input
  · rw [if_pos hover, if_pos (by omega)]
    rfl
  · rw [if_neg hover, if_neg (by omega)]
    by_cases hinside : 35 + certLength input ≤ input.length
    · rw [if_pos hinside, if_pos (by omega), ok_bind,
        show 35 + certLength input = 32 + (certLength input + 3) by omega]
      rfl
    · rw [if_neg hinside, if_neg (by omega)]
      rfl

end Read

/-- What reading a buffer is to do: refuse it where it does not hold the
identity that it announces, else stop behind that and keep its key and the
bytes of its certificate, and not look beyond the end. -/
def ReadsIdentity (i : MnetIdentity) (input : List Byte) : Prop :=
  ∃ i' stop, mnetIdentityReadBuffer i input input.length = .ok (i', stop) ∧
    (stop = none ↔ input.length < 35 ∨ input.length < 35 + certLength input) ∧
    ∀ offset, stop = some offset → offset = 35 + certLength input ∧
      (∃ key, i'.eddsa = some key ∧ key.toList = input.take 32) ∧
      ∃ cert, i'.cert = some cert ∧
        mnetCertBuffer cert = some ((input.drop 32).take (3 + certLength input))

/-- The bytes of the certificate of an identity. -/
theorem take_certBytes {input : List Byte} (hlength : 35 ≤ input.length) :
    (input.drop 32).take (3 + certLength input) =
      (input.drop 32).getD 0 0 :: (input.drop 32).getD 1 0 :: (input.drop 32).getD 2 0 ::
        ((input.drop 32).drop 3).take (certLength input) := by
  have hdrop : 3 ≤ (input.drop 32).length := by
    rw [List.length_drop]
    omega
  match input.drop 32, hdrop with
  | type :: high :: low :: rest, _ =>
    rw [show 3 + certLength input = certLength input + 1 + 1 + 1 by omega]
    rfl

/-- `mnet_identity_read_buffer` does what it is to do exactly on the buffers
that are too short for an identity, that announce more than they have behind
the key, or that announce an empty certificate. -/
theorem readsIdentity_iff (i : MnetIdentity) (input : List Byte) :
    ReadsIdentity i input ↔
      input.length < 35 ∨ input.length < 32 + certLength input ∨ certLength input = 0 := by
  by_cases hlength : input.length < 35
  · refine iff_of_true ⟨i, none, mnetIdentityReadBuffer_short hlength, ?_, by simp⟩ (Or.inl hlength)
    exact iff_of_true rfl (Or.inl hlength)
  have hread := mnetIdentityReadBuffer_eq i input (show 35 ≤ input.length by omega) (by omega)
  by_cases hover : input.length < 32 + certLength input
  · rw [if_pos hover] at hread
    refine iff_of_true ⟨_, none, hread, ?_, by simp⟩ (Or.inr (Or.inl hover))
    exact iff_of_true rfl (Or.inr (by omega))
  rw [if_neg hover] at hread
  by_cases hinside : 35 + certLength input ≤ input.length
  · rw [if_pos hinside] at hread
    rw [or_iff_right hlength, or_iff_right hover]
    constructor
    · rintro ⟨i', stop, hcall, hnull, hvalue⟩
      rw [hread] at hcall
      obtain ⟨rfl, rfl⟩ := ok_pair_inj hcall
      obtain ⟨_, _, cert, hcert, hbytes⟩ := hvalue _ rfl
      obtain rfl := Option.some.inj hcert
      rw [take_certBytes (by omega)] at hbytes
      obtain ⟨_, hrest⟩ := List.cons.inj (Option.some.inj hbytes)
      obtain ⟨hhigh, hrest⟩ := List.cons.inj hrest
      obtain ⟨hlow, _⟩ := List.cons.inj hrest
      rw [certLength, announcedLength, ← hhigh, ← hlow]
      rfl
    · intro hempty
      refine ⟨_, _, hread, ?_, ?_⟩
      · exact iff_of_false (by simp) (by omega)
      · intro offset hoffset
        obtain rfl := Option.some.inj hoffset
        refine ⟨rfl, ⟨_, rfl, rfl⟩, _, rfl, congrArg some ?_⟩
        obtain ⟨hhigh, hlow⟩ : ((input.drop 32).getD 1 0).toNat = 0 ∧
            ((input.drop 32).getD 2 0).toNat = 0 := by
          rw [certLength, announcedLength] at hempty
          omega
        rw [take_certBytes (by omega), storedBytes, ← certLength,
          UInt8.toNat_inj.mp (hhigh.trans UInt8.toNat_zero.symm),
          UInt8.toNat_inj.mp (hlow.trans UInt8.toNat_zero.symm)]
  · -- the header is not counted, so up to three bytes are read past the end
    rw [if_neg hinside] at hread
    refine iff_of_false ?_ (by omega)
    rintro ⟨i', stop, hcall, _⟩
    rw [hread] at hcall
    cases hcall

/-- Behind the key a certificate of one byte of data: its length is stored as
zero. -/
theorem not_readsIdentity_oneByte :
    ¬ ReadsIdentity mnetIdentityNew (List.replicate 32 0 ++ [0, 0, 1, 7]) := by
  have hlength : certLength (List.replicate 32 0 ++ [0, 0, 1, 7]) = 1 := by decide
  have hread := mnetIdentityReadBuffer_eq mnetIdentityNew
    (List.replicate 32 0 ++ [0, 0, 1, 7]) (show 35 ≤ 36 by omega) (by simp)
  rintro ⟨i', stop, hcall, _, hvalue⟩
  change mnetIdentityReadBuffer _ _ 36 = _ at hcall
  rw [hread, hlength, if_neg (by omega), if_pos (by simp)] at hcall
  obtain ⟨rfl, rfl⟩ := ok_pair_inj hcall
  obtain ⟨_, _, cert, hcert, hbytes⟩ := hvalue _ rfl
  obtain rfl := Option.some.inj hcert
  revert hbytes
  decide

end I2pLite.Identity
