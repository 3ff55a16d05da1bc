import I2pLite.Core.Aead
import I2pLite.Core.Memory

/-!
# Tunnel data messages

A message is a tag, a nonce, a tunnel id and an encrypted block.  The nonce and
the id are there before the encryption, which binds the block to both of them;
the tag and the encrypted block are written around them.
-/

namespace I2pLite.TunnelChaCha

open I2pLite.CRun
open I2pLite.CBytes
open I2pLite.Memory
open I2pLite.Aead

def tunidSize : ℕ := 4

def tunmacV2Size : ℕ := 16

def tunnonceV2Size : ℕ := 12

def tundataV2Size : ℕ := 2016

def tdmV2Size : ℕ := tunmacV2Size + tunnonceV2Size + tunidSize + tundataV2Size

def tundataV2Offset : ℕ := tdmV2Size - tundataV2Size

def tunmacV2Offset : ℕ := 0

def tunidV2Offset : ℕ := tunnonceV2Size + tunmacV2Size

def tunnonceV2Offset : ℕ := tunmacV2Size

/-- `crypto_aead_chacha20poly1305_ietf_KEYBYTES` bytes. -/
abbrev TunnelKey := List.Vector Byte 32

abbrev TunnelMac := List.Vector Byte tunmacV2Size

abbrev TunnelNonce := List.Vector Byte tunnonceV2Size

abbrev TunnelIdBytes := List.Vector Byte tunidSize

abbrev TunnelDataBlockV2 := List.Vector Byte tundataV2Size

/-- `crypto_aead_chacha20poly1305_ietf_encrypt_detached` and
`crypto_aead_chacha20poly1305_ietf_decrypt_detached`. -/
abbrev ChaCha20Poly1305 (State : Type) :=
  IdealAead State TunnelKey TunnelNonce TunnelIdBytes TunnelDataBlockV2 TunnelDataBlockV2 TunnelMac

section Messages

variable {State : Type} (aead : ChaCha20Poly1305 State) (state : State) (key : TunnelKey)

/-- The returned value, and what is stored to the block. -/
def i2pTunnelV2Decrypt (msg : List Byte) (block : TunnelDataBlockV2) :
    Run (ℤ × TunnelDataBlockV2) := do
  let cipher ← load msg tundataV2Offset tundataV2Size
  let mac ← load msg tunmacV2Offset tunmacV2Size
  let tunid ← load msg tunidV2Offset tunidSize
  let nonce ← load msg tunnonceV2Offset tunnonceV2Size
  .ok (aead.decrypt state key nonce tunid cipher mac block)

/-- The returned value, which is always 0, and the message. -/
def i2pTunnelV2Encrypt (block : TunnelDataBlockV2) (msg : List Byte) :
    Run (ℤ × State × List Byte) := do
  let tunid ← load msg tunidV2Offset tunidSize
  let nonce ← load msg tunnonceV2Offset tunnonceV2Size
  let (state', cipher, mac) := aead.encrypt state key nonce tunid block
  let msg ← store msg tundataV2Offset cipher.toList
  let msg ← store msg tunmacV2Offset mac.toList
  .ok (0, state', msg)

end Messages

/-! ## The regions of a message -/

/-- What a message consists of. -/
structure Regions where
  mac : TunnelMac
  nonce : TunnelNonce
  tunid : TunnelIdBytes
  cipher : TunnelDataBlockV2

/-- The regions one behind the other. -/
def Regions.bytes (regions : Regions) : List Byte :=
  regions.mac.toList ++ (regions.nonce.toList ++ (regions.tunid.toList ++ regions.cipher.toList))

theorem Regions.length_bytes (regions : Regions) : regions.bytes.length = tdmV2Size := by
  simp only [Regions.bytes, List.length_append, List.Vector.toList_length]
  rfl

section Access

variable (regions : Regions) (cipher : TunnelDataBlockV2) (mac : TunnelMac)

theorem load_mac : load regions.bytes tunmacV2Offset tunmacV2Size = .ok regions.mac :=
  load_between [] regions.mac _ rfl

theorem load_nonce : load regions.bytes tunnonceV2Offset tunnonceV2Size = .ok regions.nonce :=
  load_between regions.mac.toList regions.nonce _ regions.mac.toList_length

theorem load_tunid : load regions.bytes tunidV2Offset tunidSize = .ok regions.tunid := by
  rw [Regions.bytes, ← List.append_assoc]
  apply load_between
  simp only [List.length_append, List.Vector.toList_length]
  rfl

/-- Everything in front of the encrypted block. -/
theorem bytes_eq_header_append :
    regions.bytes =
      (regions.mac.toList ++ (regions.nonce.toList ++ regions.tunid.toList)) ++
        (regions.cipher.toList ++ []) := by
  simp only [Regions.bytes, List.append_assoc, List.append_nil]

theorem length_header :
    (regions.mac.toList ++ (regions.nonce.toList ++ regions.tunid.toList)).length =
      tundataV2Offset := by
  simp only [List.length_append, List.Vector.toList_length]
  rfl

theorem load_cipher : load regions.bytes tundataV2Offset tundataV2Size = .ok regions.cipher := by
  rw [bytes_eq_header_append]
  exact load_between _ _ _ (length_header regions)

theorem store_mac :
    store regions.bytes tunmacV2Offset mac.toList = .ok { regions with mac := mac }.bytes :=
  store_between [] _ rfl (by simp only [List.Vector.toList_length])

theorem store_cipher :
    store regions.bytes tundataV2Offset cipher.toList =
      .ok { regions with cipher := cipher }.bytes := by
  rw [bytes_eq_header_append, bytes_eq_header_append]
  exact store_between _ _ (length_header regions) (by simp only [List.Vector.toList_length])

end Access

theorem Regions.bytes_injective : Function.Injective Regions.bytes := by
  rintro ⟨mac, nonce, tunid, cipher⟩ right hbytes
  have hmac := load_mac right
  have hnonce := load_nonce right
  have htunid := load_tunid right
  have hcipher := load_cipher right
  rw [← hbytes] at hmac hnonce htunid hcipher
  rw [load_mac] at hmac
  rw [load_nonce] at hnonce
  rw [load_tunid] at htunid
  rw [load_cipher] at hcipher
  obtain rfl := Except.ok.inj hmac
  obtain rfl := Except.ok.inj hnonce
  obtain rfl := Except.ok.inj htunid
  obtain rfl := Except.ok.inj hcipher
  rfl

theorem region_append_rest (msg : List Byte) (offset size : ℕ) :
    (msg.drop offset).take size ++ msg.drop (offset + size) = msg.drop offset := by
  rw [← List.drop_drop, List.take_append_drop]

/-- The regions do not overlap, and they cover a message. -/
theorem exists_regions {msg : List Byte} (hmsg : msg.length = tdmV2Size) :
    ∃ regions : Regions, regions.bytes = msg := by
  obtain ⟨mac, _, hmac⟩ := exists_load msg
    (show 0 + tunmacV2Size ≤ msg.length by rw [hmsg]; decide)
  obtain ⟨nonce, _, hnonce⟩ := exists_load msg
    (show tunnonceV2Offset + tunnonceV2Size ≤ msg.length by rw [hmsg]; decide)
  obtain ⟨tunid, _, htunid⟩ := exists_load msg
    (show tunidV2Offset + tunidSize ≤ msg.length by rw [hmsg]; decide)
  obtain ⟨cipher, _, hcipher⟩ := exists_load msg
    (show tundataV2Offset + tundataV2Size ≤ msg.length by rw [hmsg]; decide)
  have hlast : (msg.drop tundataV2Offset).take tundataV2Size = msg.drop tundataV2Offset := by
    apply List.take_of_length_le
    rw [List.length_drop, hmsg]
    decide
  refine ⟨⟨mac, nonce, tunid, cipher⟩, ?_⟩
  calc mac.toList ++ (nonce.toList ++ (tunid.toList ++ cipher.toList))
      = (msg.drop 0).take 16 ++
          ((msg.drop 16).take 12 ++ ((msg.drop 28).take 4 ++ msg.drop 32)) := by
        rw [hmac, hnonce, htunid, hcipher, hlast]
        rfl
    _ = (msg.drop 0).take 16 ++ ((msg.drop 16).take 12 ++ msg.drop 28) := by
        rw [region_append_rest msg 28 4]
    _ = (msg.drop 0).take 16 ++ msg.drop 16 := by
        rw [region_append_rest msg 16 12]
    _ = msg := region_append_rest msg 0 16

section Runs

variable {State : Type} {aead : ChaCha20Poly1305 State} {state state' : State} {key : TunnelKey}
variable {block : TunnelDataBlockV2} {regions : Regions} {cipher : TunnelDataBlockV2}
variable {mac : TunnelMac}

theorem i2pTunnelV2Decrypt_bytes (old : TunnelDataBlockV2) :
    i2pTunnelV2Decrypt aead state key regions.bytes old =
      .ok (aead.decrypt state key regions.nonce regions.tunid regions.cipher regions.mac old) := by
  rw [i2pTunnelV2Decrypt, load_cipher, ok_bind, load_mac, ok_bind, load_tunid, ok_bind, load_nonce,
    ok_bind]

theorem i2pTunnelV2Encrypt_bytes
    (hencrypt : aead.encrypt state key regions.nonce regions.tunid block = (state', cipher, mac)) :
    i2pTunnelV2Encrypt aead state key block regions.bytes =
      .ok (0, state', { regions with mac := mac, cipher := cipher }.bytes) := by
  rw [i2pTunnelV2Encrypt, load_tunid, ok_bind, load_nonce, ok_bind, hencrypt]
  simp only [store_cipher, store_mac, ok_bind]

variable (aead) (state) (key) in
/-- Some encryption under the key has made this message before. -/
def ProducedMessage (msg : List Byte) : Prop :=
  ∃ regions : Regions, regions.bytes = msg ∧
    ∃ block, aead.produced state
      ⟨key, regions.nonce, regions.tunid, block, regions.cipher, regions.mac⟩

theorem producedMessage_bytes_iff (regions : Regions) :
    ProducedMessage aead state key regions.bytes ↔
      ∃ block, aead.produced state
        ⟨key, regions.nonce, regions.tunid, block, regions.cipher, regions.mac⟩ := by
  constructor
  · rintro ⟨other, hbytes, hproduced⟩
    rwa [Regions.bytes_injective hbytes] at hproduced
  · intro hproduced
    exact ⟨regions, rfl, hproduced⟩

/-- A message is decrypted where it was produced, and nothing else is. -/
theorem i2pTunnelV2Decrypt_iff {msg : List Byte} (hmsg : msg.length = tdmV2Size)
    (old : TunnelDataBlockV2) :
    ∃ returned block, i2pTunnelV2Decrypt aead state key msg old = .ok (returned, block) ∧
      (returned = 0 ∨ returned = -1) ∧
      (returned = 0 ↔ ProducedMessage aead state key msg) := by
  obtain ⟨regions, rfl⟩ := exists_regions hmsg
  refine ⟨_, _, i2pTunnelV2Decrypt_bytes old, ?_⟩
  rw [producedMessage_bytes_iff]
  exact decrypt_returned old

/-- An encryption adds one message to those that are decrypted: the one that it
has written. -/
theorem producedMessage_encrypt_of_ne {changed : List Byte}
    (hencrypt : aead.encrypt state key regions.nonce regions.tunid block = (state', cipher, mac))
    (hchanged : changed.length = tdmV2Size)
    (hne : changed ≠ { regions with mac := mac, cipher := cipher }.bytes) :
    ProducedMessage aead state' key changed ↔ ProducedMessage aead state key changed := by
  obtain ⟨other, rfl⟩ := exists_regions hchanged
  have hother : ¬(other.nonce = regions.nonce ∧ other.tunid = regions.tunid ∧
      other.cipher = cipher ∧ other.mac = mac) := by
    rintro ⟨hnonce, htunid, hcipher, hmac⟩
    apply hne
    rw [← hnonce, ← htunid, ← hcipher, ← hmac]
  rw [producedMessage_bytes_iff, producedMessage_bytes_iff]
  exact exists_congr fun plain => produced_encrypt_of_ne hencrypt hother plain

variable (aead) (state) (key) (block) in
/-- An encryption keeps the nonce and the id, and its message is decrypted to the
block.  Any other message fails, unless it was produced itself; so where nothing
was produced under the key before, no changed message is decrypted. -/
theorem i2pTunnelV2_authenticated {msg : List Byte} (hmsg : msg.length = tdmV2Size) :
    ∃ state' msg', i2pTunnelV2Encrypt aead state key block msg = .ok (0, state', msg') ∧
      msg'.length = tdmV2Size ∧
      load msg' tunnonceV2Offset tunnonceV2Size = load msg tunnonceV2Offset tunnonceV2Size ∧
      load msg' tunidV2Offset tunidSize = load msg tunidV2Offset tunidSize ∧
      (∀ old, i2pTunnelV2Decrypt aead state' key msg' old = .ok (0, block)) ∧
      (∀ changed old, changed.length = tdmV2Size → changed ≠ msg' →
        ∃ returned block', i2pTunnelV2Decrypt aead state' key changed old =
            .ok (returned, block') ∧
          (returned = 0 ∨ returned = -1) ∧
          (returned = 0 ↔ ProducedMessage aead state key changed)) ∧
      ((∀ box, aead.produced state box → box.key ≠ key) →
        ∀ changed old, changed.length = tdmV2Size → changed ≠ msg' →
          ∃ block', i2pTunnelV2Decrypt aead state' key changed old = .ok (-1, block')) := by
  obtain ⟨regions, rfl⟩ := exists_regions hmsg
  rcases hencrypt : aead.encrypt state key regions.nonce regions.tunid block with
    ⟨state', cipher, mac⟩
  have hother : ∀ changed old, changed.length = tdmV2Size →
      changed ≠ { regions with mac := mac, cipher := cipher }.bytes →
        ∃ returned block', i2pTunnelV2Decrypt aead state' key changed old =
            .ok (returned, block') ∧
          (returned = 0 ∨ returned = -1) ∧
          (returned = 0 ↔ ProducedMessage aead state key changed) := by
    intro changed old hchanged hne
    obtain ⟨returned, block', hrun, hreturned, hiff⟩ :=
      @i2pTunnelV2Decrypt_iff State aead state' key changed hchanged old
    exact ⟨returned, block', hrun, hreturned,
      hiff.trans (producedMessage_encrypt_of_ne hencrypt hchanged hne)⟩
  refine ⟨state', _, i2pTunnelV2Encrypt_bytes hencrypt, Regions.length_bytes _, ?_, ?_,
    fun old => ?_, hother, fun hfresh changed old hchanged hne => ?_⟩
  · rw [load_nonce, load_nonce]
  · rw [load_tunid, load_tunid]
  · rw [i2pTunnelV2Decrypt_bytes]
    exact congrArg Except.ok (decrypt_encrypt hencrypt old)
  · obtain ⟨returned, block', hrun, hreturned, hiff⟩ := hother changed old hchanged hne
    have hfails : ¬ProducedMessage aead state key changed := by
      rintro ⟨_, _, plain, hproduced⟩
      exact hfresh _ hproduced rfl
    obtain rfl := hreturned.resolve_left (hiff.not.mpr hfails)
    exact ⟨block', hrun⟩

end Runs

/-! ## A small AEAD -/

def zeroMac : TunnelMac := List.Vector.replicate 16 0

/-- The ciphertext is the plaintext, and the encryptions are listed. -/
def listAead :
    ChaCha20Poly1305 (List (TunnelKey × TunnelNonce × TunnelIdBytes × TunnelDataBlockV2)) where
  encrypt := fun log key nonce tunid plain => ((key, nonce, tunid, plain) :: log, plain, zeroMac)
  decrypt := fun log key nonce tunid cipher mac old =>
    if (key, nonce, tunid, cipher) ∈ log ∧ mac = zeroMac then (0, cipher) else (-1, old)
  produced := fun log box =>
    (box.key, box.nonce, box.data, box.plain) ∈ log ∧ box.cipher = box.plain ∧ box.tag = zeroMac
  produced_encrypt := by
    rintro log key nonce tunid plain _ _ _ hencrypt ⟨boxKey, boxNonce, boxTunid, boxPlain, _, _⟩
    obtain ⟨rfl, rfl, rfl⟩ : _ ∧ _ ∧ _ := by simpa using hencrypt
    simp only [List.mem_cons, Prod.mk.injEq, Sealed.mk.injEq]
    constructor
    · rintro ⟨⟨rfl, rfl, rfl, rfl⟩ | hlog, hcipher, hmac⟩
      · exact .inl ⟨rfl, rfl, rfl, rfl, hcipher, hmac⟩
      · exact .inr ⟨hlog, hcipher, hmac⟩
    · rintro (⟨rfl, rfl, rfl, rfl, rfl, rfl⟩ | ⟨hlog, hcipher, hmac⟩)
      · exact ⟨.inl ⟨rfl, rfl, rfl, rfl⟩, rfl, rfl⟩
      · exact ⟨.inr hlog, hcipher, hmac⟩
  decrypt_of_produced := by
    rintro log box old ⟨hlog, hcipher, hmac⟩
    rw [hcipher, if_pos ⟨hlog, hmac⟩]
  decrypt_of_not_produced := by
    intro log key nonce tunid cipher mac old hnone
    rw [if_neg fun hboth => hnone cipher ⟨hboth.1, rfl, hboth.2⟩]

theorem i2pTunnelV2_authenticated_zeros :
    ∃ state' msg', i2pTunnelV2Encrypt listAead [] (List.Vector.replicate 32 1)
        (List.Vector.replicate 2016 0) (List.replicate 2048 0) = .ok (0, state', msg') ∧
      msg'.length = tdmV2Size ∧
      load msg' tunnonceV2Offset tunnonceV2Size =
        load (List.replicate 2048 0) tunnonceV2Offset tunnonceV2Size ∧
      load msg' tunidV2Offset tunidSize = load (List.replicate 2048 0) tunidV2Offset tunidSize ∧
      (∀ old, i2pTunnelV2Decrypt listAead state' (List.Vector.replicate 32 1) msg' old =
        .ok (0, List.Vector.replicate 2016 0)) ∧
      ∀ changed old, changed.length = tdmV2Size → changed ≠ msg' →
        ∃ block', i2pTunnelV2Decrypt listAead state' (List.Vector.replicate 32 1) changed old =
          .ok (-1, block') := by
  obtain ⟨state', msg', hencrypt, hlength, hnonce, htunid, hdecrypt, _, hchanged⟩ :=
    i2pTunnelV2_authenticated listAead [] (List.Vector.replicate 32 1)
      (List.Vector.replicate 2016 0) (@List.length_replicate Byte 2048 0)
  exact ⟨state', msg', hencrypt, hlength, hnonce, htunid, hdecrypt,
    hchanged fun box hproduced => absurd hproduced.1 List.not_mem_nil⟩

end I2pLite.TunnelChaCha
