import Mathlib.Data.Int.Notation
import Mathlib.Logic.Basic

/-!
# Ideal authenticated encryption

An encryption with associated data produces a ciphertext and a tag for a
plaintext.  Ideally a decryption succeeds on exactly what some encryption
produced together under the key, and then returns its plaintext.
-/

namespace I2pLite.Aead

/-- One encryption: what it was given, and what it produced. -/
structure Sealed (Key Nonce Data Plain Cipher Tag : Type) where
  key : Key
  nonce : Nonce
  data : Data
  plain : Plain
  cipher : Cipher
  tag : Tag

/-- An AEAD whose state remembers the encryptions.  A decryption returns 0 and
stores the plaintext, or it returns -1; nothing is said of what it stores then
over the former bytes. -/
structure IdealAead (State Key Nonce Data Plain Cipher Tag : Type) where
  encrypt : State → Key → Nonce → Data → Plain → State × Cipher × Tag
  decrypt : State → Key → Nonce → Data → Cipher → Tag → Plain → ℤ × Plain
  produced : State → Sealed Key Nonce Data Plain Cipher Tag → Prop
  produced_encrypt : ∀ state key nonce data plain state' cipher tag,
    encrypt state key nonce data plain = (state', cipher, tag) →
      ∀ box, produced state' box ↔ box = ⟨key, nonce, data, plain, cipher, tag⟩ ∨ produced state box
  decrypt_of_produced : ∀ state box old, produced state box →
    decrypt state box.key box.nonce box.data box.cipher box.tag old = (0, box.plain)
  decrypt_of_not_produced : ∀ state key nonce data cipher tag old,
    (∀ plain, ¬produced state ⟨key, nonce, data, plain, cipher, tag⟩) →
      (decrypt state key nonce data cipher tag old).1 = -1

variable {State Key Nonce Data Plain Cipher Tag : Type}
variable {aead : IdealAead State Key Nonce Data Plain Cipher Tag} {state state' : State}
variable {key : Key} {nonce nonce' : Nonce} {data data' : Data} {plain : Plain}
variable {cipher cipher' : Cipher} {tag tag' : Tag}

theorem decrypt_returned (old : Plain) :
    ((aead.decrypt state key nonce data cipher tag old).1 = 0 ∨
      (aead.decrypt state key nonce data cipher tag old).1 = -1) ∧
    ((aead.decrypt state key nonce data cipher tag old).1 = 0 ↔
      ∃ plain, aead.produced state ⟨key, nonce, data, plain, cipher, tag⟩) := by
  by_cases hproduced : ∃ plain, aead.produced state ⟨key, nonce, data, plain, cipher, tag⟩
  · obtain ⟨plain, hplain⟩ := hproduced
    have hzero : (aead.decrypt state key nonce data cipher tag old).1 = 0 :=
      congrArg Prod.fst (aead.decrypt_of_produced state _ old hplain)
    exact ⟨.inl hzero, iff_of_true hzero ⟨plain, hplain⟩⟩
  · have hfails := aead.decrypt_of_not_produced state key nonce data cipher tag old
      fun plain hplain => hproduced ⟨plain, hplain⟩
    rw [hfails]
    exact ⟨.inr rfl, iff_of_false (by decide) hproduced⟩

/-- What was encrypted is decrypted to the plaintext. -/
theorem decrypt_encrypt (hencrypt : aead.encrypt state key nonce data plain = (state', cipher, tag))
    (old : Plain) : aead.decrypt state' key nonce data cipher tag old = (0, plain) :=
  aead.decrypt_of_produced state' ⟨key, nonce, data, plain, cipher, tag⟩ old
    ((aead.produced_encrypt _ _ _ _ _ _ _ _ hencrypt _).mpr (.inl rfl))

/-- A change in any role makes it something that the encryption did not produce. -/
theorem produced_encrypt_of_ne
    (hencrypt : aead.encrypt state key nonce data plain = (state', cipher, tag))
    (hne : ¬(nonce' = nonce ∧ data' = data ∧ cipher' = cipher ∧ tag' = tag)) (plain' : Plain) :
    aead.produced state' ⟨key, nonce', data', plain', cipher', tag'⟩ ↔
      aead.produced state ⟨key, nonce', data', plain', cipher', tag'⟩ := by
  rw [aead.produced_encrypt _ _ _ _ _ _ _ _ hencrypt, or_iff_right]
  intro hsame
  apply hne
  injection hsame with _ hnonce hdata _ hcipher htag
  exact ⟨hnonce, hdata, hcipher, htag⟩

end I2pLite.Aead
