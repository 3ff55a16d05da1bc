import Mathlib.Data.Fintype.BigOperators
import I2pLite.RouterInfo.Ri

/-!
# What a verified router info has signed

The length of the signed data is the length of the router info less a
signature, narrowed to an `int`.  A generated router info has neither data nor a
signature.
-/

namespace I2pLite.Verify

open I2pLite.CRun
open I2pLite.CBytes
open I2pLite.CInt
open I2pLite.Memory
open I2pLite.Identity
open I2pLite.Keys
open I2pLite.Ri

/-- Signatures that verify exactly where they were made by the matching key. -/
structure SignatureScheme (Hash : Type) where
  code : SignatureCode Hash
  publicKeyOf : EddsaPrivkey → EddsaPubkey
  sign : EddsaPrivkey → Hash → EddsaSig
  ideal : ∀ key hash sig, code.eddsaVerifySignature key hash sig = true ↔
    ∃ priv, publicKeyOf priv = key ∧ sig = sign priv hash

variable {Hash : Type} {scheme : SignatureScheme Hash} {ri : RouterInfo}

/-- At an offset of the data stands a signature that the key of the identity has
made over all bytes before it. -/
def SignedAt (scheme : SignatureScheme Hash) (ri : RouterInfo) (offset : ℕ) : Prop :=
  ∃ identity key data sig priv, ri.identity = some identity ∧ identity.eddsa = some key ∧
    ri.data = some data ∧ load data offset 64 = .ok sig ∧ scheme.publicKeyOf priv = key ∧
    sig = scheme.sign priv (scheme.code.mnetHash (data.take offset))

/-- The length of what is verified. -/
def verifiedLength (ri : RouterInfo) : ℤ := toInt32 (toSize (ri.len - mnetIdentitySiglen))

theorem routerInfoVerify_eq_one_iff :
    routerInfoVerify scheme.code ri = .ok 1 ↔
      0 < verifiedLength ri ∧ SignedAt scheme ri (verifiedLength ri).toNat := by
  rw [routerInfoVerify, ← verifiedLength]
  by_cases hpos : 0 < verifiedLength ri
  · rw [if_pos hpos, and_iff_right hpos]
    generalize (verifiedLength ri).toNat = offset
    constructor
    · intro hverify
      obtain ⟨identity, hidentity, hverify⟩ := bind_eq_ok.mp hverify
      obtain ⟨data, hdata, hverify⟩ := bind_eq_ok.mp hverify
      rw [mnetIdentityVerifyData] at hverify
      obtain ⟨sig, hsig, hverify⟩ := bind_eq_ok.mp hverify
      obtain ⟨signed, hsigned, hverify⟩ := bind_eq_ok.mp hverify
      obtain ⟨key, hkey, hverify⟩ := bind_eq_ok.mp hverify
      have hbytes := (load_eq_ok_iff.mp hsigned).2
      rw [List.drop_zero] at hbytes
      have hgood : scheme.code.eddsaVerifySignature key
          (scheme.code.mnetHash signed.toList) sig = true := by
        by_contra hbad
        rw [if_neg hbad] at hverify
        exact zero_ne_one (Except.ok.inj hverify)
      obtain ⟨priv, hpub, hsign⟩ := (scheme.ideal _ _ _).mp hgood
      rw [hbytes] at hsign
      exact ⟨identity, key, data, sig, priv, deref_eq_ok.mp hidentity, deref_eq_ok.mp hkey,
        deref_eq_ok.mp hdata, hsig, hpub, hsign⟩
    · rintro ⟨identity, key, data, sig, priv, hidentity, hkey, hdata, hsig, hpub, hsign⟩
      have hinside := (load_eq_ok_iff.mp hsig).1
      obtain ⟨signed, hsigned, hbytes⟩ := exists_load data (show 0 + offset ≤ data.length by omega)
      rw [List.drop_zero] at hbytes
      have hgood : scheme.code.eddsaVerifySignature key
          (scheme.code.mnetHash signed.toList) sig = true := by
        rw [hbytes]
        exact (scheme.ideal _ _ _).mpr ⟨priv, hpub, hsign⟩
      rw [hidentity, hdata, deref_some, ok_bind, deref_some, ok_bind, mnetIdentityVerifyData, hsig,
        ok_bind, hsigned, ok_bind, hkey, deref_some, ok_bind, if_pos hgood]
  · rw [if_neg hpos]
    exact iff_of_false (by simp) fun hboth => hpos hboth.1

/-- The trailing signature was made over everything in front of it, and there is
something in front of it. -/
def SignedAtEnd (scheme : SignatureScheme Hash) (ri : RouterInfo) : Prop :=
  64 < ri.len ∧ SignedAt scheme ri (ri.len - 64)

/-- Another signature is taken for the trailing one: the length is beyond an
`int`, the identity has signed a part of the data where the narrowed length
ends, and not all of it. -/
def Misread (scheme : SignatureScheme Hash) (ri : RouterInfo) : Prop :=
  2 ^ 31 + 64 ≤ ri.len ∧ 0 < verifiedLength ri ∧
    SignedAt scheme ri (verifiedLength ri).toNat ∧ ¬ SignedAt scheme ri (ri.len - 64)

theorem verifiedLength_eq (hlen : ri.len < 2 ^ 31 + 64) : verifiedLength ri = ri.len - 64 := by
  have hlow : -2 ^ 31 ≤ (ri.len : ℤ) - 64 := by omega
  have hhigh : (ri.len : ℤ) - 64 < 2 ^ 31 := by omega
  rw [verifiedLength, toInt32_toSize]
  exact toInt32_of_lt hlow hhigh

theorem verified_signedAtEnd_iff (scheme : SignatureScheme Hash) (ri : RouterInfo) :
    (routerInfoVerify scheme.code ri = .ok 1 → SignedAtEnd scheme ri) ↔ ¬ Misread scheme ri := by
  rw [routerInfoVerify_eq_one_iff]
  by_cases hlen : ri.len < 2 ^ 31 + 64
  · refine iff_of_true ?_ fun hmisread => absurd hmisread.1 (by omega)
    rintro ⟨hpos, hsigned⟩
    rw [verifiedLength_eq hlen] at hpos hsigned
    have hoffset : ((ri.len : ℤ) - 64).toNat = ri.len - 64 := by omega
    rw [hoffset] at hsigned
    exact ⟨by omega, hsigned⟩
  · constructor
    · rintro hend ⟨_, hpos, hsigned, hnot⟩
      exact hnot (hend ⟨hpos, hsigned⟩).2
    · rintro hmisread ⟨hpos, hsigned⟩
      refine ⟨by omega, ?_⟩
      by_contra hnot
      exact hmisread ⟨by omega, hpos, hsigned, hnot⟩

theorem verifiedLength_generate (keys : MnetIdentityKeys) (config : RouterInfoConfig) :
    verifiedLength (routerInfoGenerate keys config) = -64 := by
  have hlen : (routerInfoGenerate keys config).len = 0 := rfl
  rw [verifiedLength_eq (by omega), hlen]
  rfl

/-! ## Lengths that are misread -/

/-- Narrowed to an `int`, the length of what is signed keeps its value, or is
not positive. -/
def LengthFits (len : ℕ) : Prop :=
  len < 2 ^ 31 + 64 ∨ (len - 64) % 2 ^ 32 = 0 ∨ 2 ^ 31 ≤ (len - 64) % 2 ^ 32

theorem verifiedLength_of_le (hlen : 64 ≤ ri.len) :
    verifiedLength ri = if (ri.len - 64) % 2 ^ 32 < 2 ^ 31 then ((ri.len - 64 : ℕ) : ℤ) % 2 ^ 32
      else ((ri.len - 64 : ℕ) : ℤ) % 2 ^ 32 - 2 ^ 32 := by
  have hcast : (ri.len : ℤ) - mnetIdentitySiglen = (ri.len - 64 : ℕ) :=
    (Int.natCast_sub hlen).symm
  rw [verifiedLength, toInt32_toSize, toInt32, hcast, Int.bmod_def]
  split_ifs <;> omega

/-- No length that fits is misread. -/
theorem not_misread_of_lengthFits (hfits : LengthFits ri.len) : ¬ Misread scheme ri := by
  rintro ⟨hlong, hpos, _⟩
  rw [verifiedLength_of_le (by omega)] at hpos
  rcases hfits with hshort | hzero | hhigh
  · omega
  · rw [if_pos (by omega)] at hpos
    omega
  · rw [if_neg (by omega)] at hpos
    omega

def byteEquiv : Fin 256 ≃ Byte where
  toFun := UInt8.ofFin
  invFun := UInt8.toFin
  left_inv := fun _ => rfl
  right_inv := fun _ => rfl

/-- There are more signatures than private keys. -/
theorem exists_ne_sign (scheme : SignatureScheme Hash) (hash : Hash) :
    ∃ sig : EddsaSig, ∀ priv, sig ≠ scheme.sign priv hash := by
  have := Fintype.ofEquiv (Fin 256) byteEquiv
  by_contra hall
  have hsurjective : Function.Surjective fun priv => scheme.sign priv hash := by
    intro sig
    by_contra hsig
    exact hall ⟨sig, fun priv heq => hsig ⟨priv, heq.symm⟩⟩
  have hcard := Fintype.card_le_of_surjective _ hsurjective
  rw [card_vector, card_vector, ← Fintype.card_congr byteEquiv, Fintype.card_fin] at hcard
  exact absurd hcard (Nat.not_le.mpr (Nat.pow_lt_pow_right (by decide) (by decide)))

/-- A router info over some data, with an identity for the key. -/
def infoOf (key : EddsaPubkey) (data : List Byte) : RouterInfo where
  data := some data
  len := data.length
  identity := some (identityOf key (.filled [0, 0, 0]))
  link := none
  caps := none

theorem signedAt_infoOf_iff {priv : EddsaPrivkey} {front back : List Byte} {sig : EddsaSig} :
    SignedAt scheme (infoOf (scheme.publicKeyOf priv) (front ++ (sig.toList ++ back)))
        front.length ↔
      ∃ other, scheme.publicKeyOf other = scheme.publicKeyOf priv ∧
        sig = scheme.sign other (scheme.code.mnetHash front) := by
  have hload : load (front ++ (sig.toList ++ back)) front.length 64 = .ok sig :=
    load_between front sig back rfl
  constructor
  · rintro ⟨identity, key, data, other, signer, hidentity, hkey, hdata, hsig, hpub, hsign⟩
    obtain rfl := Option.some.inj hidentity
    obtain rfl := Option.some.inj hkey
    obtain rfl := Option.some.inj hdata
    obtain rfl := Except.ok.inj (hload.symm.trans hsig)
    rw [List.take_left] at hsign
    exact ⟨signer, hpub, hsign⟩
  · rintro ⟨other, hpub, hsign⟩
    refine ⟨_, _, _, sig, other, rfl, rfl, rfl, hload, hpub, ?_⟩
    rw [List.take_left]
    exact hsign

/-- Of every other length there is a router info that is misread: signed where
the narrowed length ends, and with no signature at its end. -/
theorem exists_misread (scheme : SignatureScheme Hash) {len : ℕ} (hfits : ¬ LengthFits len) :
    ∃ ri, ri.len = len ∧ Misread scheme ri := by
  rw [LengthFits, not_or, not_or] at hfits
  obtain ⟨hlong, hzero, hlow⟩ := hfits
  generalize hoffset : (len - 64) % 2 ^ 32 = offset at hzero hlow
  have hbetween : offset + 128 ≤ len := by omega
  let priv : EddsaPrivkey := .replicate 32 0
  let front : List Byte := List.replicate offset 0
  let first := scheme.sign priv (scheme.code.mnetHash front)
  let between : List Byte := List.replicate (len - 128 - offset) 0
  obtain ⟨last, hlast⟩ :=
    exists_ne_sign scheme (scheme.code.mnetHash (front ++ (first.toList ++ between)))
  have hfront : front.length = offset := List.length_replicate
  have hbody : (front ++ (first.toList ++ between)).length = len - 64 := by
    simp only [List.length_append, hfront, List.Vector.toList_length, between,
      List.length_replicate]
    omega
  have hdata : front ++ (first.toList ++ (between ++ (last.toList ++ []))) =
      front ++ (first.toList ++ between) ++ (last.toList ++ []) := by
    simp only [List.append_assoc]
  have hlen : (infoOf (scheme.publicKeyOf priv)
      (front ++ (first.toList ++ (between ++ (last.toList ++ []))))).len = len := by
    rw [hdata]
    change (front ++ (first.toList ++ between) ++ (last.toList ++ [])).length = len
    rw [List.length_append, hbody, List.append_nil, List.Vector.toList_length]
    omega
  refine ⟨_, hlen, ?_⟩
  have hlength := verifiedLength_of_le (show 64 ≤ RouterInfo.len _ from by rw [hlen]; omega)
  have hvalue : ((len - 64 : ℕ) : ℤ) % 2 ^ 32 = offset := by omega
  rw [hlen, hoffset, if_pos (by omega), hvalue] at hlength
  refine ⟨by rw [hlen]; omega, by rw [hlength]; omega, ?_, ?_⟩
  · rw [hlength, Int.toNat_natCast, ← hfront]
    exact signedAt_infoOf_iff.mpr ⟨priv, rfl, rfl⟩
  · rw [hlen, ← hbody, hdata]
    rintro hsigned
    obtain ⟨other, _, hsign⟩ := signedAt_infoOf_iff.mp hsigned
    exact hlast other hsign

/-- No generated router info is verified.  What is verified is signed at its end
by its own key, for all router infos of a length exactly where the length fits. -/
theorem generated_not_verified_and_signedAtEnd_iff (scheme : SignatureScheme Hash) :
    (∀ keys config, routerInfoVerify scheme.code (routerInfoGenerate keys config) ≠ .ok 1) ∧
      ∀ len, (∀ ri, ri.len = len → routerInfoVerify scheme.code ri = .ok 1 →
        SignedAtEnd scheme ri) ↔ LengthFits len := by
  refine ⟨fun keys config hverify => ?_, fun len => ?_⟩
  · have hpos := (routerInfoVerify_eq_one_iff.mp hverify).1
    rw [verifiedLength_generate] at hpos
    omega
  · constructor
    · intro hsound
      by_contra hfits
      obtain ⟨ri, hlen, hmisread⟩ := exists_misread scheme hfits
      exact (verified_signedAtEnd_iff scheme ri).mp (hsound ri hlen) hmisread
    · rintro hfits ri rfl
      exact (verified_signedAtEnd_iff scheme ri).mpr (not_misread_of_lengthFits hfits)

/-! ## A small scheme -/

/-- The public key is the private one, and a signature is both the key and the
hash. -/
def plainVerify (key : EddsaPubkey) (hash : List.Vector Byte 32) (sig : EddsaSig) : Bool :=
  sig.toList = key.toList ++ hash.toList

theorem plainVerify_iff (key : EddsaPubkey) (hash : List.Vector Byte 32) (sig : EddsaSig) :
    plainVerify key hash sig = true ↔
      ∃ priv : EddsaPrivkey, id priv = key ∧ sig = priv ++ hash := by
  rw [plainVerify, decide_eq_true_iff, ← List.Vector.toList_append]
  constructor
  · intro hsig
    exact ⟨key, rfl, List.Vector.eq _ _ hsig⟩
  · rintro ⟨priv, rfl, rfl⟩
    rfl

def plainScheme : SignatureScheme (List.Vector Byte 32) where
  code := {
    mnetHash := fun _ => .replicate 32 0
    eddsaVerifySignature := plainVerify }
  publicKeyOf := id
  sign := fun priv hash => priv ++ hash
  ideal := plainVerify_iff

/-- Keys with an identity, and no capabilities. -/
def plainKeys : MnetIdentityKeys where
  ident := some (identityOf (.replicate 32 0) (.filled [0, 0, 0]))
  eddsa := some ⟨.replicate (32 + 32) 0⟩

theorem not_routerInfoVerify_plainKeys :
    routerInfoVerify plainScheme.code (routerInfoGenerate plainKeys { caps := none }) ≠ .ok 1 := by
  intro hverify
  have hpos := (routerInfoVerify_eq_one_iff.mp hverify).1
  rw [verifiedLength_generate] at hpos
  omega

end I2pLite.Verify
