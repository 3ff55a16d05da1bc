import I2pLite.Identity.Commitment

/-!
# The base64 form of an identity

`mnet_identity_to_base64` copies the certificate over the key instead of behind
it.  What `mnet_identity_from_base64` makes of the string is the same identity
only where the two look alike.
-/

namespace I2pLite.Base64Form

open I2pLite.CRun
open I2pLite.CBytes
open I2pLite.Memory
open I2pLite.Base64
open I2pLite.Cert
open I2pLite.Identity
open I2pLite.Commitment

/-- The bytes that are encoded for a key and a certificate. -/
def assembled (key : EddsaPubkey) (certdata : List Byte) : List Byte :=
  let sz := certdata.length % 65536
  (certdata.take sz ++ (key.toList ++ List.replicate 96 0).drop sz).take (sz + 32)

theorem mnetIdentityToBase64_eq (key : EddsaPubkey) (certdata : List Byte) :
    mnetIdentityToBase64 (identityOf key (.filled certdata)) =
      if certdata.length % 65536 + 32 ≤ 128 then
        .ok (some ⟨encodeGroups (assembled key certdata), encodeGroups_noNul _⟩)
      else .ok none := by
  have hkey : store (List.replicate 128 0) 0 key.toList =
      .ok (key.toList ++ List.replicate 96 0) := by
    rw [store_of_le (by simp)]
    simp
  have hsize : (mnetCertBufferLength (.filled certdata)).toNat = certdata.length % 65536 := by
    rw [mnetCertBufferLength, UInt16.toNat_ofNat']
    rfl
  obtain ⟨loaded, hload, hloaded⟩ := exists_load certdata
    (show 0 + (mnetCertBufferLength (.filled certdata)).toNat ≤ _ by
      rw [hsize]
      have := Nat.mod_le certdata.length 65536
      omega)
  replace hloaded : loaded.toList = certdata.take (certdata.length % 65536) := by
    rw [hloaded, hsize, List.drop_zero]
  have hcall : mnetIdentityToBase64 (identityOf key (.filled certdata)) = (do
      let data ← store (List.replicate 128 0) 0 key.toList
      let sz := (mnetCertBufferLength (.filled certdata)).toNat
      if sz + 32 ≤ 128 then
        let certdata ← load certdata 0 sz
        let data ← store data 0 certdata.toList
        let string ← base64EncodeStr data (sz + 32)
        .ok (some string)
      else .ok none) := rfl
  rw [hcall, hkey, ok_bind]
  dsimp only
  rw [hload]
  simp only [ok_bind, hloaded, hsize]
  by_cases hfits : certdata.length % 65536 + 32 ≤ 128
  · have hle := Nat.mod_le certdata.length 65536
    rw [if_pos hfits, if_pos hfits, store_of_le (by simp; omega), ok_bind,
      base64EncodeStr_eq (by simp; omega) (by omega), ok_bind]
    simp only [List.take_zero, List.nil_append, Nat.zero_add, List.length_take,
      Nat.min_eq_left hle]
    rfl
  · rw [if_neg hfits, if_neg hfits]

/-- From its base64 form the identity is read back: the call returns 1, and the
key, the certificate and what is hashed are the same. -/
def RoundTrips (key : EddsaPubkey) (cert : MnetCert) (string : CString) : Prop :=
  ∃ i', mnetIdentityFromBase64 mnetIdentityNew string = .ok (i', 1) ∧ i'.eddsa = some key ∧
    (∃ cert', i'.cert = some cert' ∧ mnetCertBuffer cert' = mnetCertBuffer cert) ∧
    mnetIdentityHashed i' = mnetIdentityHashed (identityOf key cert)

section RoundTrip

variable {key : EddsaPubkey} {certdata : List Byte}

theorem length_assembled (key : EddsaPubkey) (hfits : certdata.length % 65536 + 32 ≤ 128) :
    (assembled key certdata).length = certdata.length % 65536 + 32 := by
  have hle := Nat.mod_le certdata.length 65536
  simp only [assembled, List.length_take, List.length_append, List.length_drop,
    List.length_replicate, List.Vector.toList_length]
  omega

/-- The call reads what was encoded, in a buffer that is longer. -/
theorem exists_fromBase64_eq {string : CString} (hfits : certdata.length % 65536 + 32 ≤ 128)
    (hstring : string.bytes = encodeGroups (assembled key certdata)) :
    ∃ tail, mnetIdentityFromBase64 mnetIdentityNew string = (do
      let (i, data) ← mnetIdentityReadBuffer mnetIdentityNew (assembled key certdata ++ tail)
        (certdata.length % 65536 + 32)
      .ok (i, if data ≠ none then 1 else 0)) := by
  have hlength := length_assembled key hfits
  obtain ⟨tail, hdecode⟩ := base64DecodeStr_encodeGroups hstring
    (by rw [← List.length_pos_iff]; omega) (by omega)
  refine ⟨tail, ?_⟩
  rw [mnetIdentityFromBase64, hdecode, ok_bind, hlength]
  rfl

theorem bytes_of_toBase64 {string : CString}
    (hstring : mnetIdentityToBase64 (identityOf key (.filled certdata)) = .ok (some string)) :
    certdata.length % 65536 + 32 ≤ 128 ∧ string.bytes = encodeGroups (assembled key certdata) := by
  rw [mnetIdentityToBase64_eq] at hstring
  by_cases hfits : certdata.length % 65536 + 32 ≤ 128
  · rw [if_pos hfits] at hstring
    obtain rfl := Option.some.inj (Except.ok.inj hstring)
    exact ⟨hfits, rfl⟩
  · rw [if_neg hfits] at hstring
    cases Except.ok.inj hstring

/-- A certificate that was initialized: the announced length is that of its
data. -/
theorem exists_of_init {type : Byte} {data : List Byte} {len : UInt16} {cert : MnetCert}
    (hinit : mnetCertInit type data len = .ok cert) :
    ∃ body, cert = .filled (type :: htobe16 len ++ body) ∧ body.length = len.toNat := by
  obtain ⟨body, _, hcert⟩ := bind_eq_ok.mp hinit
  exact ⟨body.toList, (Except.ok.inj hcert).symm, body.toList_length⟩

/-- The front of what is encoded for a certificate that was not cut. -/
theorem assembled_of_fits (hfits : certdata.length ≤ 96) :
    assembled key certdata =
      certdata ++ ((key.toList ++ List.replicate 96 0).drop certdata.length).take 32 := by
  have hcount : certdata.length % 65536 = certdata.length := Nat.mod_eq_of_lt (by omega)
  simp only [assembled, hcount, List.take_length]
  rw [List.take_append, List.take_of_length_le (by omega), Nat.add_sub_cancel_left]

end RoundTrip

/-- Behind a certificate without data stands the rest of the key. -/
theorem assembled_null (key : EddsaPubkey) (type : Byte) :
    assembled key [type, 0, 0] = ([type, 0, 0] ++ key.toList.drop 3) ++ [0, 0, 0] := by
  have hlength : (key.toList.drop 3).length = 29 := by
    rw [List.length_drop, key.toList_length]
  rw [assembled_of_fits (by simp), List.append_assoc]
  refine congrArg ([type, 0, 0] ++ ·) ?_
  rw [show [type, 0, 0].length = 3 from rfl, List.drop_append_of_le_length (by simp),
    List.take_append, List.take_of_length_le (by omega), hlength]
  rfl

theorem fromBase64_of_zeros {key : EddsaPubkey} (hkey : key.toList.take 3 = [0, 0, 0])
    {string : CString} (hstring : string.bytes = encodeGroups (assembled key [0, 0, 0])) :
    mnetIdentityFromBase64 mnetIdentityNew string =
      .ok (identityOf key (.filled [0, 0, 0]), 1) := by
  obtain ⟨tail, heq⟩ := exists_fromBase64_eq (by simp) hstring
  have hinput : assembled key [0, 0, 0] ++ tail = key.toList ++ (0 :: 0 :: 0 :: tail) := by
    rw [assembled_null, ← hkey, List.take_append_drop, hkey, List.append_assoc]
    rfl
  have hdrop : (key.toList ++ (0 :: 0 :: 0 :: tail)).drop 32 = 0 :: 0 :: 0 :: tail :=
    List.drop_left' key.toList_length
  have hlength : certLength (key.toList ++ (0 :: 0 :: 0 :: tail)) = 0 := by
    rw [certLength, hdrop]
    rfl
  have hread := mnetIdentityReadBuffer_eq mnetIdentityNew
    (key.toList ++ (0 :: 0 :: 0 :: tail)) (show 35 ≤ 35 from le_rfl) (by simp; omega)
  rw [hlength, if_neg (by omega), if_pos (by simp; omega), hdrop] at hread
  have hsame : keyOf (key.toList ++ (0 :: 0 :: 0 :: tail)) (by simp) = key :=
    List.Vector.eq _ _ (List.take_left' key.toList_length)
  rw [heq, hinput]
  change (mnetIdentityReadBuffer mnetIdentityNew _ 35 >>= _) = _
  rw [hread, hsame]
  rfl

/-- Behind a certificate with data, or with a type, nothing is what it was. -/
theorem zeros_of_roundTrips {key : EddsaPubkey} {type : Byte} {len : UInt16} {body : List Byte}
    {string : CString} (hbody : body.length = len.toNat)
    (hstring : mnetIdentityToBase64 (identityOf key (.filled (type :: htobe16 len ++ body))) =
      .ok (some string))
    (hround : RoundTrips key (.filled (type :: htobe16 len ++ body)) string) :
    type = 0 ∧ len = 0 ∧ key.toList.take 3 = [0, 0, 0] := by
  obtain ⟨hfits, hencoded⟩ := bytes_of_toBase64 hstring
  obtain ⟨i', hcall, hkey, ⟨cert', hcert, hbytes⟩, _⟩ := hround
  obtain ⟨tail, heq⟩ := exists_fromBase64_eq hfits hencoded
  rw [heq] at hcall
  obtain ⟨⟨i, stop⟩, hread, hresult⟩ := bind_eq_ok.mp hcall
  obtain ⟨rfl, hone⟩ := ok_pair_inj hresult
  obtain ⟨offset, rfl⟩ : ∃ offset, stop = some offset := by
    rw [← Option.ne_none_iff_exists']
    rintro rfl
    simp at hone
  obtain ⟨key', type', body', rfl, _, hkey', htype'⟩ := IsRead.exists_parts ⟨_, _, hread⟩
  obtain rfl := Option.some.inj hkey
  obtain rfl := Option.some.inj hcert
  have hstored : type' :: 0 :: 0 :: body' = type :: htobe16 len ++ body := Option.some.inj hbytes
  obtain ⟨rfl, hrest⟩ := List.cons.inj hstored
  obtain ⟨hhigh, hrest⟩ := List.cons.inj hrest
  obtain ⟨hlow, rfl⟩ := List.cons.inj hrest
  obtain rfl : len = 0 := htobe16_injective (congrArg₂ (fun high low => [high, low])
    hhigh.symm hlow.symm)
  obtain rfl := List.length_eq_zero_iff.mp hbody
  rw [show type' :: htobe16 0 ++ [] = [type', 0, 0] from rfl, assembled_null] at hkey' htype'
  have hlength : ([type', 0, 0] ++ key'.toList.drop 3).length = 32 := by simp
  rw [List.append_assoc, List.take_left' hlength] at hkey'
  rw [List.append_assoc, List.drop_left' hlength] at htype'
  obtain rfl : type' = 0 := htype'
  exact ⟨rfl, rfl, by rw [hkey']; rfl⟩

/-- The base64 form of an identity is read back as the same identity exactly
where the certificate is three zero bytes and the key starts with these. -/
theorem roundTrips_iff {key : EddsaPubkey} {type : Byte} {data : List Byte} {len : UInt16}
    {cert : MnetCert} {string : CString} (hinit : mnetCertInit type data len = .ok cert)
    (hstring : mnetIdentityToBase64 (identityOf key cert) = .ok (some string)) :
    RoundTrips key cert string ↔ type = 0 ∧ len = 0 ∧ key.toList.take 3 = [0, 0, 0] := by
  obtain ⟨body, rfl, hbody⟩ := exists_of_init hinit
  constructor
  · exact zeros_of_roundTrips hbody hstring
  · rintro ⟨rfl, rfl, hkey⟩
    obtain rfl := List.length_eq_zero_iff.mp hbody
    have hround := fromBase64_of_zeros hkey (bytes_of_toBase64 hstring).2
    exact ⟨_, hround, rfl, ⟨_, rfl, rfl⟩, rfl⟩

theorem roundTrips_iff_zeros :
    ∃ string, mnetIdentityToBase64 (identityOf (.replicate 32 0) (.filled [0, 0, 0])) =
        .ok (some string) ∧
      (RoundTrips (.replicate 32 0) (.filled [0, 0, 0]) string ↔
        (0 : Byte) = 0 ∧ (0 : UInt16) = 0 ∧
          (List.Vector.replicate 32 (0 : Byte)).toList.take 3 = [0, 0, 0]) := by
  have hinit : mnetCertInit 0 [] 0 = .ok (.filled [0, 0, 0]) := rfl
  have hstring := mnetIdentityToBase64_eq (.replicate 32 0) [0, 0, 0]
  exact ⟨_, hstring, roundTrips_iff hinit hstring⟩

/-- A key of ones with a null certificate: three bytes of the key are lost. -/
theorem not_roundTrips_ones :
    ∃ cert string, mnetCertInit 0 [] 0 = .ok cert ∧
      mnetIdentityToBase64 (identityOf (.replicate 32 1) cert) = .ok (some string) ∧
      ¬ RoundTrips (.replicate 32 1) cert string := by
  have hstring := mnetIdentityToBase64_eq (.replicate 32 1) [0, 0, 0]
  refine ⟨.filled [0, 0, 0], _, rfl, hstring, fun hround => ?_⟩
  have hbody : ([] : List Byte).length = (0 : UInt16).toNat := rfl
  exact absurd (zeros_of_roundTrips hbody hstring hround).2.2 (by decide)

end I2pLite.Base64Form
