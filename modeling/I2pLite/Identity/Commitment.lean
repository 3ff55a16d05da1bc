import I2pLite.Identity.Identity

/-!
# What an ident hash commits to

The hasher is fed the key of an identity and the bytes of its certificate.  How
many of the latter is a number of 16 bits, and a certificate can be longer.
-/

namespace I2pLite.Commitment

open I2pLite.CRun
open I2pLite.CBytes
open I2pLite.Memory
open I2pLite.Cert
open I2pLite.Identity

/-- A successful read of a buffer. -/
def IsRead (input : List Byte) (len : ℕ) (i : MnetIdentity) : Prop :=
  ∃ i₀ offset, mnetIdentityReadBuffer i₀ input len = .ok (i, some offset)

/-- The certificate that is stored for a type and data. -/
def storedCert (type : Byte) (body : List Byte) : MnetCert := .filled (type :: 0 :: 0 :: body)

/-- The two identities have the same key, certificate type and certificate
data. -/
structure SameIdentity (first second : MnetIdentity) : Prop where
  eddsa : first.eddsa = second.eddsa
  type : (deref first.cert >>= mnetCertType) = (deref second.cert >>= mnetCertType)
  data : (deref first.cert >>= mnetCertData) = (deref second.cert >>= mnetCertData)

/-- No other identity that is read from a buffer hands the same bytes to the
hasher. -/
def Commits (first : MnetIdentity) : Prop :=
  ∀ input len second hashed, IsRead input len second →
    mnetIdentityHashed first = .ok hashed → mnetIdentityHashed second = .ok hashed →
    SameIdentity first second

/-! ## Identities that are read -/

section Read

variable {input : List Byte} {len : ℕ} {i : MnetIdentity}

theorem bufbe16toh_eq_ok {buffer : List Byte} {offset : ℕ} {value : UInt16}
    (hcall : bufbe16toh buffer offset = .ok value) : offset + 2 ≤ buffer.length := by
  obtain ⟨bytes, hload, _⟩ := bind_eq_ok.mp hcall
  exact (load_eq_ok_iff.mp hload).1

theorem IsRead.length_le (hread : IsRead input len i) : 35 ≤ len ∧ 35 ≤ input.length := by
  obtain ⟨i₀, offset, hcall⟩ := hread
  rw [mnetIdentityReadBuffer] at hcall
  split_ifs at hcall with hlen
  · simp at hcall
  · obtain ⟨_, _, hcall⟩ := bind_eq_ok.mp hcall
    obtain ⟨_, hcert, _⟩ := bind_eq_ok.mp hcall
    rw [mnetCertReadBuffer, if_neg (by omega)] at hcert
    obtain ⟨value, hvalue, _⟩ := bind_eq_ok.mp hcert
    have hinside := bufbe16toh_eq_ok hvalue
    rw [List.length_drop] at hinside
    omega

theorem IsRead.exists_parts (hread : IsRead input len i) :
    ∃ key type body, i = identityOf key (storedCert type body) ∧ body.length = certLength input ∧
      key.toList = input.take 32 ∧ type = (input.drop 32).getD 0 0 := by
  obtain ⟨hlen, hlength⟩ := hread.length_le
  obtain ⟨i₀, offset, hcall⟩ := hread
  rw [mnetIdentityReadBuffer_eq i₀ input hlen hlength] at hcall
  split_ifs at hcall with hover hinside
  · simp at hcall
  · obtain ⟨rfl, _⟩ := ok_pair_inj hcall
    refine ⟨_, _, _, rfl, ?_, rfl, rfl⟩
    rw [List.length_take, ← certLength, List.length_drop, List.length_drop]
    omega

/-- Any key, type and data of up to 65535 bytes are read from some buffer. -/
theorem isRead_of_parts (key : EddsaPubkey) (type : Byte) {body : List Byte} {length : UInt16}
    (hbody : body.length = length.toNat) :
    IsRead (key.toList ++ (type :: htobe16 length ++ body)) (35 + body.length)
      (identityOf key (storedCert type body)) := by
  have hdrop : (key.toList ++ (type :: htobe16 length ++ body)).drop 32 =
      type :: htobe16 length ++ body := List.drop_left' key.toList_length
  have hcertLength : certLength (key.toList ++ (type :: htobe16 length ++ body)) = body.length := by
    rw [certLength, hdrop, hbody, ← be16toh_htobe16 length, be16toh_toNat, be16toh_htobe16]
    rfl
  have hlength : (key.toList ++ (type :: htobe16 length ++ body)).length = 35 + body.length := by
    rw [List.length_append, key.toList_length]
    simp only [htobe16, List.length_append, List.length_cons, List.length_nil]
    omega
  have hkey : keyOf (key.toList ++ (type :: htobe16 length ++ body)) (by omega) = key :=
    List.Vector.eq _ _ (List.take_left' key.toList_length)
  have hstored : storedBytes (type :: htobe16 length ++ body) = type :: 0 :: 0 :: body := by
    rw [storedBytes, ← hdrop, ← certLength, hcertLength, hdrop]
    exact congrArg (type :: 0 :: 0 :: ·) (List.take_length)
  refine ⟨mnetIdentityNew, 35 + body.length, ?_⟩
  rw [mnetIdentityReadBuffer_eq _ _ (by omega) (by omega), hcertLength, if_neg (by omega),
    if_pos (by omega), hkey, hdrop, hstored]
  rfl

end Read

/-! ## What is hashed -/

theorem mnetIdentityHashed_stored (key : EddsaPubkey) (type : Byte) (body : List Byte) :
    mnetIdentityHashed (identityOf key (storedCert type body)) =
      .ok (key.toList ++ (type :: 0 :: 0 :: body).take ((body.length + 3) % 65536)) := by
  have hsize : (mnetCertBufferLength (storedCert type body)).toNat = (body.length + 3) % 65536 := by
    rw [mnetCertBufferLength, UInt16.toNat_ofNat']
    rfl
  obtain ⟨data, hload, hdata⟩ := exists_load (type :: 0 :: 0 :: body)
    (show 0 + (mnetCertBufferLength (storedCert type body)).toNat ≤ _ by
      rw [hsize, List.length_cons, List.length_cons, List.length_cons]
      have := Nat.mod_le (body.length + 3) 65536
      omega)
  have hcall : mnetIdentityHashed (identityOf key (storedCert type body)) =
      load (type :: 0 :: 0 :: body) 0 (mnetCertBufferLength (storedCert type body)).toNat >>=
        fun data => .ok (key.toList ++ data.toList) := rfl
  rw [hcall, hload, ok_bind, hdata, hsize, List.drop_zero]

/-- A certificate that is short enough is hashed as a whole. -/
theorem mnetIdentityHashed_short (key : EddsaPubkey) (type : Byte) {body : List Byte}
    (hbody : body.length < 65533) :
    mnetIdentityHashed (identityOf key (storedCert type body)) =
      .ok (key.toList ++ type :: 0 :: 0 :: body) := by
  rw [mnetIdentityHashed_stored, Nat.mod_eq_of_lt (by omega), List.take_of_length_le (by simp)]

/-- A longer one is hashed without its data. -/
theorem mnetIdentityHashed_long (key : EddsaPubkey) (type : Byte) {body other : List Byte}
    (hbody : 65533 ≤ body.length) (hmax : body.length < 65536)
    (hother : other.length = body.length) :
    mnetIdentityHashed (identityOf key (storedCert type other)) =
      mnetIdentityHashed (identityOf key (storedCert type body)) := by
  have hheader : ∀ data : List Byte, (type :: 0 :: 0 :: data).take ((body.length + 3) % 65536) =
      [type, 0, 0].take ((body.length + 3) % 65536) := by
    intro data
    have hcount : (body.length + 3) % 65536 ≤ [type, 0, 0].length := by
      rw [List.length_cons, List.length_cons, List.length_cons, List.length_nil]
      omega
    exact (List.take_append_of_le_length hcount :
      ([type, 0, 0] ++ data).take _ = [type, 0, 0].take _)
  rw [mnetIdentityHashed_stored, mnetIdentityHashed_stored, hother, hheader other, hheader body]

theorem sameIdentity_stored {key key' : EddsaPubkey} {type type' : Byte} {body body' : List Byte}
    (hsame : SameIdentity (identityOf key (storedCert type body))
      (identityOf key' (storedCert type' body'))) : body = body' :=
  Except.ok.inj hsame.data

/-- A long certificate is hashed like the same one with all its data changed. -/
theorem not_commits_of_long (key : EddsaPubkey) (type : Byte) {body : List Byte}
    (hbody : 65533 ≤ body.length) (hmax : body.length < 65536) :
    ¬ Commits (identityOf key (storedCert type body)) := by
  intro hcommits
  have hlength : (body.map (· + 1)).length = (UInt16.ofNat body.length).toNat := by
    rw [List.length_map, UInt16.toNat_ofNat', Nat.mod_eq_of_lt hmax]
  have hsame := hcommits _ _ _ _ (isRead_of_parts key type hlength)
    (mnetIdentityHashed_stored key type body)
    ((mnetIdentityHashed_long key type hbody hmax (List.length_map _)).trans
      (mnetIdentityHashed_stored key type body))
  have hdata := sameIdentity_stored hsame
  cases body with
  | nil => simp at hbody
  | cons first rest =>
      have hfirst : first = first + 1 := (List.cons.inj hdata).1
      exact absurd hfirst (by simp)

/-- The ident hash of an identity that is read commits to it exactly where the
certificate announces less than 65533 bytes. -/
theorem commits_iff {input : List Byte} {len : ℕ} {first : MnetIdentity}
    (hread : IsRead input len first) : Commits first ↔ certLength input < 65533 := by
  obtain ⟨key, type, body, rfl, hbody, _⟩ := hread.exists_parts
  have hmax : certLength input < 65536 := announcedLength_lt _
  rw [← hbody] at hmax ⊢
  constructor
  · intro hcommits
    by_contra hlong
    exact not_commits_of_long key type (by omega) hmax hcommits
  · intro hshort input' len' second hashed hread' hfirst hsecond
    obtain ⟨key', type', body', rfl, hbody', _⟩ := hread'.exists_parts
    have hmax' : certLength input' < 65536 := announcedLength_lt _
    rw [← hbody'] at hmax'
    rw [mnetIdentityHashed_short key type hshort] at hfirst
    obtain rfl := Except.ok.inj hfirst
    have hshort' : body'.length < 65533 := by
      by_contra hlong
      rw [mnetIdentityHashed_stored, Except.ok.injEq] at hsecond
      have hcount := congrArg List.length hsecond
      simp only [List.length_append, List.length_take, List.length_cons,
        List.Vector.toList_length] at hcount
      omega
    rw [mnetIdentityHashed_short key' type' hshort', Except.ok.injEq] at hsecond
    obtain ⟨hkey, hcert⟩ := List.append_inj hsecond (by simp)
    obtain rfl := List.Vector.eq _ _ hkey
    obtain ⟨rfl, hrest⟩ := List.cons.inj hcert
    obtain rfl : body' = body := by simpa using hrest
    exact {
      eddsa := rfl
      type := rfl
      data := rfl }

theorem commits_iff_short :
    Commits (identityOf (.replicate 32 0) (storedCert 0 [])) ↔
      certLength ((List.Vector.replicate 32 (0 : Byte)).toList ++ (0 :: htobe16 0 ++ [])) < 65533 :=
  commits_iff (isRead_of_parts (.replicate 32 0) 0 rfl)

/-- A key of zeros with a certificate of 65535 zeros. -/
theorem not_commits_zeros :
    ∃ first, IsRead ((List.Vector.replicate 32 (0 : Byte)).toList ++
        (0 :: htobe16 65535 ++ List.replicate 65535 0)) 65570 first ∧ ¬ Commits first := by
  have hlength : (List.replicate 65535 (0 : Byte)).length = (65535 : UInt16).toNat :=
    List.length_replicate
  have hread := isRead_of_parts (.replicate 32 0) 0 hlength
  rw [List.length_replicate] at hread
  refine ⟨_, hread, ?_⟩
  apply not_commits_of_long
  · rw [List.length_replicate]
    omega
  · rw [List.length_replicate]
    omega

end I2pLite.Commitment
