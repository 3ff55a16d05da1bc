import I2pLite.Identity.KeysReload
import I2pLite.Identity.KeyStreams

/-!
# Which key files are read

A file that cannot be read makes the call return -1, which is a success to who
tests the result for zero; and no file is read as a private key.  So the result
tells only where it is zero, or where the keys had the signer of the file
before.
-/

namespace I2pLite.KeyFiles

open I2pLite.Stdio
open I2pLite.Bencoding
open I2pLite.Framing
open I2pLite.Keys
open I2pLite.KeysReload
open I2pLite.KeyStreams

/-- The file begins with the bencoding of a dict that has this private key. -/
def HasPrivkey (f : InFile) (privkey : EddsaPrivkey) : Prop :=
  ∃ entries rest, Parses f (.value (.dict entries)) rest ∧
    (eddsaPrivkeyName.bytes, .str privkey.toList) ∈ entries

/-- What is not zero means that the keys hold a signer for a private key of the
file; without a private key there is zero. -/
def ReadsKeys (code : EddsaCode) (k : MnetIdentityKeys) (f : InFile) : Prop :=
  ∃ fuel ret k', KeyStreams.mnetIdentityKeysRead code fuel k f = .ok (ret, k') ∧
    (ret ≠ 0 → ∃ privkey, HasPrivkey f privkey ∧
      k'.eddsa = some (eddsaSignNew code privkey)) ∧
    ((∀ privkey, ¬ HasPrivkey f privkey) → ret = 0)

/-- The keys have the signer of a private key of the file already. -/
def HasSigner (code : EddsaCode) (k : MnetIdentityKeys) (f : InFile) : Prop :=
  ∃ privkey, HasPrivkey f privkey ∧ k.eddsa = some (eddsaSignNew code privkey)

section Files

variable {code : EddsaCode} {k k' : MnetIdentityKeys} {f rest : InFile} {frame : Frame} {ret : ℤ}

/-- A frame that is no error is read as zero. -/
theorem ret_of_keysOfFrame (hsign : frame.sign .positive ≠ .negative)
    (hkeys : keysOfFrame k frame = some (ret, k')) : frame.releasable = true ∧ ret = 0 := by
  rw [keysOfFrame, if_neg hsign, Option.ite_none_right_eq_some] at hkeys
  obtain ⟨hreleasable, hresult⟩ := hkeys
  exact ⟨hreleasable, (Prod.mk.inj (Option.some.inj hresult)).1.symm⟩

/-- An error is read as -1, and the keys stay as they are. -/
theorem readsKeys_negative_iff (hframed : Framed f (.value frame) rest)
    (hsafe : frame.safe = true) (hsign : frame.sign .positive = .negative) :
    ReadsKeys code k f ↔ HasSigner code k f := by
  have herror : keysOfFrame k frame = some (-1, k) := by rw [keysOfFrame, if_pos hsign]
  constructor
  · rintro ⟨fuel, ret, k', hcall, hsigner, _⟩
    obtain ⟨frame', rest', hframed', _, hkeys⟩ := keysOfFrame_of_read hcall
    obtain ⟨rfl, _⟩ := hframed.frame_unique hframed'
    obtain ⟨rfl, rfl⟩ := Prod.mk.inj (Option.some.inj (herror.symm.trans hkeys))
    exact hsigner (by decide)
  · rintro ⟨privkey, hprivkey, heddsa⟩
    obtain ⟨fuel, hcall⟩ := exists_read_of_keysOfFrame code hframed hsafe herror
    exact ⟨fuel, -1, k, hcall, fun _ => ⟨privkey, hprivkey, heddsa⟩,
      fun hkeyless => absurd hprivkey (hkeyless privkey)⟩

/-- What is no error is read exactly where it can be released. -/
theorem readsKeys_iff_releasable (hframed : Framed f (.value frame) rest)
    (hsafe : frame.safe = true) (hsign : frame.sign .positive ≠ .negative) :
    ReadsKeys code k f ↔ frame.releasable = true := by
  constructor
  · rintro ⟨fuel, ret, k', hcall, _⟩
    obtain ⟨frame', rest', hframed', _, hkeys⟩ := keysOfFrame_of_read hcall
    obtain ⟨rfl, _⟩ := hframed.frame_unique hframed'
    exact (ret_of_keysOfFrame hsign hkeys).1
  · intro hreleasable
    have hzero : ∃ k', keysOfFrame k frame = some (0, k') :=
      ⟨_, by rw [keysOfFrame, if_neg hsign, if_pos hreleasable]⟩
    obtain ⟨k', hzero⟩ := hzero
    obtain ⟨fuel, hcall⟩ := exists_read_of_keysOfFrame code hframed hsafe hzero
    exact ⟨fuel, 0, k', hcall, fun hret => absurd rfl hret, fun _ => rfl⟩

end Files

/-- The result tells exactly for files whose frame is safe, and that are no
error and can be released; or that are an error, where the keys had the signer
of a private key of the file before. -/
theorem readsKeys_iff (code : EddsaCode) (k : MnetIdentityKeys) (f : InFile) :
    ReadsKeys code k f ↔
      ∃ frame rest, Framed f (.value frame) rest ∧ frame.safe = true ∧
        (frame.sign .positive ≠ .negative ∧ frame.releasable = true ∨
          frame.sign .positive = .negative ∧ HasSigner code k f) := by
  constructor
  · intro hreads
    obtain ⟨fuel, ret, k', hcall, _⟩ := id hreads
    obtain ⟨frame, rest, hframed, hsafe, _⟩ := keysOfFrame_of_read hcall
    refine ⟨frame, rest, hframed, hsafe, ?_⟩
    by_cases hsign : frame.sign .positive = .negative
    · exact Or.inr ⟨hsign, (readsKeys_negative_iff hframed hsafe hsign).mp hreads⟩
    · exact Or.inl ⟨hsign, (readsKeys_iff_releasable hframed hsafe hsign).mp hreads⟩
  · rintro ⟨frame, rest, hframed, hsafe, ⟨hsign, hreleasable⟩ | ⟨hsign, hsigner⟩⟩
    · exact (readsKeys_iff_releasable hframed hsafe hsign).mpr hreleasable
    · exact (readsKeys_negative_iff hframed hsafe hsign).mpr hsigner

/-- An empty file is a success without a key. -/
theorem not_readsKeys_empty :
    (∃ fuel, KeyStreams.mnetIdentityKeysRead zeroCode fuel mnetIdentityKeysNew [] =
        .ok (-1, mnetIdentityKeysNew)) ∧
      ¬ ReadsKeys zeroCode mnetIdentityKeysNew [] := by
  refine ⟨exists_read_of_keysOfFrame zeroCode .eof rfl rfl, fun hreads => ?_⟩
  obtain ⟨privkey, _, hsigner⟩ := (readsKeys_negative_iff .eof rfl rfl).mp hreads
  cases hsigner

end I2pLite.KeyFiles
