import I2pLite.Bencode.Deliveries
import I2pLite.Identity.Keys

/-!
# Key files as they are read

`mnet_identity_keys_read` over `bencode_read_file` itself.  Where the reader
delivers a decoded object this is the read of the keys from such an object; but
the name of a private key is longer than any name that is delivered.
-/

namespace I2pLite.KeyStreams

open I2pLite.CRun
open I2pLite.CBytes
open I2pLite.Stdio
open I2pLite.BencodeObject
open I2pLite.Read
open I2pLite.Framing
open I2pLite.Deliveries
open I2pLite.Keys

section Files

variable (code : EddsaCode)

/-- The read of a file as it is. -/
def mnetIdentityKeysRead (fuel : ℕ) (k : MnetIdentityKeys) (f : InFile) :
    Run (ℤ × MnetIdentityKeys) :=
  mnetIdentityKeysReadBy (streamFiles fuel) code k f

theorem mnetIdentityKeysRead_of_read {fuel : ℕ} {k : MnetIdentityKeys} {f rest : InFile}
    {count : ℤ} {o : Option BencodeObj} (hread : bencodeReadFile fuel f = .ok (count, o, rest)) :
    mnetIdentityKeysRead code fuel k f = (do
      if count = -1 then .ok (-1, k)
      else
        let benc ← deref o
        if bencodeObjIsDict benc then
          let ctx ← bencodeObjIterDict fuel benc (mnetIdentityKeysIterDict code) mnetKeysIterCtxNew
          releaseRead fuel ctx.released benc
          .ok (if ctx.success then 1 else 0, ctx.k)
        else
          releaseRead fuel false benc
          .ok (0, k)) := by
  rw [mnetIdentityKeysRead, mnetIdentityKeysReadBy,
    streamFiles_readFile_eq_ok.mpr ⟨rest, hread⟩, ok_bind]
  rfl

/-- Where the walk along the object and its release end, the keys are those that
are read from the object. -/
theorem mnetIdentityKeysRead_eq {fuel : ℕ} {f rest : InFile} {count : ℤ} {obj : BencodeObj}
    (hread : bencodeReadFile fuel f = .ok (count, some obj, rest)) (hcount : count ≠ -1)
    (hwalk : ∀ user, bencodeObjIterDict fuel obj (mnetIdentityKeysIterDict code) user =
      Decoded.iterDict obj (mnetIdentityKeysIterDict code) user)
    (hfree : bencodeObjFree fuel obj = .ok ()) (k : MnetIdentityKeys) :
    mnetIdentityKeysRead code fuel k f =
      Keys.mnetIdentityKeysRead code (fun _ : InFile => some obj) k f := by
  have hrelease : ∀ released, releaseRead fuel released obj =
      Decoded.releaseDecoded released := by
    intro released
    rw [releaseRead, Decoded.releaseDecoded, hfree]
  have hdecoded := @Keys.mnetIdentityKeysRead_of_some _ code (fun _ : InFile => some obj) k f obj
    rfl
  rw [mnetIdentityKeysRead_of_read code hread, if_neg hcount, deref_some, ok_bind, hdecoded]
  simp only [hwalk, hrelease]

end Files

/-! ## What comes of a key file -/

theorem eddsaPrivkeyName_ne {key : CString} (hkey : strlen key ≤ 1) :
    strcmp key eddsaPrivkeyName ≠ 0 := by
  rw [ne_eq, strcmp_eq_zero_iff]
  rintro rfl
  exact absurd hkey (by decide)

theorem mnetIdentityKeysIterDict_short (code : EddsaCode) (key : CString) (v : BencodeObj)
    (ctx : MnetKeysIterCtx) (hkey : strlen key ≤ 1) :
    mnetIdentityKeysIterDict code key v ctx = .ok ctx := by
  rw [mnetIdentityKeysIterDict, if_neg (eddsaPrivkeyName_ne hkey)]
  split_ifs <;> rfl

/-- What a frame is read as: an error, a dict without a private key, or no dict;
nothing where the object cannot be released. -/
def keysOfFrame (k : MnetIdentityKeys) (frame : Frame) : Option (ℤ × MnetIdentityKeys) :=
  if frame.sign .positive = .negative then some (-1, k)
  else if frame.releasable then some (0, if isDictFrame frame then mnetIdentityKeysNew else k)
  else none

section Outcome

variable {code : EddsaCode} {fuel : ℕ} {k k' : MnetIdentityKeys} {f : InFile} {ret : ℤ}

theorem keysOfFrame_of_read (hcall : mnetIdentityKeysRead code fuel k f = .ok (ret, k')) :
    ∃ frame rest, Framed f (.value frame) rest ∧ frame.safe = true ∧
      keysOfFrame k frame = some (ret, k') := by
  obtain ⟨⟨count, o⟩, hfile, _⟩ := bind_eq_ok.mp hcall
  obtain ⟨rest, hread⟩ := streamFiles_readFile_eq_ok.mp hfile
  rw [mnetIdentityKeysRead_of_read code hread] at hcall
  obtain ⟨frame, hframed, hfile⟩ := exists_frame_of_read hread
  refine ⟨frame, rest, hframed, hfile.safe, ?_⟩
  rw [keysOfFrame]
  split_ifs at hcall with hcount
  · rw [if_pos (hfile.count_eq_neg_one_iff.mp hcount)]
    exact congrArg some (Except.ok.inj hcall)
  · rw [if_neg (hfile.count_eq_neg_one_iff.not.mp hcount)]
    obtain ⟨obj, hobj, hrest⟩ := bind_eq_ok.mp hcall
    obtain rfl := deref_eq_ok.mp hobj
    have hdict := isDict_of_represents hfile.represents (ne_skip_of_framed hframed)
    by_cases hisDict : bencodeObjIsDict obj = true
    · rw [if_pos hisDict] at hrest
      obtain ⟨ctx, hwalk, hrest⟩ := bind_eq_ok.mp hrest
      obtain rfl := (hfile.short obj rfl).iterDict_eq (mnetIdentityKeysIterDict_short code) hwalk
      obtain ⟨_, hfree, hresult⟩ := bind_eq_ok.mp hrest
      rw [if_pos (hfile.represents.frees_iff.mp ⟨fuel, hfree⟩), ← hdict, if_pos hisDict]
      exact congrArg some (Except.ok.inj hresult)
    · rw [if_neg hisDict] at hrest
      obtain ⟨_, hfree, hresult⟩ := bind_eq_ok.mp hrest
      rw [if_pos (hfile.represents.frees_iff.mp ⟨fuel, hfree⟩), ← hdict, if_neg hisDict]
      exact congrArg some (Except.ok.inj hresult)

theorem exists_read_of_keysOfFrame (code : EddsaCode) {frame : Frame} {rest : InFile}
    (hframed : Framed f (.value frame) rest) (hsafe : frame.safe = true)
    (hkeys : keysOfFrame k frame = some (ret, k')) :
    ∃ fuel, mnetIdentityKeysRead code fuel k f = .ok (ret, k') := by
  obtain ⟨readFuel, count, o, hread, hfile⟩ := exists_read_of_frame hframed hsafe
  rw [keysOfFrame] at hkeys
  by_cases hnegative : frame.sign .positive = .negative
  · rw [if_pos hnegative] at hkeys
    refine ⟨readFuel, ?_⟩
    rw [mnetIdentityKeysRead_of_read code hread, if_pos (hfile.count_eq_neg_one_iff.mpr hnegative)]
    exact congrArg Except.ok (Option.some.inj hkeys)
  · rw [if_neg hnegative, Option.ite_none_right_eq_some] at hkeys
    obtain ⟨hreleasable, hkeys⟩ := hkeys
    obtain ⟨obj, rfl⟩ := hfile.exists_obj hnegative
    have hskip := ne_skip_of_framed hframed
    obtain ⟨bound, hpasses⟩ := exists_passes hfile hskip hreleasable
    have hwalk := hpasses.walks _ mnetKeysIterCtxNew (mnetIdentityKeysIterDict_short code)
      (max readFuel bound) (by omega)
    have hrelease : releaseRead (max readFuel bound) false obj = .ok () :=
      hpasses.releases (max readFuel bound) (by omega)
    refine ⟨max readFuel bound, ?_⟩
    have hread' := bencodeReadFile_keeps (show readFuel ≤ max readFuel bound by omega) _ _ hread
    rw [mnetIdentityKeysRead_of_read code hread',
      if_neg (hfile.count_eq_neg_one_iff.not.mpr hnegative), deref_some, ok_bind,
      isDict_of_represents hfile.represents hskip]
    by_cases hdict : isDictFrame frame = true
    · rw [if_pos hdict] at hkeys ⊢
      rw [hwalk, ok_bind, show mnetKeysIterCtxNew.released = false from rfl, hrelease]
      exact congrArg Except.ok (Option.some.inj hkeys)
    · rw [if_neg hdict] at hkeys ⊢
      rw [hrelease]
      exact congrArg Except.ok (Option.some.inj hkeys)

end Outcome

end I2pLite.KeyStreams
