import I2pLite.Identity.Keys

/-!
# Identity keys behind a restart

Generated keys are written with their certificate.  Reading them releases the
string of the private key twice, and never makes an identity.
-/

namespace I2pLite.KeysReload

open I2pLite.CRun
open I2pLite.CBytes
open I2pLite.Memory
open I2pLite.BencodeObject
open I2pLite.Denotation
open I2pLite.Decoded
open I2pLite.Cert
open I2pLite.Identity
open I2pLite.Keys

variable {File : Type} {code : EddsaCode}

/-! ## Writing -/

/-- The keys that are generated from a seed: whatever the signature type, the
certificate has no data. -/
def keysOf (code : EddsaCode) (seed : EddsaPrivkey) : MnetIdentityKeys where
  ident := some (identityOf (code.publicKeyOf seed) (.filled [0, 0, 0]))
  eddsa := some (eddsaSignNew code seed)

theorem mnetIdentityKeysGenerate_eq (code : EddsaCode) (rand : List.Vector Byte 32)
    (k : MnetIdentityKeys) (sigtype : UInt16) :
    mnetIdentityKeysGenerate code rand k sigtype =
      .ok (1, keysOf code (code.mnetHash rand.toList)) := rfl

/-- The dict of generated keys in memory. -/
def writtenDict (seed : EddsaPrivkey) : BencodeObj :=
  .dict [{ next := some 2 },
    { key := some eddsaPrivkeyName, val := some (bencodeObjStr seed.toList) },
    { key := some certName, val := some (bencodeObjStr [0, 0, 0]), next := some 1 }]

theorem eddsaSignCopyKeyData_new (seed : EddsaPrivkey) :
    eddsaSignCopyKeyData (eddsaSignNew code seed) = .ok seed := by
  refine load_eq_ok_iff.mpr ⟨by simp, ?_⟩
  rw [eddsaSignNew, List.Vector.toList_append, List.drop_zero, List.take_left' seed.toList_length]

theorem keysDict_keysOf (seed : EddsaPrivkey) :
    keysDict (keysOf code seed) (eddsaSignNew code seed) = .ok (writtenDict seed) := by
  rw [keysDict, eddsaSignCopyKeyData_new, ok_bind]
  rfl

theorem dictHolds_writtenDict (seed : EddsaPrivkey) :
    DictHolds (writtenDict seed)
      [(certName, bencodeObjStr [0, 0, 0]), (eddsaPrivkeyName, bencodeObjStr seed.toList)] := by
  refine ⟨_, _, [2, 1], rfl, rfl, rfl, ?_, ?_⟩
  · exact .cons rfl (.cons rfl .nil)
  · exact .cons ⟨_, rfl, rfl, rfl⟩ (.cons ⟨_, rfl, rfl, rfl⟩ .nil)

/-- Generated keys are written. -/
theorem mnetIdentityKeysWrite_keysOf (write : BencodeObj → Option File) (seed : EddsaPrivkey) :
    mnetIdentityKeysWrite write (keysOf code seed) =
      match write (writtenDict seed) with
      | some file => .ok (1, some file)
      | none => .ok (0, none) := by
  rw [mnetIdentityKeysWrite, keysOf]
  dsimp only
  rw [← keysOf, keysDict_keysOf]
  rfl

/-! ## Reading -/

/-- What a string makes of the context, behind the test for its name. -/
def afterString (code : EddsaCode) (key : List Byte) (ctx : MnetKeysIterCtx) : MnetKeysIterCtx where
  k := if hlength : key.length = 32 then
      { ctx.k with eddsa := some (eddsaSignNew code ⟨key, hlength⟩) }
    else ctx.k
  success := key.length = 32
  released := ctx.released || (bufferOf key).isSome

theorem readPrivkey_str {v : BencodeObj} {key : List Byte} {ctx : MnetKeysIterCtx}
    (hstr : bencodeObjGetstr v = some key) :
    readPrivkey code v ctx = .ok (afterString code key ctx) := by
  rw [readPrivkey, hstr, afterString]
  dsimp only
  by_cases hlength : key.length = 32
  · have hload : load key 0 32 = .ok (⟨key, hlength⟩ : EddsaPrivkey) := by
      refine load_eq_ok_iff.mpr ⟨by omega, ?_⟩
      rw [List.drop_zero, List.take_of_length_le (by omega)]
      rfl
    rw [if_pos hlength, hload, dif_pos hlength]
    simp only [hlength, decide_true]
    rfl
  · rw [if_neg hlength, dif_neg hlength]
    simp [hlength]

theorem ident_afterString (key : List Byte) (ctx : MnetKeysIterCtx) :
    (afterString code key ctx).k.ident = ctx.k.ident := by
  rw [afterString]
  split_ifs <;> rfl

theorem ident_of_readPrivkey {v : BencodeObj} {ctx ctx' : MnetKeysIterCtx}
    (hread : readPrivkey code v ctx = .ok ctx') : ctx'.k.ident = ctx.k.ident := by
  cases hstr : bencodeObjGetstr v with
  | none =>
      rw [readPrivkey, hstr] at hread
      obtain rfl := Except.ok.inj hread
      rfl
  | some key =>
      rw [readPrivkey_str hstr] at hread
      obtain rfl := Except.ok.inj hread
      exact ident_afterString key ctx

/-- The walk over the entries never makes an identity. -/
theorem ident_of_iterDict {obj : BencodeObj} {ctx ctx' : MnetKeysIterCtx}
    (hwalk : iterDict obj (mnetIdentityKeysIterDict code) ctx = .ok ctx')
    (hident : ctx.k.ident = none) : ctx'.k.ident = none := by
  have hstep : ∀ key val (before after : MnetKeysIterCtx), before.k.ident = none →
      mnetIdentityKeysIterDict code key val before = .ok after → after.k.ident = none := by
    intro key val before after hbefore hvisit
    rw [mnetIdentityKeysIterDict] at hvisit
    split_ifs at hvisit
    · exact (ident_of_readPrivkey hvisit).trans hbefore
    · exact Except.ok.inj hvisit ▸ hbefore
    · exact Except.ok.inj hvisit ▸ hbefore
  exact @iterDict_invariant _ _ _ (fun ctx => ctx.k.ident = none) _ _ hstep hwalk hident

/-- Keys that have been read have no identity. -/
theorem ident_of_mnetIdentityKeysRead {read : File → Option BencodeObj} {f : File}
    {k : MnetIdentityKeys}
    (hread : mnetIdentityKeysRead code read mnetIdentityKeysNew f = .ok (1, k)) :
    mnetIdentityKeysToPublic k = none := by
  cases hbenc : read f with
  | none =>
      rw [mnetIdentityKeysRead_of_none hbenc] at hread
      cases hread
  | some benc =>
      rw [mnetIdentityKeysRead_of_some hbenc] at hread
      split_ifs at hread
      · obtain ⟨ctx, hwalk, hrest⟩ := bind_eq_ok.mp hread
        obtain ⟨_, _, hret⟩ := bind_eq_ok.mp hrest
        obtain rfl := (ok_pair_inj hret).2
        exact ident_of_iterDict hwalk rfl
      · obtain ⟨_, _, hret⟩ := bind_eq_ok.mp hread
        obtain rfl := (ok_pair_inj hret).2
        rfl

/-- The keys are written, and the file read into fresh keys restores the private
signer and an identity with the same key and certificate. -/
def RestoresKeys (code : EddsaCode) (files : BencodeFiles File) (keys : MnetIdentityKeys) : Prop :=
  ∃ file, mnetIdentityKeysWrite files.write keys = .ok (1, some file) ∧
    ∃ restored, mnetIdentityKeysRead code files.read mnetIdentityKeysNew file = .ok (1, restored) ∧
      restored.eddsa = keys.eddsa ∧
      ∃ ident ident', mnetIdentityKeysToPublic keys = some ident ∧
        mnetIdentityKeysToPublic restored = some ident' ∧
        ident'.eddsa = ident.eddsa ∧ ident'.cert = ident.cert

/-- No generated keys are restored. -/
theorem not_restoresKeys (code : EddsaCode) (files : BencodeFiles File)
    (rand : List.Vector Byte 32) (k : MnetIdentityKeys) (sigtype : UInt16) :
    ∃ keys, mnetIdentityKeysGenerate code rand k sigtype = .ok (1, keys) ∧
      ¬ RestoresKeys code files keys := by
  refine ⟨_, mnetIdentityKeysGenerate_eq code rand k sigtype, ?_⟩
  rintro ⟨file, _, restored, hread, _, ident, ident', _, hident', _⟩
  rw [ident_of_mnetIdentityKeysRead hread] at hident'
  cases hident'

/-! ## Two releases -/

/-- An entry whose string the walk releases, unless it has found a key. -/
def IsKeyEntry (entry : CString × BencodeObj) : Prop :=
  entry.1 = eddsaPrivkeyName ∧ ∃ key, bencodeObjGetstr entry.2 = some key ∧ key ≠ []

/-- No key has been found, and nothing has been released. -/
structure Untouched (ctx : MnetKeysIterCtx) : Prop where
  k : ctx.k = mnetIdentityKeysNew
  success : ctx.success = false
  released : ctx.released = false

theorem mnetIdentityKeysIterDict_of_isKeyEntry {entry : CString × BencodeObj}
    {ctx : MnetKeysIterCtx} (hctx : Untouched ctx) (hentry : IsKeyEntry entry) :
    ∃ ctx', mnetIdentityKeysIterDict code entry.1 entry.2 ctx = .ok ctx' ∧
      ctx'.released = true := by
  obtain ⟨hname, key, hstr, hkey⟩ := hentry
  refine ⟨afterString code key ctx, ?_, by simp [afterString, bufferOf, hkey]⟩
  rw [mnetIdentityKeysIterDict, hctx.k, if_pos (show mnetIdentityKeysNew.eddsa = none from rfl),
    hname, if_pos (strcmp_eq_zero_iff.mpr rfl), readPrivkey_str hstr]

theorem mnetIdentityKeysIterDict_of_not_isKeyEntry {entry : CString × BencodeObj}
    {ctx : MnetKeysIterCtx} (hctx : Untouched ctx) (hentry : ¬ IsKeyEntry entry) :
    ∃ ctx', mnetIdentityKeysIterDict code entry.1 entry.2 ctx = .ok ctx' ∧ Untouched ctx' := by
  rw [mnetIdentityKeysIterDict, hctx.k, if_pos (show mnetIdentityKeysNew.eddsa = none from rfl)]
  by_cases hname : entry.1 = eddsaPrivkeyName
  · rw [if_pos (strcmp_eq_zero_iff.mpr hname)]
    cases hstr : bencodeObjGetstr entry.2 with
    | none =>
        rw [readPrivkey, hstr]
        exact ⟨_, rfl, hctx.k, rfl, hctx.released⟩
    | some key =>
        obtain rfl : key = [] := by
          by_contra hkey
          exact hentry ⟨hname, key, hstr, hkey⟩
        rw [readPrivkey_str hstr]
        exact ⟨_, rfl, hctx.k, rfl, by simp [afterString, hctx.released, bufferOf]⟩
  · rw [if_neg fun hcmp => hname (strcmp_eq_zero_iff.mp hcmp)]
    exact ⟨_, rfl, hctx⟩

/-- A string that has been released stays so. -/
theorem foldlM_released {entries : List (CString × BencodeObj)} {ctx : MnetKeysIterCtx}
    (hctx : ctx.released = true) :
    ∃ ctx', entries.foldlM (fun ctx entry =>
        mnetIdentityKeysIterDict code entry.1 entry.2 ctx) ctx = .ok ctx' ∧
      ctx'.released = true := by
  induction entries generalizing ctx with
  | nil => exact ⟨ctx, rfl, hctx⟩
  | cons entry entries ih =>
      have hstep : ∃ middle, mnetIdentityKeysIterDict code entry.1 entry.2 ctx = .ok middle ∧
          middle.released = true := by
        rw [mnetIdentityKeysIterDict]
        split_ifs
        · cases hstr : bencodeObjGetstr entry.2 with
          | none =>
              rw [readPrivkey, hstr]
              exact ⟨_, rfl, hctx⟩
          | some key =>
              rw [readPrivkey_str hstr]
              exact ⟨_, rfl, by simp [afterString, hctx]⟩
        · exact ⟨ctx, rfl, hctx⟩
        · exact ⟨ctx, rfl, hctx⟩
      obtain ⟨middle, hvisit, hmiddle⟩ := hstep
      rw [List.foldlM_cons, hvisit, ok_bind]
      exact ih hmiddle

theorem foldlM_cases (code : EddsaCode) (entries : List (CString × BencodeObj))
    {ctx : MnetKeysIterCtx} (hctx : Untouched ctx) :
    ∃ ctx', entries.foldlM (fun ctx entry =>
        mnetIdentityKeysIterDict code entry.1 entry.2 ctx) ctx = .ok ctx' ∧
      ((∃ entry ∈ entries, IsKeyEntry entry) ∧ ctx'.released = true ∨
        (∀ entry ∈ entries, ¬ IsKeyEntry entry) ∧ Untouched ctx') := by
  induction entries generalizing ctx with
  | nil => exact ⟨ctx, rfl, Or.inr ⟨by simp, hctx⟩⟩
  | cons entry entries ih =>
      rw [List.foldlM_cons]
      by_cases hentry : IsKeyEntry entry
      · obtain ⟨middle, hvisit, hmiddle⟩ := mnetIdentityKeysIterDict_of_isKeyEntry hctx hentry
        obtain ⟨ctx', hrest, hreleased⟩ := @foldlM_released code entries middle hmiddle
        rw [hvisit, ok_bind]
        exact ⟨ctx', hrest, Or.inl ⟨⟨entry, by simp, hentry⟩, hreleased⟩⟩
      · obtain ⟨middle, hvisit, hmiddle⟩ := mnetIdentityKeysIterDict_of_not_isKeyEntry hctx hentry
        obtain ⟨ctx', hrest, hcases⟩ := ih hmiddle
        rw [hvisit, ok_bind]
        refine ⟨ctx', hrest, ?_⟩
        simpa [hentry] using hcases

/-- Where the walk releases a string of the dict, it is released once more with
the dict. -/
theorem mnetIdentityKeysRead_dict (code : EddsaCode) {read : File → Option BencodeObj} {f : File}
    {dict : BencodeObj} {entries : List (CString × BencodeObj)} (hread : read f = some dict)
    (hholds : DictHolds dict entries) (k : MnetIdentityKeys) :
    (∃ entry ∈ entries, IsKeyEntry entry) ∧
        mnetIdentityKeysRead code read k f = .error .useAfterFree ∨
      (∀ entry ∈ entries, ¬ IsKeyEntry entry) ∧
        mnetIdentityKeysRead code read k f = .ok (0, mnetIdentityKeysNew) := by
  have hstart : Untouched mnetKeysIterCtxNew := ⟨rfl, rfl, rfl⟩
  obtain ⟨ctx, hwalk, hcases⟩ := foldlM_cases code entries hstart
  rw [← iterDict_eq hholds] at hwalk
  rw [mnetIdentityKeysRead_of_some hread, if_pos (isDict_of_dictHolds hholds), hwalk, ok_bind]
  rcases hcases with ⟨hexists, hreleased⟩ | ⟨hnone, hctx⟩
  · rw [hreleased]
    exact Or.inl ⟨hexists, rfl⟩
  · rw [hctx.released, hctx.k, hctx.success]
    exact Or.inr ⟨hnone, rfl⟩

/-- Generated keys, once written, are not read without a fault. -/
theorem mnetIdentityKeysRead_writtenDict {read : File → Option BencodeObj} {f : File}
    {seed : EddsaPrivkey} (hread : read f = some (writtenDict seed)) (k : MnetIdentityKeys) :
    mnetIdentityKeysRead code read k f = .error .useAfterFree := by
  have hne : seed.toList ≠ [] := by
    rw [← List.length_pos_iff, seed.toList_length]
    omega
  have hcases := mnetIdentityKeysRead_dict code hread (dictHolds_writtenDict seed) k
  rcases hcases with ⟨_, hfault⟩ | ⟨hnone, _⟩
  · exact hfault
  · have hentry : IsKeyEntry (eddsaPrivkeyName, bencodeObjStr seed.toList) :=
      ⟨rfl, seed.toList, rfl, hne⟩
    exact absurd hentry (hnone _ (by simp))

/-! ## Small keys -/

def zeroSeed : EddsaPrivkey := .replicate 32 0

/-- Hashes are zero, and a public key is its seed. -/
def zeroCode : EddsaCode where
  publicKeyOf := id
  mnetHash := fun _ => zeroSeed

/-- The keys of the zero seed are written, and reading them faults. -/
theorem not_restoresKeys_zeroSeed :
    objectFiles.Lossless ∧
      mnetIdentityKeysGenerate zeroCode zeroSeed mnetIdentityKeysNew 0 =
        .ok (1, keysOf zeroCode zeroSeed) ∧
      ¬ RestoresKeys zeroCode objectFiles (keysOf zeroCode zeroSeed) := by
  refine ⟨objectFiles_lossless, rfl, ?_⟩
  rintro ⟨file, hwrite, restored, hread, _⟩
  rw [mnetIdentityKeysWrite_keysOf] at hwrite
  obtain rfl := Option.some.inj (ok_pair_inj hwrite).2
  have hfile : objectFiles.read (some (writtenDict zeroSeed)) = some (writtenDict zeroSeed) := rfl
  rw [mnetIdentityKeysRead_writtenDict hfile] at hread
  cases hread

end I2pLite.KeysReload
