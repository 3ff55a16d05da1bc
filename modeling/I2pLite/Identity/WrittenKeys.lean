import I2pLite.Identity.KeyFileFails
import I2pLite.Identity.KeyStreams

/-!
# Keys behind a restart, byte by byte

The file that is written for keys with a certificate begins with the name of the
certificate.  The reader takes the digit in front of that name for a letter of
its own, reads an empty key, and meets the terminator of a dict two bytes on.
-/

namespace I2pLite.WrittenKeys

open I2pLite.CRun
open I2pLite.CBytes
open I2pLite.Stdio
open I2pLite.Bencoding
open I2pLite.BencodeObject
open I2pLite.Denotation
open I2pLite.Clone
open I2pLite.MoreFuel
open I2pLite.Write
open I2pLite.Read
open I2pLite.Framing
open I2pLite.ReadFrame
open I2pLite.Deliveries
open I2pLite.Cert
open I2pLite.Identity
open I2pLite.Keys
open I2pLite.KeysReload
open I2pLite.KeyFileFails
open I2pLite.KeyStreams

/-! ## The bytes that are written -/

/-- What every file of keys with a certificate begins with. -/
def certOpening : List Byte := "d4:ce".toList.map ch

/-- The value of the dict that is written for keys with a certificate. -/
def certValue (seed data : List Byte) : BencodeValue :=
  .dict [(certName.bytes, .str data), (eddsaPrivkeyName.bytes, .str seed)]

theorem listFree_certValue (seed data : List Byte) : ListFree (certValue seed data) :=
  .dict (by simpa using ⟨.str data, .str seed⟩)

theorem exists_encode_certValue (seed data : List Byte) :
    ∃ rest, encode (certValue seed data) = certOpening ++ rest := by
  have hopening : ch 'd' :: encodeStr certName.bytes = certOpening ++ "rt".toList.map ch := by
    decide
  rw [certValue, encode, encodeEntries, List.append_assoc, ← List.cons_append, hopening,
    List.append_assoc]
  exact ⟨_, rfl⟩

/-- The dict of keys with a certificate. -/
theorem exists_keysDict {k : MnetIdentityKeys} (hcert : HasCert k) :
    ∃ eddsa seed data, k.eddsa = some eddsa ∧ keysDict k eddsa = .ok (certDict seed data) := by
  obtain ⟨heddsa, ident, cert, hident, hsome, hmisses⟩ := hcert
  obtain ⟨eddsa, heddsa⟩ := Option.ne_none_iff_exists'.mp heddsa
  obtain ⟨seed, hdict⟩ := keysDict_eq k eddsa
  rw [hident, deref_some, ok_bind, hsome] at hdict
  rcases setCert_some_cases seed cert with ⟨hno, _⟩ | ⟨_, data, hset⟩
  · exact absurd hno hmisses
  · exact ⟨eddsa, seed, data, heddsa, hdict.trans hset⟩

/-- With more fuel, what has been written is written as well. -/
theorem bencodeWrite_keeps {fuel fuel' : ℕ} (hle : fuel ≤ fuel') (o : ObjPtr BencodeObj)
    (ctx : WriteCtx) : Keeps (bencodeWrite fuel o ctx) (bencodeWrite fuel' o ctx) := by
  induction fuel generalizing fuel' o ctx with
  | zero => exact .of_error _ _
  | succ fuel ih =>
      obtain ⟨fuel', rfl⟩ := Nat.exists_eq_add_of_le' (show 1 ≤ fuel' by omega)
      have hwrite : ∀ o ctx, Keeps (bencodeWrite fuel o ctx) (bencodeWrite fuel' o ctx) :=
        fun o ctx => ih (by omega) o ctx
      by_cases hwritten : ctx.written = -1
      · rw [bencodeWrite, if_pos hwritten]
        rw [bencodeWrite, if_pos hwritten]
        exact .refl _
      cases o with
      | null | freed =>
          rw [bencodeWrite, if_neg hwritten]
          exact .of_error _ _
      | live obj =>
          cases obj with
          | str data =>
              rw [bencodeWrite_str hwritten, bencodeWrite_str hwritten]
              exact .refl _
          | integer value =>
              rw [bencodeWrite_integer hwritten, bencodeWrite_integer hwritten]
              exact .refl _
          | dict nodes =>
              rw [bencodeWrite_dict hwritten, bencodeWrite_dict hwritten]
              refine .bind (.ite (.refl _) ?_) fun ctx => .refl _
              refine bencodeObjIterDict_keeps (fun key val ctx => ?_) (by omega) _ _
              exact .ite (.refl _) (hwrite _ _)
          | list vals =>
              rw [bencodeWrite_list hwritten, bencodeWrite_list hwritten]
              refine .bind (.ite (.refl _) ?_) fun ctx => .refl _
              exact bencodeObjIterList_keeps (fun val ctx => hwrite _ _) _ _

section Written

variable {k : MnetIdentityKeys} {fuel : ℕ} {f f' : OutFile}

/-- Whatever the file is, it begins as they all do. -/
theorem exists_bytes_of_writeTo {seed data : List Byte} (hnever : f.NeverFails)
    (hempty : f.bytes = []) (hwrite : writeTo fuel f (certDict seed data) = some f') :
    ∃ rest, f'.bytes = certOpening ++ rest := by
  obtain ⟨bound, hwritten⟩ := (listFree_certValue seed data).exists_writtenWithin
  obtain ⟨ctx, hmore, hwrote⟩ := hwritten (max fuel bound) (certDict seed data)
    { f := f, written := 0 } (by omega) (denotes_certDict seed data) ⟨hnever, le_refl 0⟩
  obtain ⟨rest, hencode⟩ := exists_encode_certValue seed data
  refine ⟨rest, ?_⟩
  rw [writeTo, bencodeWriteFile] at hwrite
  cases hcall : bencodeWrite fuel (.live (certDict seed data)) { f := f, written := 0 } with
  | error fault =>
      rw [hcall] at hwrite
      cases hwrite
  | ok other =>
      have hsame : ctx = other := Except.ok.inj
        (hmore.symm.trans (bencodeWrite_keeps (Nat.le_max_left _ _) _ _ other hcall))
      rw [hcall, ok_bind] at hwrite
      dsimp only at hwrite
      rw [Option.ite_none_left_eq_some] at hwrite
      rw [← Option.some.inj hwrite.2, ← hsame, hwrote.bytes, hempty, List.nil_append, hencode]

theorem exists_bytes_of_write (hcert : HasCert k) (hnever : f.NeverFails) (hempty : f.bytes = [])
    (hwrite : mnetIdentityKeysWrite (writeTo fuel f) k = .ok (1, some f')) :
    ∃ rest, f'.bytes = certOpening ++ rest := by
  obtain ⟨eddsa, seed, data, heddsa, hdict⟩ := exists_keysDict hcert
  rw [mnetIdentityKeysWrite_eq _ heddsa hdict] at hwrite
  split at hwrite
  · next file hfile =>
      obtain ⟨_, hsome⟩ := ok_pair_inj hwrite
      rw [Option.some.inj hsome] at hfile
      exact exists_bytes_of_writeTo hnever hempty hfile
  · cases (ok_pair_inj hwrite).2

/-- Keys with a certificate are written. -/
theorem exists_mnetIdentityKeysWrite (hcert : HasCert k) (hnever : f.NeverFails) :
    ∃ fuel f', mnetIdentityKeysWrite (writeTo fuel f) k = .ok (1, some f') := by
  obtain ⟨eddsa, seed, data, heddsa, hdict⟩ := exists_keysDict hcert
  obtain ⟨bound, hwritten⟩ := (listFree_certValue seed data).exists_writtenWithin
  obtain ⟨ctx, hwrite, hwrote⟩ := hwritten bound (certDict seed data) { f := f, written := 0 }
    (le_refl _) (denotes_certDict seed data) ⟨hnever, le_refl 0⟩
  have hcount : ctx.written ≠ -1 := by
    have hsum := hwrote.written
    dsimp only at hsum
    omega
  refine ⟨bound, ctx.f, ?_⟩
  rw [mnetIdentityKeysWrite_eq _ heddsa hdict, writeTo, bencodeWriteFile, hwrite, ok_bind]
  dsimp only
  rw [if_neg hcount]

end Written

/-! ## What is read of them -/

/-- A dict with an empty key, for which there is no value. -/
def certFrame : Frame := .dict [some ([], .bad)] true

theorem framed_certOpening (rest : InFile) :
    Framed (certOpening ++ rest) (.value certFrame) rest := by
  have hbytes : certOpening ++ rest =
      ch 'd' :: ch '4' :: ch ':' :: ch 'c' :: ch 'e' :: rest := rfl
  rw [hbytes]
  exact .dict (.entriesCons (by decide) (strFrame_colon _)
    (.badByte (by decide) (by decide) (by decide)) .entriesEnd)

/-- Whatever follows, the result is -1, and the keys stay as they are. -/
theorem read_certOpening_iff (code : EddsaCode) (k k' : MnetIdentityKeys) (rest : InFile)
    (ret : ℤ) :
    (∃ fuel, KeyStreams.mnetIdentityKeysRead code fuel k (certOpening ++ rest) = .ok (ret, k')) ↔
      ret = -1 ∧ k' = k := by
  constructor
  · rintro ⟨fuel, hread⟩
    obtain ⟨frame, after, hframed, _, hkeys⟩ := keysOfFrame_of_read hread
    obtain ⟨rfl, _⟩ := hframed.frame_unique (framed_certOpening rest)
    have hresult : some ((-1 : ℤ), k) = some (ret, k') := hkeys
    obtain ⟨hret, hk⟩ := Prod.mk.inj (Option.some.inj hresult)
    exact ⟨hret.symm, hk.symm⟩
  · rintro ⟨rfl, rfl⟩
    exact exists_read_of_keysOfFrame code (framed_certOpening rest) rfl rfl

theorem exists_bound_read_certOpening (code : EddsaCode) (k : MnetIdentityKeys) (rest : InFile) :
    ∃ bound, ∀ fuel, bound ≤ fuel →
      KeyStreams.mnetIdentityKeysRead code fuel k (certOpening ++ rest) = .ok (-1, k) := by
  obtain ⟨bound, count, o, hread, hfile⟩ := exists_read_of_frame (framed_certOpening rest) rfl
  refine ⟨bound, fun fuel hfuel => ?_⟩
  rw [mnetIdentityKeysRead_of_read code (bencodeReadFile_keeps hfuel _ _ hread),
    if_pos (hfile.count_eq_neg_one_iff.mpr rfl)]

/-- Keys with a certificate are written to an empty file that takes every byte,
and that file is never read as keys: the result is -1, which callers that test
it for zero take for a success, and no keys are found. -/
theorem mnetIdentityKeysRead_written (code : EddsaCode) {k : MnetIdentityKeys} {f : OutFile}
    (hcert : HasCert k) (hnever : f.NeverFails) (hempty : f.bytes = []) :
    (∃ fuel f', mnetIdentityKeysWrite (writeTo fuel f) k = .ok (1, some f')) ∧
      ∀ fuel f', mnetIdentityKeysWrite (writeTo fuel f) k = .ok (1, some f') →
        ∀ before after ret, (∃ fuel, KeyStreams.mnetIdentityKeysRead code fuel before f'.bytes =
          .ok (ret, after)) ↔ ret = -1 ∧ after = before := by
  refine ⟨exists_mnetIdentityKeysWrite hcert hnever, fun fuel f' hwrite before after ret => ?_⟩
  obtain ⟨rest, hbytes⟩ := exists_bytes_of_write hcert hnever hempty hwrite
  rw [hbytes]
  exact read_certOpening_iff code before after rest ret

theorem hasCert_keysOf (code : EddsaCode) (seed : EddsaPrivkey) : HasCert (keysOf code seed) :=
  ⟨by simp [keysOf], _, _, rfl, rfl, fun hmisses => by cases hmisses.1⟩

/-- Generated keys, and a new file. -/
theorem mnetIdentityKeysRead_written_zeroSeed :
    (∃ fuel f', mnetIdentityKeysWrite (writeTo fuel { fails := fun _ => none })
        (keysOf zeroCode zeroSeed) = .ok (1, some f')) ∧
      ∀ fuel f', mnetIdentityKeysWrite (writeTo fuel { fails := fun _ => none })
        (keysOf zeroCode zeroSeed) = .ok (1, some f') →
        ∀ before after ret, (∃ fuel, KeyStreams.mnetIdentityKeysRead zeroCode fuel before f'.bytes =
          .ok (ret, after)) ↔ ret = -1 ∧ after = before :=
  mnetIdentityKeysRead_written zeroCode (hasCert_keysOf zeroCode zeroSeed) (fun _ => rfl) rfl

end I2pLite.WrittenKeys
