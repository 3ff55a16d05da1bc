import I2pLite.Bencode.WriteFails
import I2pLite.Identity.KeysReload

/-!
# Key files that are not written in full

The dict of keys with a certificate has two entries, so that a failure in the
first one is not reported.
-/

namespace I2pLite.KeyFileFails

open I2pLite.CRun
open I2pLite.CBytes
open I2pLite.Memory
open I2pLite.Stdio
open I2pLite.Bencoding
open I2pLite.BencodeObject
open I2pLite.Denotation
open I2pLite.Clone
open I2pLite.Write
open I2pLite.WriteFails
open I2pLite.Cert
open I2pLite.Identity
open I2pLite.Keys
open I2pLite.KeysReload

/-- `bencode_write_file` on a stream, with its result tested for -1. -/
def writeTo (fuel : ℕ) (f : OutFile) (benc : BencodeObj) : Option OutFile :=
  match bencodeWriteFile fuel (.live benc) f with
  | .ok (ret, f') => if ret = -1 then none else some f'
  | .error _ => none

/-- Whichever calls fail, keys are not reported as written with one of them. -/
def ReportsKeys (k : MnetIdentityKeys) : Prop :=
  ∃ bound, ∀ fuel, bound ≤ fuel → ∀ f f',
    mnetIdentityKeysWrite (writeTo fuel f) k = .ok (1, some f') → ¬ SomeFailed f.calls f'

section Keys

variable {k : MnetIdentityKeys} {eddsa : EddsaSign} {benc : BencodeObj}

theorem mnetIdentityKeysWrite_eq {File : Type} (write : BencodeObj → Option File)
    (heddsa : k.eddsa = some eddsa) (hdict : keysDict k eddsa = .ok benc) :
    mnetIdentityKeysWrite write k =
      match write benc with
      | some file => .ok (1, some file)
      | none => .ok (0, none) := by
  rw [mnetIdentityKeysWrite, heddsa]
  dsimp only
  rw [hdict]
  rfl

/-- Keys are reported as the dict that is written for them. -/
theorem reportsKeys_iff_dict {value : BencodeValue} (hlistFree : ListFree value)
    (hdenotes : Denotes value benc) (heddsa : k.eddsa = some eddsa)
    (hdict : keysDict k eddsa = .ok benc) : ReportsKeys k ↔ ReportsFailures benc := by
  constructor
  · rintro ⟨bound, hkeys⟩
    obtain ⟨more, hreturns⟩ := exists_returnsWithin hlistFree
    refine ⟨max bound more, fun fuel hfuel f => ?_⟩
    obtain ⟨ctx', hwrite⟩ :=
      hreturns fuel benc { f := f, written := 0 } (by omega) hdenotes
    have hcall := bencodeWriteFile_eq_ok.mpr hwrite
    refine ⟨_, _, hcall, fun hsome => ?_⟩
    by_contra hret
    refine hkeys fuel (by omega) f ctx'.f ?_ hsome
    rw [mnetIdentityKeysWrite_eq _ heddsa hdict, writeTo, hcall]
    dsimp only
    rw [if_neg hret]
  · rintro ⟨bound, hreports⟩
    refine ⟨bound, fun fuel hfuel f f' hwrite hsome => ?_⟩
    obtain ⟨ret, written, hcall, hret⟩ := hreports fuel hfuel f
    rw [mnetIdentityKeysWrite_eq _ heddsa hdict, writeTo, hcall] at hwrite
    dsimp only at hwrite
    by_cases hminus : ret = -1
    · rw [if_pos hminus] at hwrite
      cases hwrite
    · rw [if_neg hminus] at hwrite
      obtain rfl := Option.some.inj (ok_pair_inj hwrite).2
      exact hminus (hret hsome)

end Keys

/-! ## The dict of keys -/

/-- The dict that is written for keys without a certificate. -/
def privkeyDict (seed : List Byte) : BencodeObj :=
  .dict [{ next := some 1 }, { key := some eddsaPrivkeyName, val := some (bencodeObjStr seed) }]

/-- The dict that is written for keys with a certificate. -/
def certDict (seed data : List Byte) : BencodeObj :=
  .dict [{ next := some 2 }, { key := some eddsaPrivkeyName, val := some (bencodeObjStr seed) },
    { key := some certName, val := some (bencodeObjStr data), next := some 1 }]

section KeysDict

variable {k : MnetIdentityKeys} {eddsa : EddsaSign} {seed data : List Byte}

theorem denotes_privkeyDict (seed : List Byte) :
    Denotes (.dict [(eddsaPrivkeyName.bytes, .str seed)]) (privkeyDict seed) := by
  refine denotes_dict_single.mpr ⟨eddsaPrivkeyName, bencodeObjStr seed, ?_, rfl, rfl⟩
  refine ⟨_, _, [1], rfl, rfl, rfl, .cons rfl .nil, ?_⟩
  exact .cons ⟨_, rfl, rfl, rfl⟩ .nil

theorem denotes_certDict (seed data : List Byte) :
    Denotes (.dict [(certName.bytes, .str data), (eddsaPrivkeyName.bytes, .str seed)])
      (certDict seed data) := by
  refine ⟨[(certName, bencodeObjStr data), (eddsaPrivkeyName, bencodeObjStr seed)], ?_, ?_⟩
  · refine ⟨_, _, [2, 1], rfl, rfl, rfl, .cons rfl (.cons rfl .nil), ?_⟩
    exact .cons ⟨_, rfl, rfl, rfl⟩ (.cons ⟨_, rfl, rfl, rfl⟩ .nil)
  · exact ⟨_, _, _, rfl, rfl, rfl, _, _, _, rfl, rfl, rfl, rfl⟩

/-- A certificate whose data cannot be read: its length is announced, and there
is no buffer. -/
def MissesData (cert : MnetCert) : Prop :=
  cert.data = none ∧ mnetCertBufferLength cert ≠ 0

theorem setCert_some_cases (seed : List Byte) (cert : MnetCert) :
    MissesData cert ∧ (∃ fault, setCert (privkeyDict seed) (some cert) = .error fault) ∨
      ¬ MissesData cert ∧
        ∃ data, setCert (privkeyDict seed) (some cert) = .ok (certDict seed data) := by
  have hset : ∀ data, bencodeObjDictSet 2 (privkeyDict seed) (some certName)
      (bencodeObjStr data) = .ok (certDict seed data) := fun data => rfl
  rw [setCert]
  by_cases hempty : mnetCertBufferLength cert = 0
  · refine Or.inr ⟨fun hmisses => hmisses.2 hempty, [], ?_⟩
    rw [hempty, if_pos UInt16.toNat_zero, hset]
  · have hlength : (mnetCertBufferLength cert).toNat ≠ 0 := fun hzero =>
      hempty (UInt16.toNat_inj.mp hzero)
    rw [if_neg hlength]
    cases hdata : cert.data with
    | none =>
        refine Or.inl ⟨⟨hdata, hempty⟩, .nullDeref, ?_⟩
        rw [mnetCertBuffer, hdata]
        rfl
    | some bytes =>
        have hinside : 0 + (mnetCertBufferLength cert).toNat ≤ bytes.length := by
          rw [cert.allocated bytes hdata, mnetCertBufferLength, UInt16.toNat_ofNat']
          have := Nat.mod_le cert.len (2 ^ 16)
          omega
        obtain ⟨loaded, hload, _⟩ := exists_load bytes hinside
        refine Or.inr ⟨fun hmisses => ?_, loaded.toList, ?_⟩
        · rw [hmisses.1] at hdata
          cases hdata
        · rw [mnetCertBuffer, hdata, deref_some, ok_bind, hload, ok_bind, hset]

theorem keysDict_eq (k : MnetIdentityKeys) (eddsa : EddsaSign) :
    ∃ seed, keysDict k eddsa =
      (deref k.ident >>= fun ident => setCert (privkeyDict seed) ident.cert) := by
  have hinside : 0 + 32 ≤ eddsa.k.toList.length := by
    rw [eddsa.k.toList_length]
    omega
  obtain ⟨seed, hload, _⟩ := exists_load eddsa.k.toList hinside
  refine ⟨seed.toList, ?_⟩
  rw [keysDict, eddsaSignCopyKeyData, hload]
  rfl

end KeysDict

/-! ## Which keys are reported -/

/-- There are keys to write, with a certificate whose data can be read. -/
def HasCert (k : MnetIdentityKeys) : Prop :=
  k.eddsa ≠ none ∧ ∃ ident cert, k.ident = some ident ∧ ident.cert = some cert ∧ ¬ MissesData cert

section Reports

variable {k : MnetIdentityKeys}

theorem reportsKeys_of_never
    (hnever : ∀ write : BencodeObj → Option OutFile, ∀ file,
      mnetIdentityKeysWrite write k ≠ .ok (1, some file)) : ReportsKeys k :=
  ⟨0, fun _ _ _ _ hwrite => absurd hwrite (hnever _ _)⟩

theorem not_hasCert_of_ident {ident : MnetIdentity} (hident : k.ident = some ident)
    (hcert : ∀ cert, ident.cert = some cert → MissesData cert) : ¬ HasCert k := by
  rintro ⟨_, other, cert, hother, hsome, hmisses⟩
  obtain rfl := Option.some.inj (hident.symm.trans hother)
  exact hmisses (hcert cert hsome)

/-- Every failure is kept from a success exactly if there is no certificate to
write. -/
theorem reportsKeys_iff (k : MnetIdentityKeys) : ReportsKeys k ↔ ¬ HasCert k := by
  cases heddsa : k.eddsa with
  | none =>
      refine iff_of_true (reportsKeys_of_never fun write file hwrite => ?_) fun hcert =>
        hcert.1 heddsa
      rw [mnetIdentityKeysWrite, heddsa] at hwrite
      cases hwrite
  | some eddsa =>
      obtain ⟨seed, hdict⟩ := keysDict_eq k eddsa
      have hfault : ∀ fault, keysDict k eddsa = .error fault → ReportsKeys k := by
        refine fun fault hfault => reportsKeys_of_never fun write file hwrite => ?_
        rw [mnetIdentityKeysWrite, heddsa] at hwrite
        dsimp only at hwrite
        rw [hfault] at hwrite
        cases hwrite
      cases hident : k.ident with
      | none =>
          rw [hident] at hdict
          refine iff_of_true (hfault .nullDeref hdict) ?_
          rintro ⟨_, ident, _, hsome, _⟩
          rw [hident] at hsome
          cases hsome
      | some ident =>
          rw [hident, deref_some, ok_bind] at hdict
          cases hcert : ident.cert with
          | none =>
              rw [hcert] at hdict
              refine iff_of_true ?_ (not_hasCert_of_ident hident (by simp [hcert]))
              have hvalue : ListFree (.dict [(eddsaPrivkeyName.bytes, .str seed)]) :=
                .dict (by simpa using .str seed)
              refine (reportsKeys_iff_dict hvalue (denotes_privkeyDict seed) heddsa hdict).mpr ?_
              exact (reportsFailures_iff hvalue (denotes_privkeyDict seed)).mpr
                (.single (.str seed))
          | some cert =>
              rw [hcert] at hdict
              obtain ⟨hmisses, fault, herror⟩ | ⟨hreads, data, hok⟩ := setCert_some_cases seed cert
              · refine iff_of_true (hfault fault (hdict.trans herror)) ?_
                refine not_hasCert_of_ident hident fun other hother => ?_
                exact Option.some.inj (hcert.symm.trans hother) ▸ hmisses
              · refine iff_of_false (fun hreports => ?_) fun hnone =>
                  hnone ⟨by simp [heddsa], ident, cert, hident, hcert, hreads⟩
                have hvalue : ListFree
                    (.dict [(certName.bytes, .str data), (eddsaPrivkeyName.bytes, .str seed)]) :=
                  .dict (by simpa using ⟨.str data, .str seed⟩)
                have hflat := (reportsFailures_iff hvalue (denotes_certDict seed data)).mp
                  ((reportsKeys_iff_dict hvalue (denotes_certDict seed data) heddsa
                    (hdict.trans hok)).mp hreports)
                cases hflat

end Reports

/-! ## Writes that report every failure -/

/-- Failures are reported for objects whose dicts have at most one entry each,
and for keys without a certificate. -/
theorem reportsWrites_iff {value : BencodeValue} {obj : BencodeObj} (hlistFree : ListFree value)
    (hdenotes : Denotes value obj) (k : MnetIdentityKeys) :
    (ReportsFailures obj ↔ FlatValue value) ∧ (ReportsKeys k ↔ ¬ HasCert k) :=
  ⟨reportsFailures_iff hlistFree hdenotes, reportsKeys_iff k⟩

theorem reportsWrites_iff_zeroSeed :
    ReportsFailures (privkeyDict zeroSeed.toList) ∧ ¬ ReportsKeys (keysOf zeroCode zeroSeed) := by
  have hvalue : ListFree (.dict [(eddsaPrivkeyName.bytes, .str zeroSeed.toList)]) :=
    .dict (by simpa using .str zeroSeed.toList)
  obtain ⟨hreports, hkeys⟩ := reportsWrites_iff hvalue (denotes_privkeyDict zeroSeed.toList)
    (keysOf zeroCode zeroSeed)
  refine ⟨hreports.mpr (.single (.str _)), fun hcalls => hkeys.mp hcalls ?_⟩
  exact ⟨by simp [keysOf], _, _, rfl, rfl, fun hmisses => by cases hmisses.1⟩

/-- Generated keys have a certificate, and a failure in its entry is lost. -/
theorem not_reportsFailures_zeroSeed :
    ¬ ReportsFailures (writtenDict zeroSeed) ∧ ¬ ReportsKeys (keysOf zeroCode zeroSeed) := by
  have hvalue : ListFree
      (.dict [(certName.bytes, .str [0, 0, 0]), (eddsaPrivkeyName.bytes, .str zeroSeed.toList)]) :=
    .dict (by simpa using ⟨.str [0, 0, 0], .str zeroSeed.toList⟩)
  have hdenotes := denotes_certDict zeroSeed.toList [0, 0, 0]
  have hfails : ¬ ReportsFailures (writtenDict zeroSeed) := by
    intro hreports
    cases (reportsFailures_iff hvalue hdenotes).mp hreports
  refine ⟨hfails, fun hkeys => hfails ?_⟩
  exact (reportsKeys_iff_dict hvalue hdenotes rfl (keysDict_keysOf zeroSeed)).mp hkeys

end I2pLite.KeyFileFails
