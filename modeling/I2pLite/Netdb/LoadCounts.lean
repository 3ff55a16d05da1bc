import Mathlib.Data.Finset.Card
import Mathlib.Data.List.Forall2
import I2pLite.Bencode.Clone
import I2pLite.Identity.Base64Form
import I2pLite.Netdb.LoadAll

/-!
# The count of a load

Every file that is read is counted, and a router info whose hash is in the map
already is counted like a new one.
-/

namespace I2pLite.LoadCounts

open I2pLite.CRun
open I2pLite.CBytes
open I2pLite.CInt
open I2pLite.FileSystem
open I2pLite.Bencoding
open I2pLite.BencodeObject
open I2pLite.Denotation
open I2pLite.Clone
open I2pLite.Decoded
open I2pLite.Base64
open I2pLite.Identity
open I2pLite.Base64Form
open I2pLite.Ri
open I2pLite.Load
open I2pLite.Hashmap
open I2pLite.FirstWins
open I2pLite.Netdb
open I2pLite.Remove
open I2pLite.VisitedFiles
open I2pLite.FlushLoad
open I2pLite.LoadAll

/-! ## Sizes -/

section Sizes

variable {Ri : Type} {routerInfoHash : Ri → IdentHash} {ris ris' : List Ri}
variable {map map' : NetdbHashmap Ri}

/-- The nodes are the distinct hashes. -/
theorem size_built (hbuilt : Built routerInfoHash ris map) :
    netdbHashmapSize map = (ris.map routerInfoHash).toFinset.card := by
  have hsame : (hashesOf map).toFinset = (ris.map routerInfoHash).toFinset := by
    apply Finset.ext
    intro key
    rw [List.mem_toFinset, List.mem_toFinset, hbuilt.mem_hashesOf_iff, List.mem_map]
  rw [hbuilt.inv.size, ← hsame, List.toFinset_card_of_nodup hbuilt.inv.distinct, hashesOf,
    List.length_map]

theorem present_iff_mem_toFinset (hbuilt : Built routerInfoHash ris map) {key : IdentHash} :
    Present map key ↔ key ∈ (ris.map routerInfoHash).toFinset := by
  rw [present_built_iff hbuilt, List.mem_toFinset, List.mem_map]

/-- What has been added to the hashes, and what was known of it. -/
theorem size_append (hbuilt : Built routerInfoHash ris map)
    (hbuilt' : Built routerInfoHash (ris ++ ris') map') :
    netdbHashmapSize map' +
        ((ris.map routerInfoHash).toFinset ∩ (ris'.map routerInfoHash).toFinset).card =
      netdbHashmapSize map + (ris'.map routerInfoHash).toFinset.card := by
  rw [size_built hbuilt, size_built hbuilt', List.map_append, List.toFinset_append]
  exact Finset.card_union_add_card_inter _ _

/-- The map is as large as before exactly if all that was inserted was known. -/
theorem size_eq_iff (hbuilt : Built routerInfoHash ris map)
    (hbuilt' : Built routerInfoHash (ris ++ ris') map') :
    netdbHashmapSize map' = netdbHashmapSize map ↔
      ∀ ri ∈ ris', Present map (routerInfoHash ri) := by
  have hsize := size_append hbuilt hbuilt'
  constructor
  · intro hsame ri hri
    have hinter := Finset.eq_of_subset_of_card_le
      (@Finset.inter_subset_right _ _ (ris.map routerInfoHash).toFinset
        (ris'.map routerInfoHash).toFinset) (by omega)
    have hmem : routerInfoHash ri ∈ (ris'.map routerInfoHash).toFinset :=
      List.mem_toFinset.mpr (List.mem_map_of_mem hri)
    rw [← hinter] at hmem
    exact (present_iff_mem_toFinset hbuilt).mpr (Finset.mem_inter.mp hmem).1
  · intro hknown
    have hsubset : (ris'.map routerInfoHash).toFinset ⊆ (ris.map routerInfoHash).toFinset := by
      intro key hkey
      obtain ⟨ri, hri, rfl⟩ := List.mem_map.mp (List.mem_toFinset.mp hkey)
      exact (present_iff_mem_toFinset hbuilt).mp (hknown ri hri)
    rw [Finset.inter_eq_right.mpr hsubset] at hsize
    omega

/-- The map grows by every insert exactly if all of them are new. -/
theorem size_eq_add_iff (hbuilt : Built routerInfoHash ris map)
    (hbuilt' : Built routerInfoHash (ris ++ ris') map') :
    netdbHashmapSize map' = netdbHashmapSize map + ris'.length ↔
      (ris'.map routerInfoHash).Nodup ∧ ∀ ri ∈ ris', ¬ Present map (routerInfoHash ri) := by
  have hsize := size_append hbuilt hbuilt'
  have hlength : (ris'.map routerInfoHash).length = ris'.length := List.length_map ..
  constructor
  · intro hall
    have hmost := List.toFinset_card_le (ris'.map routerInfoHash)
    refine ⟨?_, fun ri hri hpresent => ?_⟩
    · rw [← List.dedup_eq_self]
      exact (List.dedup_sublist _).eq_of_length (by rw [← List.card_toFinset]; omega)
    · have hempty := Finset.card_eq_zero.mp (show ((ris.map routerInfoHash).toFinset ∩
        (ris'.map routerInfoHash).toFinset).card = 0 by omega)
      have hmem : routerInfoHash ri ∈ (ris.map routerInfoHash).toFinset ∩
          (ris'.map routerInfoHash).toFinset :=
        Finset.mem_inter.mpr ⟨(present_iff_mem_toFinset hbuilt).mp hpresent,
          List.mem_toFinset.mpr (List.mem_map_of_mem hri)⟩
      rw [hempty] at hmem
      exact absurd hmem (Finset.notMem_empty _)
  · rintro ⟨hdistinct, hnew⟩
    have hempty : (ris.map routerInfoHash).toFinset ∩ (ris'.map routerInfoHash).toFinset = ∅ := by
      apply Finset.eq_empty_of_forall_notMem
      intro key hkey
      obtain ⟨hold, hkey⟩ := Finset.mem_inter.mp hkey
      obtain ⟨ri, hri, rfl⟩ := List.mem_map.mp (List.mem_toFinset.mp hkey)
      exact hnew ri hri ((present_iff_mem_toFinset hbuilt).mpr hold)
    rw [hempty, Finset.card_empty, List.toFinset_card_of_nodup hdistinct] at hsize
    omega

end Sizes

/-! ## Files that are read -/

section Reads

variable {reader : BencodeReader (List Byte)} {digest : List Byte → IdentHash} {tree : Tree}
variable {readdir : CString → List CString} {file : CString} {files : List CString}
variable {ri : RouterInfo} {ris ris' : List RouterInfo} {ctx ctx' : NetdbReadCtx RouterInfo}

/-- The file is loaded as a router info that has a hash. -/
def ReadsAs (read : List Byte → Option BencodeObj) (digest : List Byte → IdentHash) (tree : Tree)
    (file : CString) (ri : RouterInfo) : Prop :=
  ∃ bytes ret, tree.fopenRead file = some bytes ∧
    routerInfoLoad read routerInfoNew bytes = .ok (ret, ri) ∧ ret ≠ 0 ∧
    routerInfoHash digest ri = .ok (hashOf digest ri)

/-- Behind files that have been read as the added router infos. -/
structure BehindReads (digest : List Byte → IdentHash) (ris ris' : List RouterInfo)
    (ctx ctx' : NetdbReadCtx RouterInfo) : Prop where
  built : Built (hashOf digest) (ris ++ ris') ctx'.db.map
  loaded : ctx'.loaded = ctx.loaded + ris'.length
  rootdir : ctx'.db.rootdir = ctx.db.rootdir

theorem netdbReadFile_of_readsAs {read : List Byte → Option BencodeObj}
    (hreads : ReadsAs read digest tree file ri) (hbuilt : Built (hashOf digest) ris ctx.db.map) :
    ∃ ctx', netdbReadFile read digest tree file ctx = .ok ctx' ∧
      BehindReads digest ris [ri] ctx ctx' := by
  obtain ⟨bytes, ret, hopen, hload, hret, hhash⟩ := hreads
  obtain ⟨flag, map', hinsert, hbuilt', _⟩ := hbuilt.insert ri
  have hsame := @netdbHashmapInsert_congr _ (hashOf digest) (fun _ => hashOf digest ri) ri rfl
    ctx.db.map
  rw [hsame] at hinsert
  refine ⟨{ ctx with db := { ctx.db with map := map' }, loaded := ctx.loaded + 1 }, ?_,
    ⟨hbuilt', rfl, rfl⟩⟩
  rw [netdbReadFile_of_open hopen, hload, ok_bind]
  dsimp only
  rw [if_pos hret, hhash, ok_bind, hinsert]
  rfl

/-- What is read without a fault is read as a router info. -/
theorem exists_readsAs (hfile : tree.isFile file = true)
    (hread : netdbReadFile reader.read digest tree file ctx = .ok ctx') :
    ∃ ri, ReadsAs reader.read digest tree file ri := by
  obtain ⟨bytes, hopen⟩ := Tree.exists_fopenRead hfile
  obtain ⟨_, ret, ri, hload, hret⟩ := load_of_netdbReadFile hopen hread
  rw [netdbReadFile_of_open hopen, hload, ok_bind] at hread
  dsimp only at hread
  rw [if_pos hret] at hread
  obtain ⟨h, hhash, _⟩ := bind_eq_ok.mp hread
  refine ⟨ri, bytes, ret, hopen, hload, hret, ?_⟩
  rw [hashOf_eq_of_ok hhash, hhash]

theorem BehindReads.trans {ris'' : List RouterInfo} {ctx'' : NetdbReadCtx RouterInfo}
    (hfirst : BehindReads digest ris ris' ctx ctx')
    (hsecond : BehindReads digest (ris ++ ris') ris'' ctx' ctx'') :
    BehindReads digest ris (ris' ++ ris'') ctx ctx'' where
  built := by
    rw [← List.append_assoc]
    exact hsecond.built
  loaded := by
    rw [hsecond.loaded, hfirst.loaded, List.length_append, Nat.add_assoc]
  rootdir := hsecond.rootdir.trans hfirst.rootdir

theorem foldlM_of_readsAs {read : List Byte → Option BencodeObj}
    (hreads : List.Forall₂ (ReadsAs read digest tree) files ris')
    (hbuilt : Built (hashOf digest) ris ctx.db.map) :
    ∃ ctx', files.foldlM (fun ctx file => netdbReadFile read digest tree file ctx) ctx = .ok ctx' ∧
      BehindReads digest ris ris' ctx ctx' := by
  induction hreads generalizing ris ctx with
  | nil => exact ⟨ctx, rfl, by simpa using hbuilt, rfl, rfl⟩
  | @cons file ri files ris' hread _ ih =>
      obtain ⟨middle, hstep, hmiddle⟩ := netdbReadFile_of_readsAs hread hbuilt
      obtain ⟨ctx', hrest, hbehind⟩ := ih hmiddle.built
      refine ⟨ctx', ?_, hmiddle.trans hbehind⟩
      rw [List.foldlM_cons, hstep, ok_bind, hrest]

theorem exists_readsAs_of_foldlM (hfiles : ∀ file ∈ files, tree.isFile file = true)
    (hfold : files.foldlM (fun ctx file => netdbReadFile reader.read digest tree file ctx) ctx =
      .ok ctx') :
    ∃ ris', List.Forall₂ (ReadsAs reader.read digest tree) files ris' := by
  induction files generalizing ctx with
  | nil => exact ⟨[], .nil⟩
  | cons file files ih =>
      rw [List.foldlM_cons] at hfold
      obtain ⟨middle, hread, hrest⟩ := bind_eq_ok.mp hfold
      obtain ⟨ri, hri⟩ := exists_readsAs (hfiles file (List.mem_cons_self ..)) hread
      obtain ⟨ris', hris'⟩ :=
        ih (fun other hother => hfiles other (List.mem_cons_of_mem _ hother)) hrest
      exact ⟨ri :: ris', .cons hri hris'⟩

/-! ## Whole loads -/

/-- The files that a load meets are read as these router infos. -/
structure LoadsAs (read : List Byte → Option BencodeObj) (digest : List Byte → IdentHash)
    (tree : Tree) (readdir : CString → List CString) (root : CString) (ris' : List RouterInfo) :
    Prop where
  fits : RootFits tree readdir root
  reads : List.Forall₂ (ReadsAs read digest tree) (visitedFiles tree readdir root) ris'

theorem load_of_loadsAs {db : MnetNetdb RouterInfo}
    (hloads : LoadsAs reader.read digest tree readdir db.rootdir ris')
    (hbuilt : Built (hashOf digest) ris db.map) :
    ∃ ctx, mnetNetdbLoadAll reader.read digest tree readdir db = .ok (ris'.length, ctx) ∧
      Built (hashOf digest) (ris ++ ris') ctx.db.map ∧ ctx.db.rootdir = db.rootdir := by
  obtain ⟨ctx, hfold, hbehind⟩ := @foldlM_of_readsAs digest tree _ ris ris' (startCtx db) _
    hloads.reads hbuilt
  have hcount : ctx.loaded = ris'.length := hbehind.loaded.trans (Nat.zero_add _)
  refine ⟨ctx, ?_, hbehind.built, hbehind.rootdir⟩
  rw [mnetNetdbLoadAll_eq hloads.fits, hfold, ok_bind, hcount]

theorem exists_loadsAs {db : MnetNetdb RouterInfo} {result : ℕ × NetdbReadCtx RouterInfo}
    (hload : mnetNetdbLoadAll reader.read digest tree readdir db = .ok result) :
    ∃ ris', LoadsAs reader.read digest tree readdir db.rootdir ris' := by
  have hfits := rootFits_of_load hload
  rw [mnetNetdbLoadAll_eq hfits] at hload
  obtain ⟨ctx, hfold, _⟩ := bind_eq_ok.mp hload
  obtain ⟨ris', hreads⟩ := exists_readsAs_of_foldlM (fun _ => isFile_of_mem_visitedFiles) hfold
  exact ⟨ris', hfits, hreads⟩

/-- A second load counts the same files once more, and changes nothing. -/
theorem load_again {db : MnetNetdb RouterInfo} {n : ℕ} {ctx : NetdbReadCtx RouterInfo}
    (hbuilt : Built (hashOf digest) ris db.map)
    (hload : mnetNetdbLoadAll reader.read digest tree readdir db = .ok (n, ctx)) :
    ∃ ctx', mnetNetdbLoadAll reader.read digest tree readdir ctx.db = .ok (n, ctx') ∧
      mnetNetdbLoadedPeerCount ctx'.db = mnetNetdbLoadedPeerCount ctx.db ∧
      ∀ key, netdbHashmapGet ctx'.db.map key = netdbHashmapGet ctx.db.map key := by
  obtain ⟨ris', hloads⟩ := exists_loadsAs hload
  obtain ⟨other, hother, hbuilt', hroot⟩ := load_of_loadsAs hloads hbuilt
  obtain ⟨rfl, rfl⟩ := ok_pair_inj (hload.symm.trans hother)
  rw [← hroot] at hloads
  obtain ⟨ctx', hagain, hbuilt'', _⟩ := load_of_loadsAs hloads hbuilt'
  have hknown : ∀ ri ∈ ris', Present ctx.db.map (hashOf digest ri) := fun ri hri =>
    (present_built_iff hbuilt').mpr ⟨ri, by simp [hri], rfl⟩
  refine ⟨ctx', hagain, (size_eq_iff hbuilt' hbuilt'').mpr hknown, fun key => ?_⟩
  have hfirst : firstWith (hashOf digest) (ris ++ ris' ++ ris') key =
      firstWith (hashOf digest) (ris ++ ris') key := by
    rw [firstWith_append]
    cases hsome : firstWith (hashOf digest) (ris ++ ris') key with
    | some ri => rfl
    | none =>
        rw [Option.none_or, firstWith_eq_none_iff]
        exact fun ri hri => firstWith_eq_none_iff.mp hsome ri (by simp [hri])
  rw [hbuilt'.get_eq, hbuilt''.get_eq, hfirst]

/-- With less files than an `int` can count, the count is that of the new peers
exactly if no hash is met twice, or is known. -/
theorem count_eq_iff {db : MnetNetdb RouterInfo} {n : ℕ} {ctx : NetdbReadCtx RouterInfo}
    (hbuilt : Built (hashOf digest) ris db.map)
    (hloads : LoadsAs reader.read digest tree readdir db.rootdir ris')
    (hload : mnetNetdbLoadAll reader.read digest tree readdir db = .ok (n, ctx))
    (hfew : n < 2 ^ 31) :
    toInt32 n = (mnetNetdbLoadedPeerCount ctx.db : ℤ) - mnetNetdbLoadedPeerCount db ↔
      (ris'.map (hashOf digest)).Nodup ∧ ∀ ri ∈ ris', ¬ Present db.map (hashOf digest ri) := by
  obtain ⟨other, hother, hbuilt', _⟩ := load_of_loadsAs hloads hbuilt
  obtain ⟨rfl, rfl⟩ := ok_pair_inj (hload.symm.trans hother)
  rw [← size_eq_add_iff hbuilt hbuilt', toInt32_of_lt (by omega) (by omega)]
  simp only [mnetNetdbLoadedPeerCount]
  omega

/-! ## Loads that are counted -/

/-- A load returns by how much the peers have become more; the next one returns
0, and every lookup stays as it is. -/
def CountsLoads (read : List Byte → Option BencodeObj) (digest : List Byte → IdentHash)
    (tree : Tree) (readdir : CString → List CString) (db : MnetNetdb RouterInfo) : Prop :=
  ∃ n ctx, mnetNetdbLoadAll read digest tree readdir db = .ok (n, ctx) ∧
    toInt32 n = (mnetNetdbLoadedPeerCount ctx.db : ℤ) - mnetNetdbLoadedPeerCount db ∧
    ∃ n' ctx', mnetNetdbLoadAll read digest tree readdir ctx.db = .ok (n', ctx') ∧
      toInt32 n' = 0 ∧
      ∀ key, netdbHashmapGet ctx'.db.map key = netdbHashmapGet ctx.db.map key

/-- No file is met, but for numbers of known files that an `int` takes for 0. -/
structure LoadsNothing (read : List Byte → Option BencodeObj) (digest : List Byte → IdentHash)
    (tree : Tree) (readdir : CString → List CString) (db : MnetNetdb RouterInfo) : Prop where
  fits : RootFits tree readdir db.rootdir
  wraps : 2 ^ 32 ∣ (visitedFiles tree readdir db.rootdir).length
  known : ∀ file ∈ visitedFiles tree readdir db.rootdir, ∃ ri,
    ReadsAs read digest tree file ri ∧ Present db.map (hashOf digest ri)

theorem toInt32_eq_zero_iff {n : ℕ} : toInt32 n = 0 ↔ 2 ^ 32 ∣ n := by
  rw [toInt32, ← Int.dvd_iff_bmod_eq_zero, Int.natCast_dvd_natCast]

theorem exists_forall₂ {A B : Type} {related : A → B → Prop} {kept : B → Prop} {values : List A}
    (hvalues : ∀ value ∈ values, ∃ other, related value other ∧ kept other) :
    ∃ others, List.Forall₂ related values others ∧ ∀ other ∈ others, kept other := by
  induction values with
  | nil => exact ⟨[], .nil, by simp⟩
  | cons value values ih =>
      obtain ⟨other, hother, hkept⟩ := hvalues value (List.mem_cons_self ..)
      obtain ⟨others, hothers, hall⟩ :=
        ih fun value hvalue => hvalues value (List.mem_cons_of_mem _ hvalue)
      exact ⟨other :: others, .cons hother hothers, List.forall_mem_cons.mpr ⟨hkept, hall⟩⟩

/-- Loads are counted as they should be exactly where there is nothing to load:
what is known already is counted again. -/
theorem countsLoads_iff (reader : BencodeReader (List Byte)) (digest : List Byte → IdentHash)
    (tree : Tree) (readdir : CString → List CString) (netdb : BuiltNetdb digest) :
    CountsLoads reader.read digest tree readdir netdb.db ↔
      LoadsNothing reader.read digest tree readdir netdb.db := by
  constructor
  · rintro ⟨n, ctx, hload, hcount, n', ctx', hagain, hzero, _⟩
    obtain ⟨ris', hloads⟩ := exists_loadsAs hload
    obtain ⟨other, hother, hbuilt', _⟩ := load_of_loadsAs hloads netdb.built
    obtain ⟨rfl, rfl⟩ := ok_pair_inj (hload.symm.trans hother)
    obtain ⟨again, hsame, _⟩ := load_again netdb.built hload
    obtain ⟨rfl, rfl⟩ := ok_pair_inj (hagain.symm.trans hsame)
    rw [hzero] at hcount
    have hknown := (size_eq_iff netdb.built hbuilt').mp (by
      simp only [mnetNetdbLoadedPeerCount] at hcount
      omega)
    refine ⟨hloads.fits, ?_, fun file hfile => ?_⟩
    · rw [hloads.reads.length_eq]
      exact toInt32_eq_zero_iff.mp hzero
    · obtain ⟨ri, hri, hread⟩ := exists_right_of_mem hloads.reads hfile
      exact ⟨ri, hread, hknown ri hri⟩
  · rintro ⟨hfits, hwraps, hknown⟩
    obtain ⟨ris', hreads, hpresent⟩ := exists_forall₂ hknown
    obtain ⟨ctx, hload, hbuilt', _⟩ := load_of_loadsAs ⟨hfits, hreads⟩ netdb.built
    obtain ⟨ctx', hagain, _, hlookups⟩ := load_again netdb.built hload
    have hsize := (size_eq_iff netdb.built hbuilt').mpr hpresent
    rw [hreads.length_eq] at hwraps
    have hzero := toInt32_eq_zero_iff.mpr hwraps
    refine ⟨_, ctx, hload, ?_, _, ctx', hagain, hzero, hlookups⟩
    rw [hzero]
    simp only [mnetNetdbLoadedPeerCount]
    omega

end Reads

/-! ## One file -/

/-- The base64 text of an identity of zeros. -/
def zeroText : CString := ofBuffer (encodeGroups (assembled (.replicate 32 0) [0, 0, 0]))

theorem zeroText_bytes : zeroText.bytes = encodeGroups (assembled (.replicate 32 0) [0, 0, 0]) := by
  have hstring := mnetIdentityToBase64_eq (.replicate 32 0) [0, 0, 0]
  have hbytes := (bytes_of_toBase64 hstring).2
  rw [zeroText, ← hbytes, ofBuffer_bytes]

/-- A router info that has an identity of zeros. -/
def identDict : BencodeObj :=
  .dict [{ next := some 1 }, { key := some identName, val := some (bencodeObjStr zeroText.bytes) }]

theorem dictHolds_identDict :
    DictHolds identDict [(identName, bencodeObjStr zeroText.bytes)] := by
  refine ⟨_, _, [1], rfl, rfl, rfl, .cons rfl .nil, ?_⟩
  exact .cons ⟨_, rfl, rfl, rfl⟩ .nil

theorem denotes_identDict :
    Denotes (.dict [(identName.bytes, .str zeroText.bytes)]) identDict :=
  denotes_dict_single.mpr ⟨_, _, dictHolds_identDict, rfl, rfl⟩

theorem readIdent_zeroText :
    readIdent (bencodeObjStr zeroText.bytes) =
      .ok (identityOf (.replicate 32 0) (.filled [0, 0, 0]), 1) := by
  have hne : zeroText.bytes ≠ [] := by
    rw [zeroText_bytes]
    decide
  have hbuffer : stringBuffer (bencodeObjStr zeroText.bytes) = some zeroText.bytes := by
    rw [stringBuffer, show bencodeObjGetstr (bencodeObjStr zeroText.bytes) =
      some zeroText.bytes from rfl, Option.bind_some, bufferOf, if_neg hne]
  rw [readIdent, hbuffer]
  dsimp only
  rw [ofBuffer_bytes]
  exact fromBase64_of_zeros rfl zeroText_bytes

section IdentFile

variable {reader : BencodeReader (List Byte)} {bytes : List Byte}

theorem loadable_identDict (hread : reader.read bytes = some identDict) :
    Loadable reader.read bytes := by
  refine ⟨identDict, _, hread, dictHolds_identDict, ⟨?_, List.pairwise_singleton _ _, ?_⟩,
    bencodeObjStr zeroText.bytes, _, rfl, readIdent_zeroText⟩
  · intro entry hentry hname
    rw [List.mem_singleton.mp hentry] at hname
    exact absurd hname.symm capsName_ne_identName
  · intro entry hentry _
    rw [List.mem_singleton.mp hentry]
    exact exists_readIdent_iff.mp ⟨_, readIdent_zeroText⟩

/-- The file of this router info. -/
def identFile : List Byte := encode (.dict [(identName.bytes, .str zeroText.bytes)])

def identPath : CString := slash skipDir (ofBuffer [ch 'n'])

/-- The file in a directory below the root. -/
def identTree : Tree where
  entries := [(nodesDir, .dir), (skipDir, .dir), (identPath, .file identFile)]
  distinct := by decide
  named := by decide

def identNames (path : CString) : List CString := dot :: dotDot :: identTree.names path

theorem rootFits_identNames : RootFits identTree identNames nodesDir :=
  fun _ hlong => absurd hlong (by decide)

theorem visitedFiles_identNames : visitedFiles identTree identNames nodesDir = [identPath] := by
  decide

theorem exists_readsAs_identDict (digest : List Byte → IdentHash)
    (hread : reader.read identFile = some identDict) :
    ∃ ri, ReadsAs reader.read digest identTree identPath ri := by
  obtain ⟨ri, key, cert, hload, hident, _⟩ := (loadable_identDict hread).load
  obtain ⟨h, hhash⟩ := exists_mnetIdentityHash digest key cert
  have hri : routerInfoHash digest ri = .ok h := by rw [routerInfoHash, hident]; exact hhash
  exact ⟨ri, identFile, 1, rfl, hload, one_ne_zero, by rw [hashOf_eq_of_ok hri, hri]⟩

end IdentFile

/-- Only this file is decoded. -/
def identReader : BencodeReader (List Byte) where
  read := fun bytes => if bytes = identFile then some identDict else none
  decoded := by
    intro bytes dict hread
    obtain ⟨_, hsome⟩ := Option.ite_none_right_eq_some.mp hread
    rw [← Option.some.inj hsome]
    exact ⟨_, denotes_identDict⟩

theorem read_identFile : identReader.read identFile = some identDict := by
  simp [identReader]

/-- However else files are read, a file that is read as the router info that it
holds is counted by the first load and by the second one. -/
theorem not_countsLoads_again :
    identTree.Lists identNames ∧ identReader.read identFile = some identDict ∧
      ∀ (reader : BencodeReader (List Byte)) (digest : List Byte → IdentHash),
        reader.read identFile = some identDict →
        (∃ ctx ctx', mnetNetdbLoadAll reader.read digest identTree identNames
            (freshNetdb digest nodesDir).db = .ok (1, ctx) ∧
          mnetNetdbLoadAll reader.read digest identTree identNames ctx.db = .ok (1, ctx')) ∧
        ¬ CountsLoads reader.read digest identTree identNames (freshNetdb digest nodesDir).db := by
  refine ⟨fun _ => .refl _, read_identFile, fun reader digest hread => ?_⟩
  obtain ⟨ri, hri⟩ := exists_readsAs_identDict digest hread
  have hloads : LoadsAs reader.read digest identTree identNames nodesDir [ri] := by
    refine ⟨rootFits_identNames, ?_⟩
    rw [visitedFiles_identNames]
    exact .cons hri .nil
  obtain ⟨ctx, hload, _, _⟩ := load_of_loadsAs hloads (freshNetdb digest nodesDir).built
  obtain ⟨ctx', hagain, _⟩ := load_again (freshNetdb digest nodesDir).built hload
  refine ⟨⟨ctx, ctx', hload, hagain⟩, ?_⟩
  rintro ⟨n, other, hother, _, n', again, hsecond, hzero, _⟩
  obtain ⟨rfl, rfl⟩ := ok_pair_inj (hload.symm.trans hother)
  obtain ⟨rfl, rfl⟩ := ok_pair_inj (hagain.symm.trans hsecond)
  exact absurd (toInt32_eq_zero_iff.mp hzero) (show ¬ 2 ^ 32 ∣ 1 by decide)

end I2pLite.LoadCounts
