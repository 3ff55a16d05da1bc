import I2pLite.Netdb.FlushLoad
import I2pLite.Netdb.Remove
import I2pLite.RouterInfo.Load

/-!
# Loading the netdb from any files

Here files are loaded by the code for router infos itself, which follows the
null pointers of whatever a file has left out.  A load completes only where no
file is a bad one.
-/

namespace I2pLite.LoadAll

open I2pLite.CRun
open I2pLite.CBytes
open I2pLite.FileSystem
open I2pLite.BencodeObject
open I2pLite.Decoded
open I2pLite.Identity
open I2pLite.Ri
open I2pLite.Load
open I2pLite.Hashmap
open I2pLite.FirstWins
open I2pLite.Netdb
open I2pLite.VisitedFiles
open I2pLite.Remove
open I2pLite.FlushLoad

/-- The code for router infos, given how a file is loaded. -/
def routerInfoCode (load : List Byte → Run (ℤ × RouterInfo)) (digest : List Byte → IdentHash) :
    RouterInfoCode RouterInfo where
  hash := routerInfoHash digest
  write := fun ri => routerInfoWrite ri []
  load := load
  free := routerInfoFree

section Code

variable (read : List Byte → Option BencodeObj) (digest : List Byte → IdentHash) (tree : Tree)
  (readdir : CString → List CString)

/-- Files that are decoded, or fail. -/
def decodedCode : RouterInfoCode RouterInfo :=
  routerInfoCode (routerInfoLoad read routerInfoNew) digest

def netdbReadFile (filename : CString) (ctx : NetdbReadCtx RouterInfo) :
    Run (NetdbReadCtx RouterInfo) :=
  Netdb.netdbReadFile (decodedCode read digest) tree filename ctx

/-- The returned count, and the context behind the walk. -/
def mnetNetdbLoadAll (db : MnetNetdb RouterInfo) : Run (ℕ × NetdbReadCtx RouterInfo) :=
  Netdb.mnetNetdbLoadAll (decodedCode read digest) tree readdir db

end Code

section Load

variable {reader : BencodeReader (List Byte)} {digest : List Byte → IdentHash} {tree : Tree}
  {readdir : CString → List CString}

/-- What is done with a file that was opened. -/
theorem netdbReadFile_of_open {read : List Byte → Option BencodeObj} {file : CString}
    {bytes : List Byte} {ctx : NetdbReadCtx RouterInfo}
    (hopen : tree.fopenRead file = some bytes) :
    netdbReadFile read digest tree file ctx = (do
      let (ret, ri) ← routerInfoLoad read routerInfoNew bytes
      if ret ≠ 0 then
        let h ← routerInfoHash digest ri
        let (_, map) ← netdbHashmapInsert (fun _ => h) ctx.db.map ri
        .ok { ctx with db := { ctx.db with map := map }, loaded := ctx.loaded + 1 }
      else
        routerInfoFree ri
        .ok { ctx with failed := ctx.failed + 1 }) := by
  simp only [netdbReadFile, Netdb.netdbReadFile, hopen]
  rfl

theorem netdbReadFile_of_not_open {read : List Byte → Option BencodeObj} {file : CString}
    {ctx : NetdbReadCtx RouterInfo} (hopen : tree.fopenRead file = none) :
    netdbReadFile read digest tree file ctx = .ok { ctx with failed := ctx.failed + 1 } := by
  simp only [netdbReadFile, Netdb.netdbReadFile, hopen]

/-- A load reads one file after the other. -/
theorem mnetNetdbLoadAll_eq {read : List Byte → Option BencodeObj} {db : MnetNetdb RouterInfo}
    (hfits : RootFits tree readdir db.rootdir) :
    mnetNetdbLoadAll read digest tree readdir db =
      (visitedFiles tree readdir db.rootdir).foldlM
          (fun ctx file => netdbReadFile read digest tree file ctx) (startCtx db) >>=
        fun ctx => .ok (ctx.loaded, ctx) :=
  VisitedFiles.load_eq_foldlM hfits

/-! ## Accounts of loads -/

/-- The identity of a usable file. -/
def usableFile (read : List Byte → Option BencodeObj) (tree : Tree) (file : CString) :
    Option MnetIdentity :=
  (tree.fopenRead file).bind (usableIdentity read)

/-- Behind a load of files: each unusable one is counted as failed and each
other one as loaded, the hashes of the usable ones and no others have been
added, and what a lookup found before it still finds. -/
structure Accounted (read : List Byte → Option BencodeObj) (digest : List Byte → IdentHash)
    (tree : Tree) (files : List CString) (ctx ctx' : NetdbReadCtx RouterInfo) : Prop where
  loaded : ctx'.loaded = ctx.loaded + files.countP fun file => (usableFile read tree file).isSome
  failed : ctx'.failed = ctx.failed + files.countP fun file => (usableFile read tree file).isNone
  keys : ∀ key, Present ctx'.db.map key ↔ Present ctx.db.map key ∨
    ∃ file ∈ files, ∃ ident, usableFile read tree file = some ident ∧
      mnetIdentityHash digest ident = .ok key
  kept : ∀ key, Present ctx.db.map key →
    netdbHashmapGet ctx'.db.map key = netdbHashmapGet ctx.db.map key
  added : ∀ key ri, ¬ Present ctx.db.map key → netdbHashmapGet ctx'.db.map key = .ok (1, some ri) →
    ∃ file ∈ files, ∃ ident, usableFile read tree file = some ident ∧ ri.identity = some ident

/-- The hash that a router info is inserted under. -/
def hashOf (digest : List Byte → IdentHash) (ri : RouterInfo) : IdentHash :=
  okHash (routerInfoHash digest ri)

theorem hashOf_eq_of_ok {ri : RouterInfo} {h : IdentHash}
    (hhash : routerInfoHash digest ri = .ok h) : hashOf digest ri = h := by
  rw [hashOf, hhash]
  rfl

/-- A netdb that inserts have built. -/
structure BuiltNetdb (digest : List Byte → IdentHash) where
  db : MnetNetdb RouterInfo
  ris : List RouterInfo
  built : Built (hashOf digest) ris db.map

theorem firstWith_append {Ri : Type} (routerInfoHash : Ri → IdentHash) (ris ris' : List Ri)
    (key : IdentHash) :
    firstWith routerInfoHash (ris ++ ris') key =
      (firstWith routerInfoHash ris key).or (firstWith routerInfoHash ris' key) :=
  List.find?_append

theorem present_built_iff {Ri : Type} {routerInfoHash : Ri → IdentHash} {ris : List Ri}
    {map : NetdbHashmap Ri} (hbuilt : Built routerInfoHash ris map) {key : IdentHash} :
    Present map key ↔ ∃ ri ∈ ris, routerInfoHash ri = key :=
  (present_iff hbuilt.inv).trans hbuilt.mem_hashesOf_iff

/-! ## Loadable files -/

section Loadable

variable {ris : List RouterInfo} {ctx : NetdbReadCtx RouterInfo} {file : CString}

/-- The router infos of a load of files. -/
structure Loaded (read : List Byte → Option BencodeObj) (digest : List Byte → IdentHash)
    (tree : Tree) (files : List CString) (ris : List RouterInfo) : Prop where
  idents : ris.map RouterInfo.identity = (files.filterMap (usableFile read tree)).map some
  hashes : ∀ ri ∈ ris, ∀ ident, ri.identity = some ident →
    mnetIdentityHash digest ident = .ok (hashOf digest ri)

theorem Loaded.append {read : List Byte → Option BencodeObj} {files files' : List CString}
    {ris' : List RouterInfo} (hloaded : Loaded read digest tree files ris)
    (hloaded' : Loaded read digest tree files' ris') :
    Loaded read digest tree (files ++ files') (ris ++ ris') where
  idents := by
    rw [List.map_append, hloaded.idents, hloaded'.idents, List.filterMap_append, List.map_append]
  hashes := by
    intro ri hri
    rcases List.mem_append.mp hri with hri | hri
    · exact hloaded.hashes ri hri
    · exact hloaded'.hashes ri hri

theorem netdbReadFile_loadable
    (hloadable : ∀ bytes, tree.fopenRead file = some bytes → Loadable reader.read bytes)
    (hbuilt : Built (hashOf digest) ris ctx.db.map) :
    ∃ ctx' ris', netdbReadFile reader.read digest tree file ctx = .ok ctx' ∧
      Built (hashOf digest) (ris ++ ris') ctx'.db.map ∧
      Loaded reader.read digest tree [file] ris' ∧
      ctx'.loaded = ctx.loaded + ris'.length ∧
      ctx'.failed = ctx.failed + [file].countP fun file =>
        (usableFile reader.read tree file).isNone := by
  cases hopen : tree.fopenRead file with
  | none =>
      have husable : usableFile reader.read tree file = none := by rw [usableFile, hopen]; rfl
      refine ⟨_, [], netdbReadFile_of_not_open hopen, by simpa using hbuilt, ⟨?_, by simp⟩, rfl, ?_⟩
      · simp [husable]
      · simp [husable]
  | some bytes =>
      obtain ⟨ri, key, cert, hload, hident, husable⟩ := (hloadable bytes hopen).load
      have husable : usableFile reader.read tree file = some (identityOf key (.filled cert)) := by
        rw [usableFile, hopen]
        exact husable
      obtain ⟨h, hh⟩ := exists_mnetIdentityHash digest key cert
      have hhash : routerInfoHash digest ri = .ok h := by rw [routerInfoHash, hident]; exact hh
      have hhashOf : hashOf digest ri = h := hashOf_eq_of_ok hhash
      obtain ⟨ret, map', hinsert, hbuilt'⟩ :=
        @insert_built _ (decodedCode reader.read digest) _ _ _ hbuilt _ hhash
      refine ⟨{ ctx with db := { ctx.db with map := map' }, loaded := ctx.loaded + 1 }, [ri], ?_,
        hbuilt', ⟨?_, ?_⟩, rfl, ?_⟩
      · rw [netdbReadFile_of_open hopen, hload, ok_bind]
        dsimp only
        rw [if_pos one_ne_zero, hhash, ok_bind, hinsert]
        rfl
      · simp [husable, hident]
      · intro other hother ident hidentity
        obtain rfl := List.mem_singleton.mp hother
        obtain rfl := Option.some.inj (hident.symm.trans hidentity)
        rw [hhashOf]
        exact hh
      · simp [husable]

theorem foldlM_netdbReadFile {files : List CString}
    (hloadable : ∀ file ∈ files, ∀ bytes, tree.fopenRead file = some bytes →
      Loadable reader.read bytes)
    (hbuilt : Built (hashOf digest) ris ctx.db.map) :
    ∃ ctx' ris', files.foldlM (fun ctx file => netdbReadFile reader.read digest tree file ctx) ctx =
        .ok ctx' ∧
      Built (hashOf digest) (ris ++ ris') ctx'.db.map ∧
      Loaded reader.read digest tree files ris' ∧
      ctx'.loaded = ctx.loaded + ris'.length ∧
      ctx'.failed = ctx.failed + files.countP fun file =>
        (usableFile reader.read tree file).isNone := by
  induction files generalizing ris ctx with
  | nil => exact ⟨ctx, [], rfl, by simpa using hbuilt, ⟨rfl, by simp⟩, rfl, rfl⟩
  | cons file files ih =>
      obtain ⟨middle, first, hread, hfirst, hloaded, hcount, hfailed⟩ :=
        netdbReadFile_loadable (hloadable file (List.mem_cons_self ..)) hbuilt
      obtain ⟨ctx', others, hrest, hothers, hloaded', hcount', hfailed'⟩ :=
        ih (fun other hother => hloadable other (List.mem_cons_of_mem _ hother)) hfirst
      refine ⟨ctx', first ++ others, ?_, ?_, hloaded.append hloaded', ?_, ?_⟩
      · rw [List.foldlM_cons, hread, ok_bind, hrest]
      · rwa [← List.append_assoc]
      · rw [hcount', hcount, List.length_append, Nat.add_assoc]
      · rw [hfailed', hfailed, Nat.add_assoc, ← List.countP_append, List.singleton_append]

section Loaded

variable {read : List Byte → Option BencodeObj} {files : List CString}

theorem Loaded.exists_file (hloaded : Loaded read digest tree files ris) {ri : RouterInfo}
    (hri : ri ∈ ris) :
    ∃ file ∈ files, ∃ ident, usableFile read tree file = some ident ∧ ri.identity = some ident := by
  have hident := List.mem_map_of_mem (f := RouterInfo.identity) hri
  rw [hloaded.idents] at hident
  obtain ⟨ident, hident, hsome⟩ := List.mem_map.mp hident
  obtain ⟨file, hfile, husable⟩ := List.mem_filterMap.mp hident
  exact ⟨file, hfile, ident, husable, hsome.symm⟩

theorem Loaded.exists_ri (hloaded : Loaded read digest tree files ris) {file : CString}
    {ident : MnetIdentity} (hfile : file ∈ files)
    (husable : usableFile read tree file = some ident) :
    ∃ ri ∈ ris, ri.identity = some ident := by
  have hident : some ident ∈ ris.map RouterInfo.identity := by
    rw [hloaded.idents]
    exact List.mem_map.mpr ⟨ident, List.mem_filterMap.mpr ⟨file, hfile, husable⟩, rfl⟩
  obtain ⟨ri, hri, hidentity⟩ := List.mem_map.mp hident
  exact ⟨ri, hri, hidentity⟩

theorem Loaded.hash_iff (hloaded : Loaded read digest tree files ris) {key : IdentHash} :
    (∃ ri ∈ ris, hashOf digest ri = key) ↔
      ∃ file ∈ files, ∃ ident, usableFile read tree file = some ident ∧
        mnetIdentityHash digest ident = .ok key := by
  constructor
  · rintro ⟨ri, hri, rfl⟩
    obtain ⟨file, hfile, ident, husable, hident⟩ := hloaded.exists_file hri
    exact ⟨file, hfile, ident, husable, hloaded.hashes ri hri ident hident⟩
  · rintro ⟨file, hfile, ident, husable, hkey⟩
    obtain ⟨ri, hri, hident⟩ := hloaded.exists_ri hfile husable
    have hhash := hloaded.hashes ri hri ident hident
    exact ⟨ri, hri, Except.ok.inj (hhash.symm.trans hkey)⟩

end Loaded

/-- Where every file that can be opened is loadable, the load is accounted
for. -/
theorem accounted_of_loaded {ctx' : NetdbReadCtx RouterInfo} {files : List CString}
    {ris' : List RouterInfo} (hbuilt : Built (hashOf digest) ris ctx.db.map)
    (hbuilt' : Built (hashOf digest) (ris ++ ris') ctx'.db.map)
    (hloaded : Loaded reader.read digest tree files ris')
    (hcount : ctx'.loaded = ctx.loaded + ris'.length)
    (hfailed : ctx'.failed = ctx.failed + files.countP fun file =>
      (usableFile reader.read tree file).isNone) :
    Accounted reader.read digest tree files ctx ctx' where
  loaded := by
    have hlength := congrArg List.length hloaded.idents
    rw [List.length_map, List.length_map, List.length_filterMap_eq_countP] at hlength
    rw [hcount, hlength]
  failed := hfailed
  keys := by
    intro key
    rw [present_built_iff hbuilt, present_built_iff hbuilt', ← hloaded.hash_iff]
    simp only [List.mem_append, or_and_right, exists_or]
  kept := by
    intro key hpresent
    obtain ⟨ri, hri, hkey⟩ := (present_built_iff hbuilt).mp hpresent
    have hfirst : firstWith (hashOf digest) ris key ≠ none := fun hnone =>
      firstWith_eq_none_iff.mp hnone ri hri hkey
    rw [hbuilt.get_eq, hbuilt'.get_eq, firstWith_append,
      Option.or_of_isSome (Option.isSome_iff_ne_none.mpr hfirst)]
  added := by
    intro key ri habsent hget
    have hfirst : firstWith (hashOf digest) ris key = none := by
      rw [firstWith_eq_none_iff]
      exact fun earlier hearlier hkey =>
        habsent ((present_built_iff hbuilt).mpr ⟨earlier, hearlier, hkey⟩)
    rw [hbuilt'.get_eq, firstWith_append, hfirst, Option.none_or] at hget
    cases hfound : firstWith (hashOf digest) ris' key with
    | none =>
        rw [hfound] at hget
        cases hget
    | some found =>
        rw [hfound] at hget
        obtain rfl := Option.some.inj (ok_pair_inj hget).2
        exact hloaded.exists_file (List.mem_of_find?_eq_some hfound)

end Loadable

/-! ## Loads that complete -/

theorem routerInfoFree_new : routerInfoFree routerInfoNew = .error .nullDeref := rfl

/-- A read of a file completes only where it is not rejected. -/
theorem load_of_netdbReadFile {file : CString} {bytes : List Byte}
    {ctx ctx' : NetdbReadCtx RouterInfo} (hopen : tree.fopenRead file = some bytes)
    (hread : netdbReadFile reader.read digest tree file ctx = .ok ctx') :
    ctx'.failed = ctx.failed ∧
      ∃ ret ri, routerInfoLoad reader.read routerInfoNew bytes = .ok (ret, ri) ∧ ret ≠ 0 := by
  rw [netdbReadFile_of_open hopen] at hread
  obtain ⟨⟨ret, ri⟩, hload, hread⟩ := bind_eq_ok.mp hread
  dsimp only at hread
  by_cases hret : ret = 0
  · rw [if_neg (not_not_intro hret)] at hread
    subst hret
    rw [eq_new_of_load_zero hload, routerInfoFree_new] at hread
    cases hread
  · rw [if_pos hret] at hread
    obtain ⟨h, _, hread⟩ := bind_eq_ok.mp hread
    obtain ⟨⟨_, map⟩, _, hread⟩ := bind_eq_ok.mp hread
    obtain rfl := Except.ok.inj hread
    exact ⟨rfl, ret, ri, hload, hret⟩

theorem load_of_foldlM {files : List CString} {ctx ctx' : NetdbReadCtx RouterInfo}
    (hfiles : ∀ file ∈ files, tree.isFile file = true)
    (hreads : files.foldlM (fun ctx file => netdbReadFile reader.read digest tree file ctx) ctx =
      .ok ctx') :
    ctx'.failed = ctx.failed ∧ ∀ file ∈ files, ∀ bytes, tree.fopenRead file = some bytes →
      ∃ ret ri, routerInfoLoad reader.read routerInfoNew bytes = .ok (ret, ri) ∧ ret ≠ 0 := by
  induction files generalizing ctx with
  | nil =>
      obtain rfl := Except.ok.inj hreads
      exact ⟨rfl, by simp⟩
  | cons file files ih =>
      rw [List.foldlM_cons] at hreads
      obtain ⟨middle, hread, hreads⟩ := bind_eq_ok.mp hreads
      obtain ⟨bytes, hopen⟩ := Tree.exists_fopenRead (hfiles file (List.mem_cons_self ..))
      obtain ⟨hfailed, hload⟩ := load_of_netdbReadFile hopen hread
      obtain ⟨hfailed', hloads⟩ :=
        ih (fun other hother => hfiles other (List.mem_cons_of_mem _ hother)) hreads
      refine ⟨hfailed'.trans hfailed, fun other hother bytes' hopen' => ?_⟩
      rcases List.mem_cons.mp hother with rfl | hother
      · obtain rfl := Option.some.inj (hopen.symm.trans hopen')
        exact hload
      · exact hloads other hother bytes' hopen'

/-- A load of the netdb completes, and meets and accounts for every file. -/
structure LoadsUsable (read : List Byte → Option BencodeObj) (digest : List Byte → IdentHash)
    (tree : Tree) (readdir : CString → List CString) (db : MnetNetdb RouterInfo) : Prop where
  meets : visitedFiles tree readdir db.rootdir = filesBelow tree readdir db.rootdir
  loads : ∃ ctx, mnetNetdbLoadAll read digest tree readdir db = .ok (ctx.loaded, ctx) ∧
    Accounted read digest tree (filesBelow tree readdir db.rootdir) (startCtx db) ctx

/-- A file is loaded only if it is loadable. -/
theorem LoadsUsable.loadable {db : MnetNetdb RouterInfo}
    (hloads : LoadsUsable reader.read digest tree readdir db) {file : CString} {bytes : List Byte}
    (hfile : file ∈ filesBelow tree readdir db.rootdir)
    (hopen : tree.fopenRead file = some bytes) : Loadable reader.read bytes := by
  obtain ⟨hmeets, ctx, hload, haccounted⟩ := hloads
  have hrun := hload
  rw [mnetNetdbLoadAll_eq (rootFits_of_load hload)] at hrun
  obtain ⟨ctx', hreads, hresult⟩ := bind_eq_ok.mp hrun
  obtain rfl : ctx' = ctx := (ok_pair_inj hresult).2
  rw [← hmeets] at hfile
  obtain ⟨hfailed, hall⟩ := load_of_foldlM (fun _ => isFile_of_mem_visitedFiles) hreads
  obtain ⟨ret, ri, hri, hret⟩ := hall file hfile bytes hopen
  have hzero := haccounted.failed
  rw [hfailed, ← hmeets, Nat.left_eq_add, List.countP_eq_zero] at hzero
  have husable := hzero file hfile
  rw [usableFile, hopen, Option.bind_some, Option.isNone_iff_eq_none] at husable
  exact loadable_of_load hri hret husable

/-- A load of the netdb completes and accounts for every file exactly where the
paths fit and every file is loadable: one file that is not stops the load. -/
theorem loadsUsable_iff (reader : BencodeReader (List Byte)) (digest : List Byte → IdentHash)
    (tree : Tree) (readdir : CString → List CString) (netdb : BuiltNetdb digest) :
    LoadsUsable reader.read digest tree readdir netdb.db ↔
      PathsFit tree readdir netdb.db.rootdir ∧
        ∀ file ∈ filesBelow tree readdir netdb.db.rootdir, ∀ bytes,
          tree.fopenRead file = some bytes → Loadable reader.read bytes := by
  constructor
  · intro hloads
    obtain ⟨ctx, hload, _⟩ := hloads.loads
    exact ⟨pathsFit_iff.mpr ⟨rootFits_of_load hload, hloads.meets⟩, fun file hfile bytes hopen =>
      hloads.loadable hfile hopen⟩
  · rintro ⟨hfits, hloadable⟩
    obtain ⟨hnames, hbelow⟩ := pathsFit_iff.mp hfits
    obtain ⟨ctx, ris, hreads, hbuilt, hloaded, hcount, hfailed⟩ :=
      @foldlM_netdbReadFile reader digest tree netdb.ris (startCtx netdb.db) _ hloadable netdb.built
    refine ⟨hbelow, ctx, ?_, accounted_of_loaded netdb.built hbuilt hloaded hcount hfailed⟩
    rw [mnetNetdbLoadAll_eq hnames, hbelow, hreads]
    rfl

/-! ## A netdb with an empty file -/

/-- Nothing can be read. -/
def failingReader (File : Type) : BencodeReader File where
  read := fun _ => none
  decoded := fun _ _ hread => absurd hread (by simp)

def skipDir : CString := slash nodesDir (ofBuffer [ch 'r'])

def emptyFile : CString := slash skipDir (ofBuffer [ch 'f'])

/-- An empty file in a directory below the root. -/
def emptyFileTree : Tree where
  entries := [(nodesDir, .dir), (skipDir, .dir), (emptyFile, .file [])]
  distinct := by decide
  named := by decide

/-- The netdb as it is started with. -/
def freshNetdb (digest : List Byte → IdentHash) (root : CString) : BuiltNetdb digest where
  db := mnetNetdbNew root
  ris := []
  built := ⟨inv_init _, fun _ => rfl⟩

def emptyFileNames (path : CString) : List CString := dot :: dotDot :: emptyFileTree.names path

theorem lists_emptyFileNames : emptyFileTree.Lists emptyFileNames := fun _ => .refl _

theorem rootFits_emptyFileNames : RootFits emptyFileTree emptyFileNames nodesDir :=
  fun _ hlong => absurd hlong (by decide)

theorem visitedFiles_emptyFileNames :
    visitedFiles emptyFileTree emptyFileNames nodesDir = [emptyFile] := by
  decide

/-- The load of a netdb that has nothing but an empty file stops at a null
pointer. -/
theorem not_loadsUsable_emptyFile :
    emptyFileTree.Lists emptyFileNames ∧
      ∀ digest, mnetNetdbLoadAll (failingReader (List Byte)).read digest emptyFileTree
          emptyFileNames (freshNetdb digest nodesDir).db = .error .nullDeref ∧
        ¬ LoadsUsable (failingReader (List Byte)).read digest emptyFileTree emptyFileNames
          (freshNetdb digest nodesDir).db := by
  refine ⟨lists_emptyFileNames, fun digest => ⟨?_, fun hloads => ?_⟩⟩
  · have hroot : (freshNetdb digest nodesDir).db.rootdir = nodesDir := rfl
    rw [mnetNetdbLoadAll_eq rootFits_emptyFileNames, hroot, visitedFiles_emptyFileNames]
    rfl
  have hfile : emptyFile ∈ filesBelow emptyFileTree emptyFileNames nodesDir := by decide
  have hopen : emptyFileTree.fopenRead emptyFile = some [] := by decide
  obtain ⟨dict, entries, hread, _⟩ := hloads.loadable hfile hopen
  cases hread

end Load

end I2pLite.LoadAll
