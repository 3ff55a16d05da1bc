import I2pLite.Netdb.ForEach
import I2pLite.Netdb.VisitedFiles

/-!
# What is loaded after a flush

A flush writes the entries that an iteration visits, each to a file of its own,
and leaves all other files.  Loading reads whatever is two levels below the
root.  So the entries of the bucket 0 are lost unless a file of theirs is left
from before, and what is left must be read without a fault.
-/

namespace I2pLite.FlushLoad

open I2pLite.CRun
open I2pLite.CBytes
open I2pLite.FileSystem
open I2pLite.Hashmap
open I2pLite.FirstWins
open I2pLite.ForEach
open I2pLite.Netdb
open I2pLite.Files
open I2pLite.VisitedFiles

variable {Ri : Type} {code : RouterInfoCode Ri} {root : CString} {tree : Tree}

/-! ## Inserts -/

section Inserts

variable {ris : List Ri} {map : NetdbHashmap Ri}

theorem netdbHashmapInsert_congr {routerInfoHash routerInfoHash' : Ri → IdentHash} {ri : Ri}
    (hhash : routerInfoHash ri = routerInfoHash' ri) (map : NetdbHashmap Ri) :
    netdbHashmapInsert routerInfoHash map ri = netdbHashmapInsert routerInfoHash' map ri := by
  rw [netdbHashmapInsert, netdbHashmapInsert, hhash]

theorem hashOf_eq {ri : Ri} {h : IdentHash} (hhash : code.hash ri = .ok h) :
    code.hashOf ri = h := by
  rw [RouterInfoCode.hashOf, hhash]
  rfl

/-- A run of inserts, each of which hashes its router info. -/
def insertRun (code : RouterInfoCode Ri) (ris : List Ri) : Run (NetdbHashmap Ri) :=
  ris.foldlM (fun map ri => do
    let h ← code.hash ri
    let (_, map) ← netdbHashmapInsert (fun _ => h) map ri
    .ok map) netdbHashmapInit

/-- An insert into a built map, where there is a hash. -/
theorem insert_built {h : IdentHash} (hbuilt : Built code.hashOf ris map) {ri : Ri}
    (hhash : code.hash ri = .ok h) :
    ∃ ret map', netdbHashmapInsert (fun _ => h) map ri = .ok (ret, map') ∧
      Built code.hashOf (ris ++ [ri]) map' := by
  obtain ⟨ret, map', hinsert, hbuilt', _⟩ := hbuilt.insert ri
  have hsame := @netdbHashmapInsert_congr _ code.hashOf (fun _ => h) ri (hashOf_eq hhash) map
  rw [hsame] at hinsert
  exact ⟨ret, map', hinsert, hbuilt'⟩

/-- A run of inserts has hashed every router info. -/
theorem built_of_insertRun (hcalls : insertRun code ris = .ok map) :
    Built code.hashOf ris map ∧ ∀ ri ∈ ris, ∃ h, code.hash ri = .ok h := by
  induction ris using List.reverseRecOn generalizing map with
  | nil =>
      obtain rfl := Except.ok.inj hcalls
      exact ⟨⟨inv_init code.hashOf, fun _ => rfl⟩, by simp⟩
  | append_singleton ris ri ih =>
      rw [insertRun, List.foldlM_append] at hcalls
      obtain ⟨before, hbefore, hlast⟩ := bind_eq_ok.mp hcalls
      obtain ⟨hbuilt, hhashes⟩ := ih hbefore
      obtain ⟨after, hinsert, hend⟩ := bind_eq_ok.mp hlast
      obtain rfl := Except.ok.inj hend
      obtain ⟨h, hhash, hinsert⟩ := bind_eq_ok.mp hinsert
      obtain ⟨ret, map', hinsert', hbuilt'⟩ := insert_built hbuilt hhash
      rw [hinsert'] at hinsert
      obtain rfl := Except.ok.inj hinsert
      refine ⟨hbuilt', fun other hother => ?_⟩
      rcases List.mem_append.mp hother with hother | hother
      · exact hhashes other hother
      · exact ⟨h, List.mem_singleton.mp hother ▸ hhash⟩

/-- Where every router info has a hash, all of them are inserted. -/
theorem exists_insertRun (hhashes : ∀ ri ∈ ris, ∃ h, code.hash ri = .ok h) :
    ∃ map, insertRun code ris = .ok map := by
  induction ris using List.reverseRecOn with
  | nil => exact ⟨netdbHashmapInit, rfl⟩
  | append_singleton ris ri ih =>
      obtain ⟨map, hcalls⟩ := ih fun other hother => hhashes other (by simp [hother])
      obtain ⟨h, hhash⟩ := hhashes ri (by simp)
      obtain ⟨ret, map', hinsert, _⟩ := insert_built (built_of_insertRun hcalls).1 hhash
      refine ⟨map', ?_⟩
      rw [insertRun, List.foldlM_append, ← insertRun, hcalls, ok_bind, List.foldlM_cons, hhash,
        ok_bind, hinsert]
      rfl

end Inserts

/-! ## The flush -/

section Flush

variable {write : Ri → Run (ℤ × List Byte)} {db : MnetNetdb Ri} {node : NetdbHashNode Ri}
variable {ctx : NetdbWriteCtx}

/-- An entry in a directory of the root is no file of an entry. -/
theorem slash_ne_pathOf {name : CString} (hname : IsName name) (ident : IdentHash) :
    slash root name ≠ pathOf root ident := by
  intro heq
  have hparent := congrArg parentOf heq
  rw [parentOf_slash hname.2.1, pathOf, parentOf_slash (isName_fileName ident).2.1,
    Option.some.injEq] at hparent
  exact slash_ne_self _ _ hparent.symm

/-- The file of an entry can be created only in a directory. -/
theorem dir_of_canCreate {ident : IdentHash} (hcreate : tree.canCreate (pathOf root ident)) :
    tree.lookup (slash root (skipName ident)) = some .dir := by
  have hparent : parentOf (pathOf root ident) = some (slash root (skipName ident)) :=
    parentOf_slash (isName_fileName ident).2.1
  rw [Tree.canCreate, hparent, Bool.and_eq_true] at hcreate
  simpa [slash_ne_nil, Tree.isDir_iff] using hcreate.2

/-- What one call of the visitor leaves where it succeeds. -/
theorem netdbWriteEntry_eq_ok (hroot : db.rootdir.bytes ≠ [])
    (hshort : strlen db.rootdir + 58 < 256) {ctx' : NetdbWriteCtx}
    (hcall : visitNode (netdbWriteEntry write db) ctx node = .ok ctx') (hresult : ctx'.result ≠ 0) :
    ctx.result ≠ 0 ∧
      (∀ path, path ≠ pathOf db.rootdir node.h → ctx'.tree.lookup path = ctx.tree.lookup path) ∧
      ctx.tree.lookup (slash db.rootdir (skipName node.h)) = some .dir ∧
      ∃ bytes, write node.ri = .ok (ctx'.result, bytes) ∧
        ctx'.tree.lookup (pathOf db.rootdir node.h) = some (.file bytes) := by
  rw [visitNode, netdbWriteEntry] at hcall
  split_ifs at hcall with hgoing
  · rw [netdbOpenFile_eq hroot hshort, ok_bind] at hcall
    cases hopen : ctx.tree.fopenWrite (pathOf db.rootdir node.h) with
    | none =>
        rw [hopen] at hcall
        obtain rfl := Except.ok.inj hcall
        exact absurd rfl hresult
    | some opened =>
        rw [hopen] at hcall
        obtain ⟨⟨result, bytes⟩, hwrite, hcall⟩ := bind_eq_ok.mp hcall
        obtain rfl := Except.ok.inj hcall
        have hpath : (pathOf db.rootdir node.h).bytes ≠ [] := slash_ne_nil _ _
        rw [Tree.fopenWrite] at hopen
        split_ifs at hopen with hcreate
        obtain rfl := Option.some.inj hopen
        refine ⟨hgoing, fun path hne => ?_, dir_of_canCreate hcreate, bytes, hwrite,
          Tree.lookup_put_self _ hpath⟩
        exact (Tree.lookup_put_of_ne _ hne).trans (Tree.lookup_put_of_ne _ hne)
  · obtain rfl := Except.ok.inj hcall
    exact absurd hresult hgoing

/-- Behind a run of calls that succeed there is a file for every entry, and
nothing else has changed. -/
theorem writeEntries_eq_ok (hroot : db.rootdir.bytes ≠ [])
    (hshort : strlen db.rootdir + 58 < 256) {nodes : List (NetdbHashNode Ri)} {ctx' : NetdbWriteCtx}
    (hrun : nodes.foldlM (visitNode (netdbWriteEntry write db)) ctx = .ok ctx')
    (hresult : ctx'.result ≠ 0) :
    (∀ path, (∀ node ∈ nodes, path ≠ pathOf db.rootdir node.h) →
        ctx'.tree.lookup path = ctx.tree.lookup path) ∧
      ∀ node ∈ nodes, ctx.tree.lookup (slash db.rootdir (skipName node.h)) = some .dir ∧
        ∃ last ∈ nodes, last.h = node.h ∧ ∃ ret bytes, write last.ri = .ok (ret, bytes) ∧
          ctx'.tree.lookup (pathOf db.rootdir node.h) = some (.file bytes) := by
  induction nodes using List.reverseRecOn generalizing ctx' with
  | nil =>
      obtain rfl := Except.ok.inj hrun
      exact ⟨fun _ _ => rfl, fun _ hnode => by cases hnode⟩
  | append_singleton nodes node ih =>
      rw [List.foldlM_append] at hrun
      obtain ⟨between, hbefore, hlast⟩ := bind_eq_ok.mp hrun
      obtain ⟨ctx'', hcall, hend⟩ := bind_eq_ok.mp hlast
      obtain rfl := Except.ok.inj hend
      obtain ⟨hgoing, hframe, hdir, bytes, hwrite, hlookup⟩ :=
        netdbWriteEntry_eq_ok hroot hshort hcall hresult
      obtain ⟨hframeBefore, hwrittenBefore⟩ := ih hbefore hgoing
      constructor
      · intro path hpath
        calc ctx''.tree.lookup path
            = between.tree.lookup path := hframe path (hpath node (by simp))
          _ = ctx.tree.lookup path :=
            hframeBefore path fun other hother => hpath other (by simp [hother])
      · intro other hother
        by_cases hsame : other.h = node.h
        · have hunchanged := hframeBefore (slash db.rootdir (skipName node.h)) fun earlier _ =>
            slash_ne_pathOf (isName_skipName node.h) earlier.h
          rw [hsame, ← hunchanged]
          exact ⟨hdir, node, by simp, rfl, _, bytes, hwrite, hlookup⟩
        · have hmem : other ∈ nodes := by
            rcases List.mem_append.mp hother with hmem | hmem
            · exact hmem
            · exact absurd (congrArg NetdbHashNode.h (List.mem_singleton.mp hmem)) hsame
          obtain ⟨hdirOther, last, hlastMem, hh, ret, bytes', hwrite', hlookup'⟩ :=
            hwrittenBefore other hmem
          refine ⟨hdirOther, last, by simp [hlastMem], hh, ret, bytes', hwrite', ?_⟩
          rw [hframe _ fun heq => hsame (pathOf_injective _ heq), hlookup']

end Flush

/-! ## Loading -/

section Load

variable {readdir : CString → List CString} {ctx ctx' : NetdbReadCtx Ri} {ris : List Ri}
variable {file : CString} {files : List CString}

/-- What comes of a file: the router info that is inserted, or none. -/
def loadedFrom (code : RouterInfoCode Ri) (bytes : List Byte) : Run (Option Ri) := do
  let (ret, ri) ← code.load bytes
  if ret ≠ 0 then
    let _ ← code.hash ri
    .ok (some ri)
  else
    code.free ri
    .ok none

theorem netdbReadFile_built (hbuilt : Built code.hashOf ris ctx.db.map) {bytes : List Byte}
    (hopen : tree.fopenRead file = some bytes) {loaded : Option Ri}
    (hloaded : loadedFrom code bytes = .ok loaded) :
    ∃ ctx', netdbReadFile code tree file ctx = .ok ctx' ∧
      Built code.hashOf (ris ++ loaded.toList) ctx'.db.map := by
  simp only [netdbReadFile, hopen]
  obtain ⟨⟨ret, ri⟩, hload, hrest⟩ := bind_eq_ok.mp hloaded
  rw [hload, ok_bind]
  dsimp only at hrest ⊢
  split_ifs at hrest ⊢
  · obtain ⟨h, hhash, hresult⟩ := bind_eq_ok.mp hrest
    obtain rfl := Except.ok.inj hresult
    obtain ⟨ret', map', hinsert, hbuilt'⟩ := insert_built hbuilt hhash
    rw [hhash, ok_bind, hinsert]
    exact ⟨_, rfl, hbuilt'⟩
  · obtain ⟨_, hfree, hresult⟩ := bind_eq_ok.mp hrest
    obtain rfl := Except.ok.inj hresult
    rw [hfree]
    exact ⟨_, rfl, by simpa using hbuilt⟩

/-- What is read without a fault comes to something. -/
theorem exists_loadedFrom {bytes : List Byte} (hopen : tree.fopenRead file = some bytes)
    (hread : netdbReadFile code tree file ctx = .ok ctx') :
    ∃ loaded, loadedFrom code bytes = .ok loaded := by
  simp only [netdbReadFile, hopen] at hread
  obtain ⟨⟨ret, ri⟩, hload, hrest⟩ := bind_eq_ok.mp hread
  rw [loadedFrom, hload, ok_bind]
  dsimp only at hrest ⊢
  split_ifs at hrest ⊢
  · obtain ⟨h, hhash, _⟩ := bind_eq_ok.mp hrest
    exact ⟨some ri, by rw [hhash]; rfl⟩
  · obtain ⟨_, hfree, _⟩ := bind_eq_ok.mp hrest
    exact ⟨none, by rw [hfree]; rfl⟩

/-- A file comes to this. -/
def LoadsTo (code : RouterInfoCode Ri) (tree : Tree) (file : CString) (loaded : Option Ri) :
    Prop :=
  ∃ bytes, tree.fopenRead file = some bytes ∧ loadedFrom code bytes = .ok loaded

/-- Files of which each comes to something are read, one after the other. -/
theorem foldlM_netdbReadFile_built (hbuilt : Built code.hashOf ris ctx.db.map)
    (hloads : ∀ file ∈ files, ∃ loaded, LoadsTo code tree file loaded) :
    ∃ ctx' added, files.foldlM (fun ctx file => netdbReadFile code tree file ctx) ctx = .ok ctx' ∧
      Built code.hashOf (ris ++ added) ctx'.db.map ∧
      ∀ ri, ri ∈ added ↔ ∃ file ∈ files, LoadsTo code tree file (some ri) := by
  induction files generalizing ris ctx with
  | nil => exact ⟨ctx, [], rfl, by simpa using hbuilt, by simp⟩
  | cons file files ih =>
      obtain ⟨loaded, bytes, hopen, hloaded⟩ := hloads file (List.mem_cons_self ..)
      obtain ⟨between, hread, hbetween⟩ := netdbReadFile_built hbuilt hopen hloaded
      obtain ⟨ctx', added, hrest, hbuilt', hadded⟩ :=
        ih hbetween fun other hother => hloads other (List.mem_cons_of_mem _ hother)
      refine ⟨ctx', loaded.toList ++ added, ?_, ?_, fun ri => ?_⟩
      · rw [List.foldlM_cons, hread, ok_bind, hrest]
      · rwa [← List.append_assoc]
      · rw [List.mem_append, Option.mem_toList, hadded, List.exists_mem_cons_iff]
        refine or_congr_left ⟨?_, ?_⟩
        · rintro rfl
          exact ⟨bytes, hopen, hloaded⟩
        · rintro ⟨bytes', hopen', hloaded'⟩
          obtain rfl := Option.some.inj (hopen.symm.trans hopen')
          exact Except.ok.inj (hloaded.symm.trans hloaded')

/-- Files that are read without a fault come to something, each. -/
theorem loadsTo_of_foldlM (hfiles : ∀ file ∈ files, tree.isFile file = true)
    (hreads : files.foldlM (fun ctx file => netdbReadFile code tree file ctx) ctx = .ok ctx') :
    ∀ file ∈ files, ∃ loaded, LoadsTo code tree file loaded := by
  induction files generalizing ctx with
  | nil => simp
  | cons file files ih =>
      rw [List.foldlM_cons] at hreads
      obtain ⟨between, hread, hrest⟩ := bind_eq_ok.mp hreads
      obtain ⟨bytes, hopen⟩ := Tree.exists_fopenRead (hfiles file (List.mem_cons_self ..))
      obtain ⟨loaded, hloaded⟩ := exists_loadedFrom hopen hread
      rintro other hother
      rcases List.mem_cons.mp hother with rfl | hother
      · exact ⟨loaded, bytes, hopen, hloaded⟩
      · exact ih (fun other hother => hfiles other (List.mem_cons_of_mem _ hother)) hrest other
          hother

/-- The names of a directory below the root and of a file in it lead to these
bytes. -/
structure FileAt (root : CString) (tree : Tree) (dirName name : CString) (bytes : List Byte) :
    Prop where
  isName : IsName name
  isNameDir : IsName dirName
  dir : tree.lookup (slash root dirName) = some .dir
  file : tree.lookup (slash (slash root dirName) name) = some (.file bytes)

theorem mem_filesBelow_iff (hroot : tree.lookup root = some .dir) (hlists : tree.Lists readdir) :
    file ∈ filesBelow tree readdir root ↔
      ∃ dirName name bytes, FileAt root tree dirName name bytes ∧
        file = slash (slash root dirName) name := by
  rw [filesBelow, if_pos (Tree.isDir_iff.mpr hroot), List.mem_flatMap]
  constructor
  · rintro ⟨dir, hdir, hfile⟩
    obtain ⟨dirName, hdirName, rfl, _, hisDir⟩ := (mem_listed_iff hlists).mp hdir
    obtain ⟨name, hname, rfl, _, hisFile⟩ := (mem_listed_iff hlists).mp hfile
    obtain ⟨bytes, hopen⟩ := Tree.exists_fopenRead hisFile
    exact ⟨dirName, name, bytes, ⟨hname, hdirName, Tree.isDir_iff.mp hisDir,
      Tree.fopenRead_eq_some_iff.mp hopen⟩, rfl⟩
  · rintro ⟨dirName, name, bytes, ⟨hname, hdirName, hdir, hlookup⟩, rfl⟩
    refine ⟨slash root dirName, ?_, ?_⟩
    · refine (mem_listed_iff hlists).mpr ⟨dirName, hdirName, rfl, ?_, Tree.isDir_iff.mpr hdir⟩
      rw [hdir]
      rfl
    · refine (mem_listed_iff hlists).mpr ⟨name, hname, rfl, ?_, ?_⟩
      · rw [hlookup]
        rfl
      · rw [Tree.isFile, hlookup]

theorem loadsTo_iff {dirName name : CString} {bytes : List Byte}
    (hat : FileAt root tree dirName name bytes) {loaded : Option Ri} :
    LoadsTo code tree (slash (slash root dirName) name) loaded ↔
      loadedFrom code bytes = .ok loaded := by
  have hopen := Tree.fopenRead_eq_some_iff.mpr hat.file
  constructor
  · rintro ⟨bytes', hopen', hloaded⟩
    obtain rfl := Option.some.inj (hopen.symm.trans hopen')
    exact hloaded
  · exact fun hloaded => ⟨bytes, hopen, hloaded⟩

/-- A file below the root loads a router info with this hash. -/
def LoadsKey (code : RouterInfoCode Ri) (root : CString) (tree : Tree) (key : IdentHash) : Prop :=
  ∃ dirName name bytes ri, FileAt root tree dirName name bytes ∧
    loadedFrom code bytes = .ok (some ri) ∧ code.hashOf ri = key

theorem loadsTo_files_iff (hroot : tree.lookup root = some .dir) (hlists : tree.Lists readdir) :
    (∀ file ∈ filesBelow tree readdir root, ∃ loaded, LoadsTo code tree file loaded) ↔
      ∀ dirName name bytes, FileAt root tree dirName name bytes →
        ∃ loaded, loadedFrom code bytes = .ok loaded := by
  constructor
  · intro hall dirName name bytes hat
    obtain ⟨loaded, hloaded⟩ := hall _
      ((mem_filesBelow_iff hroot hlists).mpr ⟨dirName, name, bytes, hat, rfl⟩)
    exact ⟨loaded, (loadsTo_iff hat).mp hloaded⟩
  · intro hall file hfile
    obtain ⟨dirName, name, bytes, hat, rfl⟩ := (mem_filesBelow_iff hroot hlists).mp hfile
    obtain ⟨loaded, hloaded⟩ := hall dirName name bytes hat
    exact ⟨loaded, (loadsTo_iff hat).mpr hloaded⟩

theorem loadsTo_key_iff (hroot : tree.lookup root = some .dir) (hlists : tree.Lists readdir)
    (key : IdentHash) :
    (∃ ri, (∃ file ∈ filesBelow tree readdir root, LoadsTo code tree file (some ri)) ∧
      code.hashOf ri = key) ↔ LoadsKey code root tree key := by
  constructor
  · rintro ⟨ri, ⟨file, hfile, hloaded⟩, hh⟩
    obtain ⟨dirName, name, bytes, hat, rfl⟩ := (mem_filesBelow_iff hroot hlists).mp hfile
    exact ⟨dirName, name, bytes, ri, hat, (loadsTo_iff hat).mp hloaded, hh⟩
  · rintro ⟨dirName, name, bytes, ri, hat, hloaded, hh⟩
    exact ⟨ri, ⟨_, (mem_filesBelow_iff hroot hlists).mpr ⟨dirName, name, bytes, hat, rfl⟩,
      (loadsTo_iff hat).mpr hloaded⟩, hh⟩

theorem built_startCtx : Built code.hashOf ([] : List Ri) (startCtx (mnetNetdbNew root)).db.map :=
  ⟨inv_init code.hashOf, fun _ => rfl⟩

/-- The hashes behind a load into an empty netdb are those of the files. -/
theorem hashesOf_foldlM_iff (hroot : tree.lookup root = some .dir) (hlists : tree.Lists readdir)
    (hall : ∀ file ∈ filesBelow tree readdir root, ∃ loaded, LoadsTo code tree file loaded)
    {ctx : NetdbReadCtx Ri}
    (hreads : (filesBelow tree readdir root).foldlM
      (fun ctx file => netdbReadFile code tree file ctx) (startCtx (mnetNetdbNew root)) = .ok ctx)
    (key : IdentHash) :
    key ∈ hashesOf ctx.db.map ↔ LoadsKey code root tree key := by
  obtain ⟨ctx', added, hreads', hbuilt, hadded⟩ := foldlM_netdbReadFile_built built_startCtx hall
  obtain rfl := Except.ok.inj (hreads.symm.trans hreads')
  rw [hbuilt.mem_hashesOf_iff, List.nil_append, ← loadsTo_key_iff hroot hlists]
  simp only [hadded]

/-- A load into an empty netdb ends exactly where every file comes to something,
and the hashes behind it are those of the files. -/
theorem load_keys_iff (hroot : tree.lookup root = some .dir) (hlists : tree.Lists readdir)
    (hshort : Untruncated root tree) (keys : IdentHash → Prop) :
    (∃ count ctx, mnetNetdbLoadAll code tree readdir (mnetNetdbNew root) = .ok (count, ctx) ∧
      ∀ key, key ∈ hashesOf ctx.db.map ↔ keys key) ↔
      (∀ dirName name bytes, FileAt root tree dirName name bytes →
        ∃ loaded, loadedFrom code bytes = .ok loaded) ∧
      ∀ key, LoadsKey code root tree key ↔ keys key := by
  obtain ⟨hfits, hbelow⟩ := pathsFit_iff.mp (pathsFit_of_untruncated hlists hshort)
  rw [load_eq_foldlM hfits, show (mnetNetdbNew root : MnetNetdb Ri).rootdir = root from rfl,
    hbelow, ← loadsTo_files_iff hroot hlists]
  constructor
  · rintro ⟨count, ctx, hload, hmap⟩
    obtain ⟨ctx', hreads, hresult⟩ := bind_eq_ok.mp hload
    obtain ⟨_, rfl⟩ := ok_pair_inj hresult
    have hall := loadsTo_of_foldlM
      (fun file hfile => isFile_of_mem_visitedFiles (hbelow ▸ hfile)) hreads
    exact ⟨hall, fun key =>
      (hashesOf_foldlM_iff hroot hlists hall hreads key).symm.trans (hmap key)⟩
  · rintro ⟨hall, hmap⟩
    obtain ⟨ctx, added, hreads, _⟩ := foldlM_netdbReadFile_built built_startCtx hall
    refine ⟨ctx.loaded, ctx, ?_, fun key =>
      (hashesOf_foldlM_iff hroot hlists hall hreads key).trans (hmap key)⟩
    rw [hreads]
    rfl

end Load

/-! ## One after the other -/

/-- Whatever the order of the listings, loading into an empty netdb yields the
same hashes as the map has. -/
def LoadsSame (code : RouterInfoCode Ri) (root : CString) (map : NetdbHashmap Ri) (tree : Tree) :
    Prop :=
  ∀ readdir, tree.Lists readdir →
    ∃ count ctx, mnetNetdbLoadAll code tree readdir (mnetNetdbNew root) = .ok (count, ctx) ∧
      ∀ key, key ∈ hashesOf ctx.db.map ↔ key ∈ hashesOf map

/-- From before the flush there is this file, which is not that of an entry that
an iteration visits. -/
structure LeftoverAt (code : RouterInfoCode Ri) (root : CString) (ris : List Ri) (tree : Tree)
    (dirName name : CString) (bytes : List Byte) : Prop where
  stands : FileAt root tree dirName name bytes
  other : ∀ ri ∈ ris, netdbHashmapHashIdent (code.hashOf ri) ≠ 0 →
    slash (slash root dirName) name ≠ pathOf root (code.hashOf ri)

/-- A leftover file loads a router info with this hash. -/
def Leftover (code : RouterInfoCode Ri) (root : CString) (ris : List Ri) (tree : Tree)
    (key : IdentHash) : Prop :=
  ∃ dirName name bytes ri, LeftoverAt code root ris tree dirName name bytes ∧
    loadedFrom code bytes = .ok (some ri) ∧ code.hashOf ri = key

section FlushLoad

variable {ris : List Ri} {map : NetdbHashmap Ri} {tree' : Tree}

theorem exists_lists (tree : Tree) : ∃ readdir, tree.Lists readdir :=
  ⟨fun path => dot :: dotDot :: tree.names path, fun _ => .refl _⟩

theorem loadsSame_iff_loadsKey (hroot : tree'.lookup root = some .dir)
    (hshort : Untruncated root tree') :
    LoadsSame code root map tree' ↔
      (∀ dirName name bytes, FileAt root tree' dirName name bytes →
        ∃ loaded, loadedFrom code bytes = .ok loaded) ∧
      ∀ key, LoadsKey code root tree' key ↔ key ∈ hashesOf map := by
  constructor
  · intro hloads
    obtain ⟨readdir, hlists⟩ := exists_lists tree'
    exact (load_keys_iff hroot hlists hshort _).mp (hloads readdir hlists)
  · intro hloads readdir hlists
    exact (load_keys_iff hroot hlists hshort _).mpr hloads

/-- What an entry is written as is loaded with its hash. -/
theorem loadedFrom_written (hlossless : code.Lossless) {ri : Ri} {h : IdentHash} {ret : ℤ}
    {bytes : List Byte} (hhash : code.hash ri = .ok h) (hwrite : code.write ri = .ok (ret, bytes)) :
    ∃ ri', loadedFrom code bytes = .ok (some ri') ∧ code.hashOf ri' = h := by
  obtain ⟨bytes', hwrite', loaded, ri', hload, hret, hhash'⟩ := hlossless ri h hhash
  obtain ⟨_, rfl⟩ := ok_pair_inj (hwrite.symm.trans hwrite')
  refine ⟨ri', ?_, hashOf_eq hhash'⟩
  rw [loadedFrom, hload, ok_bind]
  dsimp only
  rw [if_pos hret, hhash']
  rfl

/-- An iteration visits the hashes of what was inserted outside of the bucket
0. -/
theorem exists_visitedNode_iff (hbuilt : Built code.hashOf ris map) (ident : IdentHash) :
    (∃ node ∈ visitedNodes map, node.h = ident) ↔
      ∃ ri ∈ ris, netdbHashmapHashIdent (code.hashOf ri) ≠ 0 ∧ code.hashOf ri = ident := by
  have hstored := @Built.mem_hashesOf_iff Ri code.hashOf ris map hbuilt ident
  rw [hashesOf, List.mem_map] at hstored
  constructor
  · rintro ⟨node, hnode, rfl⟩
    obtain ⟨hmem, hbucket⟩ := mem_visitedNodes.mp hnode
    obtain ⟨ri, hri, hh⟩ := hstored.mp ⟨node, hmem, rfl⟩
    exact ⟨ri, hri, hh ▸ hbucket, hh⟩
  · rintro ⟨ri, hri, hbucket, hh⟩
    obtain ⟨node, hmem, hnode⟩ := hstored.mpr ⟨ri, hri, hh⟩
    exact ⟨node, mem_visitedNodes.mpr ⟨hmem, hnode ▸ hh ▸ hbucket⟩, hnode⟩

/-- What a flush leaves: the directory and the file of each node that it visits,
which is loaded with the hash of the node, and elsewhere what was there. -/
structure Flushed (code : RouterInfoCode Ri) (root : CString) (map : NetdbHashmap Ri)
    (tree tree' : Tree) : Prop where
  frame : ∀ path, (∀ node ∈ visitedNodes map, path ≠ pathOf root node.h) →
    tree'.lookup path = tree.lookup path
  dirs : ∀ node ∈ visitedNodes map, tree.lookup (slash root (skipName node.h)) = some .dir
  files : ∀ node ∈ visitedNodes map, ∃ bytes ri,
    tree'.lookup (pathOf root node.h) = some (.file bytes) ∧
      loadedFrom code bytes = .ok (some ri) ∧ code.hashOf ri = node.h

theorem flushed_of_flush (hlossless : code.Lossless) (hroot : root.bytes ≠ [])
    (hshort : strlen root + 58 < 256) (hcalls : insertRun code ris = .ok map)
    (hflush : mnetNetdbFlushToDisk code.write { map := map, rootdir := root } tree =
      .ok (1, tree')) : Flushed code root map tree tree' := by
  obtain ⟨hbuilt, hhashes⟩ := built_of_insertRun hcalls
  obtain ⟨ctx, hrun, hend⟩ := bind_eq_ok.mp hflush
  obtain ⟨hresult, rfl⟩ := ok_pair_inj hend
  rw [netdbHashmapForEach_eq hbuilt.inv] at hrun
  obtain ⟨hframe, hwritten⟩ := writeEntries_eq_ok hroot hshort hrun (by omega)
  refine ⟨hframe, fun node hnode => (hwritten node hnode).1, fun node hnode => ?_⟩
  obtain ⟨_, last, hlast, hlastHash, ret, bytes, hwrite, hlookup⟩ := hwritten node hnode
  have hmem := (mem_visitedNodes.mp hlast).1
  have hstored := (mem_stored_iff hbuilt last.ri).mp (List.mem_map_of_mem hmem)
  obtain ⟨h, hhash⟩ := hhashes last.ri (List.mem_of_find?_eq_some hstored)
  obtain ⟨ri, hloaded, hh⟩ := loadedFrom_written hlossless hhash hwrite
  refine ⟨bytes, ri, hlookup, hloaded, ?_⟩
  rw [hh, ← hlastHash, hbuilt.inv.stored last hmem, hashOf_eq hhash]

theorem Flushed.lookup_dir (hflushed : Flushed code root map tree tree') {dirName : CString}
    (hdirName : IsName dirName) :
    tree'.lookup (slash root dirName) = tree.lookup (slash root dirName) :=
  hflushed.frame _ fun node _ => slash_ne_pathOf hdirName node.h

/-- What is found after a flush: for each entry that was visited a file that
loads its hash, and each file that is left from before. -/
theorem fileAt_flushed_iff (hlossless : code.Lossless) (hroot : root.bytes ≠ [])
    (hshort : strlen root + 58 < 256) (hcalls : insertRun code ris = .ok map)
    (hflush : mnetNetdbFlushToDisk code.write { map := map, rootdir := root } tree =
      .ok (1, tree')) :
    (∀ ri ∈ ris, netdbHashmapHashIdent (code.hashOf ri) ≠ 0 →
      LoadsKey code root tree' (code.hashOf ri)) ∧
    (∀ dirName name bytes, LeftoverAt code root ris tree dirName name bytes →
      FileAt root tree' dirName name bytes) ∧
    ∀ dirName name bytes, FileAt root tree' dirName name bytes →
      LeftoverAt code root ris tree dirName name bytes ∨
        ∃ ri ∈ ris, netdbHashmapHashIdent (code.hashOf ri) ≠ 0 ∧
          ∃ ri', loadedFrom code bytes = .ok (some ri') ∧ code.hashOf ri' = code.hashOf ri := by
  have hflushed := flushed_of_flush hlossless hroot hshort hcalls hflush
  have hvisited := exists_visitedNode_iff (built_of_insertRun hcalls).1
  refine ⟨fun ri hri hbucket => ?_, ?_, ?_⟩
  · obtain ⟨node, hnode, hident⟩ := (hvisited _).mpr ⟨ri, hri, hbucket, rfl⟩
    obtain ⟨bytes, ri', hlookup, hfile, hh⟩ := hflushed.files node hnode
    refine ⟨skipName node.h, fileName node.h, bytes, ri', ⟨isName_fileName _, isName_skipName _,
      ?_, hlookup⟩, hfile, hh.trans hident⟩
    exact (hflushed.lookup_dir (isName_skipName _)).trans (hflushed.dirs node hnode)
  · rintro dirName name bytes ⟨⟨hname, hdirName, hdir, hlookup⟩, hother⟩
    refine ⟨hname, hdirName, (hflushed.lookup_dir hdirName).trans hdir, ?_⟩
    refine (hflushed.frame _ fun node hnode => ?_).trans hlookup
    obtain ⟨ri, hri, hbucket, hident⟩ := (hvisited _).mp ⟨node, hnode, rfl⟩
    exact hident ▸ hother ri hri hbucket
  · rintro dirName name bytes ⟨hname, hdirName, hdir, hlookup⟩
    by_cases hown : ∃ node ∈ visitedNodes map,
        slash (slash root dirName) name = pathOf root node.h
    · -- the file of an entry holds what was written for it
      obtain ⟨node, hnode, hpath⟩ := hown
      obtain ⟨bytes', ri', hlookup', hfile, hh⟩ := hflushed.files node hnode
      rw [hpath, hlookup'] at hlookup
      obtain rfl := Entry.file.inj (Option.some.inj hlookup)
      obtain ⟨ri, hri, hbucket, hident⟩ := (hvisited _).mp ⟨node, hnode, rfl⟩
      exact Or.inr ⟨ri, hri, hbucket, ri', hfile, hh.trans hident.symm⟩
    · have hunchanged := hflushed.frame (slash (slash root dirName) name) fun node hnode heq =>
        hown ⟨node, hnode, heq⟩
      refine Or.inl ⟨⟨hname, hdirName, (hflushed.lookup_dir hdirName).symm.trans hdir,
        hunchanged.symm.trans hlookup⟩, fun ri hri hbucket heq => ?_⟩
      obtain ⟨node, hnode, hident⟩ := (hvisited _).mpr ⟨ri, hri, hbucket, rfl⟩
      exact hown ⟨node, hnode, hident ▸ heq⟩

/-- A flush that returns 1 is loaded again with the same hashes exactly where
each file that is left from before is loaded with a hash, or else released, and
the hashes in the bucket 0 are among those of these files, which have no others
than the map. -/
theorem loadsSame_iff (hlossless : code.Lossless) (hcalls : insertRun code ris = .ok map)
    (hflush : mnetNetdbFlushToDisk code.write { map := map, rootdir := root } tree =
      .ok (1, tree'))
    (hroot : tree'.lookup root = some .dir) (hshort : Untruncated root tree') :
    LoadsSame code root map tree' ↔
      (∀ dirName name bytes, LeftoverAt code root ris tree dirName name bytes →
        ∃ loaded, loadedFrom code bytes = .ok loaded) ∧
      (∀ ri ∈ ris, netdbHashmapHashIdent (code.hashOf ri) = 0 →
        Leftover code root ris tree (code.hashOf ri)) ∧
      ∀ key, Leftover code root ris tree key → ∃ ri ∈ ris, code.hashOf ri = key := by
  have hbuilt := (built_of_insertRun hcalls).1
  obtain ⟨hwritten, hleft, hfiles⟩ := fileAt_flushed_iff hlossless (Tree.ne_nil_of_lookup hroot)
    hshort.entries hcalls hflush
  have hleftover : ∀ key, Leftover code root ris tree key → LoadsKey code root tree' key := by
    rintro key ⟨dirName, name, bytes, ri, hat, hfile, hh⟩
    exact ⟨dirName, name, bytes, ri, hleft _ _ _ hat, hfile, hh⟩
  have hkeys : ∀ key, LoadsKey code root tree' key → Leftover code root ris tree key ∨
      ∃ ri ∈ ris, netdbHashmapHashIdent (code.hashOf ri) ≠ 0 ∧ code.hashOf ri = key := by
    rintro key ⟨dirName, name, bytes, ri, hat, hfile, hh⟩
    rcases hfiles _ _ _ hat with hat | ⟨ri', hri', hbucket, other, hother, hhash⟩
    · exact Or.inl ⟨dirName, name, bytes, ri, hat, hfile, hh⟩
    · obtain rfl := Option.some.inj (Except.ok.inj (hother.symm.trans hfile))
      exact Or.inr ⟨ri', hri', hbucket, hhash.symm.trans hh⟩
  rw [loadsSame_iff_loadsKey hroot hshort]
  simp only [hbuilt.mem_hashesOf_iff]
  constructor
  · rintro ⟨hreads, hsame⟩
    refine ⟨fun dirName name bytes hat => hreads _ _ _ (hleft _ _ _ hat), fun ri hri hbucket => ?_,
      fun key hkey => (hsame key).mp (hleftover key hkey)⟩
    rcases hkeys _ ((hsame _).mpr ⟨ri, hri, rfl⟩) with hkey | ⟨ri', _, hbucket', hh⟩
    · exact hkey
    · exact absurd (hh ▸ hbucket) hbucket'
  · rintro ⟨hreads, hlost, hextra⟩
    refine ⟨fun dirName name bytes hat => ?_, fun key => ⟨fun hkey => ?_, ?_⟩⟩
    · rcases hfiles _ _ _ hat with hat | ⟨_, _, _, other, hother, _⟩
      · exact hreads _ _ _ hat
      · exact ⟨_, hother⟩
    · rcases hkeys key hkey with hkey | ⟨ri, hri, _, hh⟩
      · exact hextra key hkey
      · exact ⟨ri, hri, hh⟩
    · rintro ⟨ri, hri, rfl⟩
      by_cases hbucket : netdbHashmapHashIdent (code.hashOf ri) = 0
      · exact hleftover _ (hlost ri hri hbucket)
      · exact hwritten ri hri hbucket

end FlushLoad

/-! ## Small netdbs -/

/-- Router infos that are nothing but their hash.  What is rejected cannot be
released. -/
def identCode : RouterInfoCode IdentHash where
  hash := fun ident => .ok ident
  write := fun ident => .ok (1, ident.toList)
  load := fun bytes =>
    if hlength : bytes.length = 32 then .ok (1, ⟨bytes, hlength⟩) else .ok (0, .replicate 32 0)
  free := fun _ => .error .nullDeref

theorem identCode_lossless : identCode.Lossless := by
  rintro ident h hhash
  obtain rfl := Except.ok.inj hhash
  exact ⟨ident.toList, rfl, 1, ident, dif_pos ident.toList_length, one_ne_zero, rfl⟩

theorem exists_insertRun_identCode (idents : List IdentHash) :
    ∃ map, insertRun identCode idents = .ok map :=
  exists_insertRun fun ident _ => ⟨ident, rfl⟩

def zeros : IdentHash := .replicate 32 0

theorem hashIdent_zeros : netdbHashmapHashIdent zeros = 0 := by decide

def nodesDir : CString := ofBuffer [ch 'n']

theorem nodesDir_ne_nil : ∀ path ∈ [nodesDir], path.bytes ≠ [] := by
  intro path hpath
  rw [List.mem_singleton.mp hpath]
  decide

/-- An empty root. -/
def nodesTree : Tree where
  entries := [(nodesDir, .dir)]
  distinct := List.nodup_singleton _
  named := nodesDir_ne_nil

theorem lookup_nodesTree_iff {path : CString} {entry : Entry} :
    nodesTree.lookup path = some entry ↔ path = nodesDir ∧ entry = .dir := by
  rw [Tree.lookup_eq_some_iff]
  change _ ∈ [(nodesDir, Entry.dir)] ↔ _
  rw [List.mem_singleton, Prod.mk.injEq]

/-- There is nothing below the root. -/
theorem lookup_nodesTree_slash (path name : CString) (entry : Entry) :
    nodesTree.lookup (slash path name) ≠ some entry ∨ path.bytes = [] := by
  by_cases hpath : path.bytes = []
  · exact Or.inr hpath
  · refine Or.inl fun hlookup => hpath ?_
    have hlength := congrArg strlen (lookup_nodesTree_iff.mp hlookup).1
    rw [strlen_slash, show strlen nodesDir = 1 by decide] at hlength
    exact List.length_eq_zero_iff.mp (show strlen path = 0 by omega)

theorem untruncated_nodesTree : Untruncated nodesDir nodesTree where
  entries := by decide
  dirs := fun name entry hlookup => absurd hlookup
    ((lookup_nodesTree_slash nodesDir name entry).resolve_right (by decide))
  files := fun name other entry hlookup => absurd hlookup
    ((lookup_nodesTree_slash _ other entry).resolve_right (slash_ne_nil _ _))

/-- Of a map that holds the hash of zeros alone nothing is written. -/
theorem flush_zeros {map : NetdbHashmap IdentHash}
    (hcalls : insertRun identCode [zeros] = .ok map) :
    mnetNetdbFlushToDisk identCode.write { map := map, rootdir := nodesDir } nodesTree =
      .ok (1, nodesTree) := by
  have hbuilt := (built_of_insertRun hcalls).1
  have hnone : visitedNodes map = [] := by
    refine List.eq_nil_iff_forall_not_mem.mpr fun node hnode => ?_
    obtain ⟨hmem, hbucket⟩ := mem_visitedNodes.mp hnode
    obtain ⟨ri, hri, hh⟩ := hbuilt.mem_hashesOf_iff.mp (List.mem_map_of_mem hmem)
    obtain rfl := List.mem_singleton.mp hri
    exact hbucket (hh ▸ hashIdent_zeros)
  rw [mnetNetdbFlushToDisk, netdbHashmapForEach_eq hbuilt.inv, hnone]
  rfl

/-- The flush of a map that holds the hash of zeros alone returns 1, and nothing
is loaded behind it. -/
theorem not_loadsSame_zeros :
    ∃ map, identCode.Lossless ∧ insertRun identCode [zeros] = .ok map ∧
      mnetNetdbFlushToDisk identCode.write { map := map, rootdir := nodesDir } nodesTree =
        .ok (1, nodesTree) ∧
      nodesTree.lookup nodesDir = some .dir ∧ Untruncated nodesDir nodesTree ∧
      ¬ LoadsSame identCode nodesDir map nodesTree := by
  obtain ⟨map, hcalls⟩ := exists_insertRun_identCode [zeros]
  have hroot : nodesTree.lookup nodesDir = some .dir := lookup_nodesTree_iff.mpr ⟨rfl, rfl⟩
  refine ⟨map, identCode_lossless, hcalls, flush_zeros hcalls, hroot, untruncated_nodesTree,
    fun hloads => ?_⟩
  have hkeys := ((loadsSame_iff_loadsKey hroot untruncated_nodesTree).mp hloads).2 zeros
  obtain ⟨dirName, name, _, _, hat, _⟩ := hkeys.mpr
    ((built_of_insertRun hcalls).1.mem_hashesOf_iff.mpr ⟨_, List.mem_singleton_self _, rfl⟩)
  exact (lookup_nodesTree_slash nodesDir dirName .dir).resolve_right (by decide) hat.dir

/-! ### An entry of another bucket -/

def ones : IdentHash := .replicate 32 1

/-- The directory of the entry, in an otherwise empty root. -/
def onesTree : Tree where
  entries := [(nodesDir, .dir), (slash nodesDir (skipName ones), .dir)]
  distinct := by decide
  named := by decide

/-- The tree with the file of the entry. -/
def writtenTree : Tree :=
  (onesTree.put (pathOf nodesDir ones) []).put (pathOf nodesDir ones) ones.toList

theorem lookup_writtenTree {path : CString} (hne : path ≠ pathOf nodesDir ones) :
    writtenTree.lookup path = onesTree.lookup path :=
  (Tree.lookup_put_of_ne _ hne).trans (Tree.lookup_put_of_ne _ hne)

theorem strlen_of_lookup_writtenTree {path : CString} {entry : Entry}
    (hlookup : writtenTree.lookup path = some entry) : strlen path < 256 := by
  by_cases hpath : path = pathOf nodesDir ones
  · rw [hpath, strlen_pathOf]
    decide
  · rw [lookup_writtenTree hpath, Tree.lookup_eq_some_iff] at hlookup
    have hshort : ∀ entry ∈ onesTree.entries, strlen entry.1 < 256 := by decide
    exact hshort _ hlookup

theorem untruncated_writtenTree : Untruncated nodesDir writtenTree where
  entries := by decide
  dirs := fun _ _ => strlen_of_lookup_writtenTree
  files := fun _ _ _ => strlen_of_lookup_writtenTree

theorem visitedNodes_ones {map : NetdbHashmap IdentHash}
    (hbuilt : Built identCode.hashOf [ones] map) :
    ∃ node, visitedNodes map = [node] ∧ node.h = ones ∧ node.ri = ones := by
  have hhashes : hashesOf map = [ones] := by
    refine List.perm_singleton.mp ((List.perm_ext_iff_of_nodup hbuilt.inv.distinct
      (List.nodup_singleton ones)).mpr fun key => ?_)
    rw [hbuilt.mem_hashesOf_iff, List.mem_singleton]
    exact ⟨fun ⟨ri, hri, hh⟩ => hh.symm.trans (List.mem_singleton.mp hri),
      fun hkey => ⟨ones, List.mem_singleton_self _, hkey.symm⟩⟩
  obtain ⟨node, hnodes, hh⟩ := List.map_eq_singleton_iff.mp hhashes
  have hvisited := visitedNodes_perm map
  rw [hnodes, List.filter_cons_of_pos (by rw [hh]; decide), List.filter_nil] at hvisited
  have hri := (mem_stored_iff hbuilt node.ri).mp (List.mem_map_of_mem (by simp [hnodes]))
  exact ⟨node, List.perm_singleton.mp hvisited, hh,
    List.mem_singleton.mp (List.mem_of_find?_eq_some hri)⟩

theorem flush_ones {map : NetdbHashmap IdentHash} (hcalls : insertRun identCode [ones] = .ok map) :
    mnetNetdbFlushToDisk identCode.write { map := map, rootdir := nodesDir } onesTree =
      .ok (1, writtenTree) := by
  have hbuilt := (built_of_insertRun hcalls).1
  obtain ⟨node, hnodes, hh, hri⟩ := visitedNodes_ones hbuilt
  have hcreate : onesTree.canCreate (pathOf nodesDir ones) = true := by decide
  have hopen : netdbOpenFile onesTree { map := map, rootdir := nodesDir } ones =
      .ok (some (pathOf nodesDir ones, onesTree.put (pathOf nodesDir ones) [])) := by
    have hroot : nodesDir.bytes ≠ [] := by decide
    have hshort : strlen nodesDir + 58 < 256 := by decide
    rw [netdbOpenFile_eq hroot hshort, Tree.fopenWrite, if_pos hcreate]
    rfl
  rw [mnetNetdbFlushToDisk, netdbHashmapForEach_eq hbuilt.inv, hnodes, List.foldlM_cons, visitNode,
    hh, hri, netdbWriteEntry, if_pos one_ne_zero, hopen]
  rfl

theorem loadsSame_iff_ones :
    ∃ map, insertRun identCode [ones] = .ok map ∧
      mnetNetdbFlushToDisk identCode.write { map := map, rootdir := nodesDir } onesTree =
        .ok (1, writtenTree) ∧
      (LoadsSame identCode nodesDir map writtenTree ↔
        (∀ dirName name bytes,
          LeftoverAt identCode nodesDir [ones] onesTree dirName name bytes →
            ∃ loaded, loadedFrom identCode bytes = .ok loaded) ∧
        (∀ ri ∈ [ones], netdbHashmapHashIdent (identCode.hashOf ri) = 0 →
          Leftover identCode nodesDir [ones] onesTree (identCode.hashOf ri)) ∧
        ∀ key, Leftover identCode nodesDir [ones] onesTree key →
          ∃ ri ∈ [ones], identCode.hashOf ri = key) := by
  obtain ⟨map, hcalls⟩ := exists_insertRun_identCode [ones]
  have hne : nodesDir ≠ pathOf nodesDir ones := by decide
  have hroot : writtenTree.lookup nodesDir = some .dir := by
    rw [lookup_writtenTree hne]
    decide
  exact ⟨map, hcalls, flush_ones hcalls, loadsSame_iff identCode_lossless hcalls
    (flush_ones hcalls) hroot untruncated_writtenTree⟩

end I2pLite.FlushLoad
