import I2pLite.Core.Directories
import I2pLite.Netdb.EntryPaths
import I2pLite.Netdb.FlushStreams

/-!
# Making the directories of the netdb

`mnet_netdb_ensure_skiplist` on a tree, where what is made by one turn of the
loop is there for the next one.  The calls whose answers are given beforehand
are those of the tree at the start.
-/

namespace I2pLite.SkiplistTree

open I2pLite.CRun
open I2pLite.CBytes
open I2pLite.FileSystem
open I2pLite.Directories
open I2pLite.Base64
open I2pLite.Ri (RouterInfo)
open I2pLite.Hashmap
open I2pLite.FirstWins (insertCalls exists_built)
open I2pLite.Netdb
open I2pLite.Files
open I2pLite.VisitedFiles
open I2pLite.Skiplist (OpenedDir DirectoryCalls)
open I2pLite.EntryPaths (subdirOf strlen_subdirOf)
open I2pLite.FlushStreams (NoFiles Loads firstBelow firstBelow_eq_none flushed_loads_iff
  exists_name_of_mem_visited)

section Code

variable {Ri : Type} (denied : CString → Bool)

/-- `opendir` below a directory: what is not there gives `ENOENT`, and a file in
its place another error. -/
def opendir (tree : Tree) (path : CString) : OpenedDir :=
  match tree.lookup path with
  | some .dir => .opened
  | some (.file _) => .refused
  | none => .missing

/-- The loop over the characters that are left. -/
def ensureSubdirs (root : CString) : List Byte → Tree → Run (ℤ × Tree)
  | [], tree => .ok (1, tree)
  | c :: chars, tree => do
      let path ← pathJoin root [ofBuffer [ch 'r', c]]
      match opendir tree path with
      | .missing =>
          match mkdir denied tree path with
          | some tree => ensureSubdirs root chars tree
          | none => .ok (0, tree)
      | _ => ensureSubdirs root chars tree

def mnetNetdbEnsureSkiplist (db : MnetNetdb Ri) (tree : Tree) : Run (ℤ × Tree) :=
  if tree.isDir db.rootdir then ensureSubdirs denied db.rootdir mnetBase64Chars tree
  else
    match mkdir denied tree db.rootdir with
    | some tree => ensureSubdirs denied db.rootdir mnetBase64Chars tree
    | none => .ok (0, tree)

end Code

/-! ## The loop -/

section Loop

variable {denied : CString → Bool} {root : CString} {tree : Tree}

/-- What `ret` says of the directories. -/
def retOf (result : Bool × Tree) : ℤ × Tree := (if result.1 then 1 else 0, result.2)

/-- The path of a directory, cut to the size of a file name. -/
def subdirPath (root : CString) (c : Byte) : CString := joinedPath root (ofBuffer [ch 'r', c])

/-- The loop ensures its directories one after the other. -/
theorem ensureSubdirs_eq (hroot : root.bytes ≠ []) (hfits : strlen root ≤ 256)
    (chars : List Byte) (tree : Tree) :
    ensureSubdirs denied root chars tree =
      .ok (retOf (ensureAll denied (chars.map (subdirPath root)) tree)) := by
  induction chars generalizing tree with
  | nil => rfl
  | cons c chars ih =>
      rw [ensureSubdirs, pathJoin_cut hroot hfits, ok_bind, List.map_cons, ← subdirPath, opendir]
      cases hlookup : tree.lookup (subdirPath root c) with
      | some entry =>
          rw [ensureAll_cons_there (by rw [hlookup]; rfl), ← ih]
          cases entry <;> rfl
      | none =>
          dsimp only
          cases hmkdir : mkdir denied tree (subdirPath root c) with
          | none =>
              rw [ensureAll_cons_failed hlookup hmkdir]
              rfl
          | some tree' =>
              rw [ensureAll_cons_made hmkdir, ← ih]

theorem ensureSubdirs_overlong (hlong : 256 < strlen root) (tree : Tree) :
    ensureSubdirs denied root mnetBase64Chars tree = .error .outOfBounds := by
  have hchars : mnetBase64Chars = ch 'A' :: mnetBase64Chars.tail := by decide
  rw [hchars, ensureSubdirs, pathJoin_overlong hlong, error_bind]

/-- Once more from where the loop has come to. -/
theorem ensureSubdirs_again (hroot : root.bytes ≠ []) (tree : Tree) :
    (ensureSubdirs denied root mnetBase64Chars tree >>= fun result =>
      ensureSubdirs denied root mnetBase64Chars result.2) =
      ensureSubdirs denied root mnetBase64Chars tree := by
  by_cases hfits : strlen root ≤ 256
  · rw [ensureSubdirs_eq hroot hfits, ok_bind, ensureSubdirs_eq hroot hfits]
    change Except.ok (retOf (ensureAll _ _ (ensureAll _ _ tree).2)) = _
    rw [ensureAll_again]
  · rw [ensureSubdirs_overlong (by omega), error_bind]

end Loop

/-! ## The root -/

section Root

variable {Ri : Type} {denied : CString → Bool} {root : CString} {tree tree' : Tree}

/-- The tree with the root, if it is a directory or can be made one. -/
def openRoot (denied : CString → Bool) (root : CString) (tree : Tree) : Option Tree :=
  if tree.isDir root then some tree else mkdir denied tree root

theorem mnetNetdbEnsureSkiplist_eq (db : MnetNetdb Ri) (tree : Tree) :
    mnetNetdbEnsureSkiplist denied db tree =
      match openRoot denied db.rootdir tree with
      | some tree => ensureSubdirs denied db.rootdir mnetBase64Chars tree
      | none => .ok (0, tree) := by
  rw [mnetNetdbEnsureSkiplist, openRoot]
  split_ifs <;> rfl

theorem lookup_openRoot (hopen : openRoot denied root tree = some tree') (other : CString) :
    tree'.lookup other =
      if tree.lookup other = none ∧ other = root then some .dir else tree.lookup other := by
  rw [openRoot] at hopen
  split_ifs at hopen with hdir
  · obtain rfl := Option.some.inj hopen
    by_cases heq : other = root
    · simp [heq, Tree.isDir_iff.mp hdir]
    · simp [heq]
  · have hnone := (canMake_iff.mp (mkdir_eq_some_iff.mp hopen).1).1
    rw [lookup_mkdir hopen]
    by_cases heq : other = root
    · simp [heq, hnone]
    · simp [heq]

theorem lookup_root_openRoot (hopen : openRoot denied root tree = some tree') :
    tree'.lookup root = some .dir := by
  rw [openRoot] at hopen
  split_ifs at hopen with hdir
  · obtain rfl := Option.some.inj hopen
    exact Tree.isDir_iff.mp hdir
  · rw [lookup_mkdir hopen, if_pos rfl]

theorem openRoot_of_dir (hroot : tree.lookup root = some .dir) :
    openRoot denied root tree = some tree := by
  rw [openRoot, if_pos (Tree.isDir_iff.mpr hroot)]

/-- What could be had before the root was made can be had now, and nothing
else. -/
theorem obtainable_openRoot (hopen : openRoot denied root tree = some tree') :
    obtainable denied tree' = obtainable denied tree := by
  rw [openRoot] at hopen
  split_ifs at hopen with hdir
  · rw [Option.some.inj hopen]
  · obtain ⟨_, rfl⟩ := mkdir_eq_some_iff.mp hopen
    exact obtainable_addDir hopen

/-- A second call changes nothing and returns what the first one did. -/
theorem mnetNetdbEnsureSkiplist_again (db : MnetNetdb Ri) (tree : Tree) :
    (mnetNetdbEnsureSkiplist denied db tree >>= fun result =>
      mnetNetdbEnsureSkiplist denied db result.2) = mnetNetdbEnsureSkiplist denied db tree := by
  rw [mnetNetdbEnsureSkiplist_eq db tree]
  cases hopen : openRoot denied db.rootdir tree with
  | none =>
      rw [ok_bind, mnetNetdbEnsureSkiplist_eq, hopen]
  | some opened =>
      have hroot := lookup_root_openRoot hopen
      have hne := Tree.ne_nil_of_lookup hroot
      calc (ensureSubdirs denied db.rootdir mnetBase64Chars opened >>= fun result =>
            mnetNetdbEnsureSkiplist denied db result.2)
          = ensureSubdirs denied db.rootdir mnetBase64Chars opened >>= fun result =>
              ensureSubdirs denied db.rootdir mnetBase64Chars result.2 := by
            by_cases hfits : strlen db.rootdir ≤ 256
            · rw [ensureSubdirs_eq hne hfits, ok_bind, ok_bind, mnetNetdbEnsureSkiplist_eq,
                openRoot_of_dir (show (retOf _).2.lookup _ = _ from
                  lookup_ensureAll_of_some hroot)]
            · rw [ensureSubdirs_overlong (by omega), error_bind, error_bind]
        _ = ensureSubdirs denied db.rootdir mnetBase64Chars opened :=
            ensureSubdirs_again hne opened

end Root

/-! ## What is made -/

section Made

variable {Ri : Type} {denied : CString → Bool} {root : CString} {tree tree' : Tree}

/-- The directories below the root. -/
def subdirs (root : CString) : List CString := mnetBase64Chars.map (subdirOf root)

theorem subdirPath_eq (hshort : strlen root + 3 < 256) (c : Byte) :
    subdirPath root c = subdirOf root c :=
  joinedPath_eq (Nat.lt_of_le_of_lt (strlen_subdirOf c) hshort)

theorem slash_notMem_subdirName {c : Byte} (hc : c ∈ mnetBase64Chars) :
    ch '/' ∉ (ofBuffer [ch 'r', c]).bytes := by
  have hclean : (mnetBase64Chars.all fun c => ch '/' ∉ (ofBuffer [ch 'r', c]).bytes) = true := by
    decide
  simpa using List.all_eq_true.mp hclean c hc

theorem parentThere_subdir (hroot : tree.lookup root = some .dir) :
    ∀ path ∈ subdirs root, path.bytes ≠ [] ∧ parentThere tree path = true := by
  intro path hpath
  obtain ⟨c, hc, rfl⟩ := List.mem_map.mp hpath
  refine ⟨slash_ne_nil _ _, ?_⟩
  rw [parentThere, subdirOf, parentOf_slash (slash_notMem_subdirName hc)]
  simp [Tree.isDir_iff, hroot]

/-- The paths at which a directory is there or made when the call returns: up to
the first one that can not be had, or none where the root can not. -/
def reached (denied : CString → Bool) (root : CString) (tree : Tree) : List CString :=
  match openRoot denied root tree with
  | some _ => root :: (subdirs root).takeWhile (obtainable denied tree)
  | none => []

theorem mnetNetdbEnsureSkiplist_opened {db : MnetNetdb Ri} {opened : Tree}
    (hshort : strlen db.rootdir + 3 < 256)
    (hopen : openRoot denied db.rootdir tree = some opened) :
    mnetNetdbEnsureSkiplist denied db tree =
      .ok (retOf (ensureAll denied (subdirs db.rootdir) opened)) := by
  have hpaths : mnetBase64Chars.map (subdirPath db.rootdir) = subdirs db.rootdir :=
    List.map_congr_left fun c _ => subdirPath_eq hshort c
  have hne := Tree.ne_nil_of_lookup (lookup_root_openRoot hopen)
  rw [mnetNetdbEnsureSkiplist_eq, hopen, ← hpaths]
  exact ensureSubdirs_eq hne (by omega) mnetBase64Chars opened

/-- What the directories below an open root are, in terms of the tree before. -/
theorem ensureAll_opened {opened : Tree} (hopen : openRoot denied root tree = some opened) :
    (ensureAll denied (subdirs root) opened).1 = (subdirs root).all (obtainable denied tree) ∧
      ∀ path, (ensureAll denied (subdirs root) opened).2.lookup path =
        if tree.lookup path = none ∧ path ∈ reached denied root tree then some .dir
        else tree.lookup path := by
  obtain ⟨hfirst, hlookup⟩ :=
    @ensureAll_eq denied _ _ (parentThere_subdir (lookup_root_openRoot hopen))
  rw [obtainable_openRoot hopen] at hfirst hlookup
  refine ⟨hfirst, fun path => ?_⟩
  rw [hlookup, lookup_openRoot hopen, reached, hopen]
  by_cases heq : path = root
  · by_cases hnone : tree.lookup root = none
    · simp [heq, hnone]
    · simp [heq, hnone]
  · simp [heq]

/-- 1 is returned where the root and all directories below it can be had.  What
was there before is left as it is, only directories are made, only those that
were asked for, and a second call has nothing to do. -/
theorem mnetNetdbEnsureSkiplist_made (denied : CString → Bool) (db : MnetNetdb Ri) (tree : Tree)
    (hshort : strlen db.rootdir + 3 < 256) :
    ∃ ret tree', mnetNetdbEnsureSkiplist denied db tree = .ok (ret, tree') ∧
      mnetNetdbEnsureSkiplist denied db tree' = .ok (ret, tree') ∧
      ret = (if (openRoot denied db.rootdir tree).isSome ∧
        ∀ path ∈ subdirs db.rootdir, obtainable denied tree path = true then 1 else 0) ∧
      ∀ path, tree'.lookup path =
        if tree.lookup path = none ∧ path ∈ reached denied db.rootdir tree then some .dir
        else tree.lookup path := by
  have hagain := @mnetNetdbEnsureSkiplist_again Ri denied db tree
  cases hopen : openRoot denied db.rootdir tree with
  | none =>
      have hrun : mnetNetdbEnsureSkiplist denied db tree = .ok (0, tree) := by
        rw [mnetNetdbEnsureSkiplist_eq, hopen]
      exact ⟨0, tree, hrun, hrun, by simp, by simp [reached, hopen]⟩
  | some opened =>
      have hrun := mnetNetdbEnsureSkiplist_opened hshort hopen
      obtain ⟨hfirst, hlookup⟩ := ensureAll_opened hopen
      rw [hrun, ok_bind] at hagain
      refine ⟨_, _, hrun, hagain, ?_, hlookup⟩
      rw [hfirst]
      simp

/-- Some empty root, and a system that denies nothing. -/
theorem mnetNetdbEnsureSkiplist_made_nodesTree :
    ∃ ret tree', mnetNetdbEnsureSkiplist (fun _ => false)
        (mnetNetdbNew FlushLoad.nodesDir : MnetNetdb IdentHash) FlushLoad.nodesTree =
          .ok (ret, tree') ∧
      mnetNetdbEnsureSkiplist (fun _ => false)
        (mnetNetdbNew FlushLoad.nodesDir : MnetNetdb IdentHash) tree' = .ok (ret, tree') ∧
      ret = (if (openRoot (fun _ => false) FlushLoad.nodesDir FlushLoad.nodesTree).isSome ∧
        ∀ path ∈ subdirs FlushLoad.nodesDir,
          obtainable (fun _ => false) FlushLoad.nodesTree path = true then 1 else 0) ∧
      ∀ path, tree'.lookup path =
        if FlushLoad.nodesTree.lookup path = none ∧
            path ∈ reached (fun _ => false) FlushLoad.nodesDir FlushLoad.nodesTree then some .dir
        else FlushLoad.nodesTree.lookup path :=
  mnetNetdbEnsureSkiplist_made (fun _ => false) (mnetNetdbNew FlushLoad.nodesDir)
    FlushLoad.nodesTree (by decide)

end Made

/-! ## The calls with answers given beforehand -/

section Calls

variable {Ri : Type} {denied : CString → Bool} {root : CString} {tree : Tree}

/-- What a tree answers before anything is made below the root. -/
def callsOf (denied : CString → Bool) (root : CString) (tree : Tree) : DirectoryCalls where
  opendir := opendir tree
  mkdir := fun path => if path = root then canMake denied tree root else !denied path

theorem subdirOf_ne (c : Byte) : subdirOf root c ≠ root := slash_ne_self root _

theorem ensureSubdir_callsOf (c : Byte) :
    Skiplist.ensureSubdir (callsOf denied root tree) (subdirOf root c) =
      obtainable denied tree (subdirOf root c) := by
  have hmissing : opendir tree (subdirOf root c) ≠ .missing ↔
      (tree.lookup (subdirOf root c)).isSome = true := by
    rw [opendir]
    cases tree.lookup (subdirOf root c) with
    | none => simp
    | some entry => cases entry <;> simp
  rw [Skiplist.ensureSubdir, obtainable]
  simp [callsOf, hmissing, subdirOf_ne]

theorem ensureRoot_callsOf :
    Skiplist.ensureRoot (callsOf denied root tree) root =
      (openRoot denied root tree).isSome := by
  have hopened : (opendir tree root = .opened) ↔ tree.isDir root = true := by
    rw [opendir, Tree.isDir_iff]
    cases tree.lookup root with
    | none => simp
    | some entry => cases entry <;> simp
  rw [Skiplist.ensureRoot, callsOf, openRoot, mkdir]
  simp only [hopened, if_true]
  cases tree.isDir root <;> cases canMake denied tree root <;> simp

/-- The call on a tree returns what the call with these answers does. -/
theorem mnetNetdbEnsureSkiplist_callsOf (db : MnetNetdb Ri)
    (hshort : strlen db.rootdir + 3 < 256) :
    Skiplist.mnetNetdbEnsureSkiplist (callsOf denied db.rootdir tree) db =
      mnetNetdbEnsureSkiplist denied db tree >>= fun result => .ok result.1 := by
  rw [Skiplist.mnetNetdbEnsureSkiplist, ensureRoot_callsOf]
  cases hopen : openRoot denied db.rootdir tree with
  | none =>
      rw [mnetNetdbEnsureSkiplist_eq, hopen]
      rfl
  | some opened =>
      have hne := Tree.ne_nil_of_lookup (lookup_root_openRoot hopen)
      rw [mnetNetdbEnsureSkiplist_opened hshort hopen, ok_bind, retOf,
        (ensureAll_opened hopen).1, Option.isSome_some, if_pos rfl,
        EntryPaths.ensureSubdirs_eq _ hne hshort, subdirs, List.all_map]
      simp only [ensureSubdir_callsOf]
      rfl

end Calls

/-! ## A root with nothing in it -/

section Empty

variable {Ri : Type} {denied : CString → Bool} {root : CString} {tree tree' : Tree}
variable {routerInfoHash : RouterInfo → IdentHash} {ris : List RouterInfo}

/-- The root can be had, and the directories below it can be made: nothing is
there yet. -/
structure EmptyRoot (denied : CString → Bool) (root : CString) (tree : Tree) : Prop where
  opens : (openRoot denied root tree).isSome
  below : ∀ name, tree.lookup (slash root name) = none
  granted : ∀ path ∈ subdirs root, denied path = false

theorem EmptyRoot.obtainable (hempty : EmptyRoot denied root tree) :
    ∀ path ∈ subdirs root, Directories.obtainable denied tree path = true := by
  intro path hpath
  rw [Directories.obtainable, hempty.granted path hpath, Bool.not_false, Bool.or_true]

/-- All directories are made, and they are all there is in the root. -/
theorem EmptyRoot.exists_made (hempty : EmptyRoot denied root tree)
    (hshort : strlen root + 3 < 256) :
    ∃ tree', (∀ db : MnetNetdb Ri, db.rootdir = root →
        mnetNetdbEnsureSkiplist denied db tree = .ok (1, tree')) ∧
      tree'.lookup root = some .dir ∧ (∀ path ∈ subdirs root, tree'.lookup path = some .dir) ∧
      ∀ name, slash root name ∉ subdirs root → tree'.lookup (slash root name) = none := by
  obtain ⟨opened, hopen⟩ := Option.isSome_iff_exists.mp hempty.opens
  obtain ⟨hfirst, hlookup⟩ := ensureAll_opened hopen
  have hreached : reached denied root tree = root :: subdirs root := by
    rw [reached, hopen]
    dsimp only
    rw [List.takeWhile_eq_self_iff.mpr hempty.obtainable]
  have hall : (subdirs root).all (Directories.obtainable denied tree) = true :=
    List.all_eq_true.mpr hempty.obtainable
  refine ⟨(ensureAll denied (subdirs root) opened).2, ?_, ?_, ?_, ?_⟩
  · rintro db rfl
    rw [mnetNetdbEnsureSkiplist_opened hshort hopen, retOf, hfirst, hall, if_pos rfl]
  · exact lookup_ensureAll_of_some (lookup_root_openRoot hopen)
  · intro path hpath
    obtain ⟨c, _, rfl⟩ := List.mem_map.mp hpath
    rw [hlookup, hreached, if_pos ⟨hempty.below _, List.mem_cons_of_mem _ hpath⟩]
  · intro name hname
    have hne := slash_ne_self root name
    rw [hlookup, hreached, if_neg (by simp [hname, hne]), hempty.below]

theorem slash_slash_notMem_subdirs (name below : CString) :
    slash root (slash name below) ∉ subdirs root := by
  intro hmem
  obtain ⟨c, hc, heq⟩ := List.mem_map.mp hmem
  have hname := slash_injective_right (heq : slash root _ = slash root _)
  have hslash := slash_notMem_subdirName hc
  rw [hname, slash_bytes] at hslash
  simp at hslash

/-- There is no file in the directories below the root. -/
theorem noFiles_made (hshort : strlen root + 3 < 256)
    (hnone : ∀ name, slash root name ∉ subdirs root → tree'.lookup (slash root name) = none) :
    NoFiles root tree' := by
  intro readdir hlists
  rw [visitedFiles]
  split_ifs
  · refine List.flatMap_eq_nil_iff.mpr fun dir hdir => visited_dots fun below hbelow => ?_
    obtain ⟨name, rfl, hsome⟩ := exists_name_of_mem_visited hlists hdir
    have hmem : slash root name ∈ subdirs root := by
      by_contra hnot
      rw [hnone name hnot] at hsome
      cases hsome
    obtain ⟨c, _, heq⟩ := List.mem_map.mp hmem
    have hlength : strlen (slash root name) < 256 :=
      heq ▸ Nat.lt_of_le_of_lt (strlen_subdirOf c) hshort
    rw [joinedPath_eq hlength] at hbelow
    by_contra hnot
    obtain ⟨hdot, hdotDot⟩ := not_or.mp hnot
    have hthere := ((hlists.mem_iff hdot hdotDot).mp hbelow).2
    rw [slash_assoc, hnone _ (slash_slash_notMem_subdirs name below)] at hthere
    cases hthere
  · rfl

/-- The file of every entry can be created. -/
theorem canCreate_made (hdirs : ∀ path ∈ subdirs root, tree'.lookup path = some .dir)
    (hnone : ∀ name, slash root name ∉ subdirs root → tree'.lookup (slash root name) = none)
    (ident : IdentHash) : tree'.canCreate (pathOf root ident) = true := by
  obtain ⟨c, hc, hparent⟩ := EntryPaths.exists_parentOf_pathOf root ident
  have hlookup : tree'.lookup (pathOf root ident) = none := by
    rw [pathOf, slash_assoc]
    exact hnone _ (slash_slash_notMem_subdirs _ _)
  have hdir := hdirs _ (List.mem_map_of_mem hc : subdirOf root c ∈ subdirs root)
  have hne : (pathOf root ident).bytes ≠ [] := slash_ne_nil _ _
  rw [Tree.canCreate, hparent]
  simp [Tree.isDir, hlookup, hdir, hne]

/-- A netdb in a root with nothing in it makes its directories, is filled,
flushed, and loaded again: all of it is done exactly where every insert was into
the bucket that no flush looks at, so where nothing was written. -/
theorem emptyRoot_loads_iff (denied : CString → Bool) (routerInfoHash : RouterInfo → IdentHash)
    (digest : List Byte → IdentHash) (ris : List RouterInfo) (root : CString) (tree : Tree)
    (hempty : EmptyRoot denied root tree) (hshort : strlen root + 58 < 256) :
    (∃ map tree' result tree'', insertCalls routerInfoHash ris = .ok map ∧
      mnetNetdbEnsureSkiplist denied ({ map := map, rootdir := root } : MnetNetdb RouterInfo)
        tree = .ok (1, tree') ∧
      FlushStreams.mnetNetdbFlushToDisk { map := map, rootdir := root } tree' =
        .ok (result, tree'') ∧
      Loads digest root tree'') ↔
      ∀ ri ∈ ris, netdbHashmapHashIdent (routerInfoHash ri) = 0 := by
  obtain ⟨made, hmade, hroot, hdirs, hnone⟩ :=
    @EmptyRoot.exists_made RouterInfo _ _ _ hempty (by omega)
  have hnoFiles := @noFiles_made root made (by omega) hnone
  have hiff : (NoFiles root made ∧ ∀ ri, firstBelow routerInfoHash ris 127 = some ri →
      made.canCreate (pathOf root (routerInfoHash ri)) = false) ↔
      ∀ ri ∈ ris, netdbHashmapHashIdent (routerInfoHash ri) = 0 := by
    rw [← firstBelow_eq_none, and_iff_right hnoFiles, Option.eq_none_iff_forall_ne_some]
    simp [canCreate_made hdirs hnone]
  rw [← hiff]
  constructor
  · rintro ⟨map, tree', result, tree'', hcalls, hensure, hflush, hloads⟩
    obtain ⟨_, rfl⟩ := ok_pair_inj ((hmade _ rfl).symm.trans hensure)
    exact (flushed_loads_iff digest hcalls hroot hshort).mp ⟨result, tree'', hflush, hloads⟩
  · intro hnothing
    obtain ⟨map, hcalls, _⟩ := exists_built routerInfoHash ris
    obtain ⟨result, tree'', hflush, hloads⟩ :=
      (flushed_loads_iff digest hcalls hroot hshort).mpr hnothing
    exact ⟨map, made, result, tree'', hcalls, hmade _ rfl, hflush, hloads⟩

theorem emptyRoot_nodesTree :
    EmptyRoot (fun _ => false) FlushLoad.nodesDir FlushLoad.nodesTree where
  opens := by
    rw [openRoot_of_dir (FlushLoad.lookup_nodesTree_iff.mpr ⟨rfl, rfl⟩)]
    rfl
  below := fun name => Option.eq_none_iff_forall_ne_some.mpr fun entry =>
    (FlushLoad.lookup_nodesTree_slash _ name entry).resolve_right (by decide)
  granted := fun _ _ => rfl

/-- One router info. -/
theorem emptyRoot_loads_iff_nodesTree :
    (∃ map tree' result tree'',
      insertCalls (fun _ => List.Vector.replicate 32 1) [Reload.zeroRouterInfo] = .ok map ∧
      mnetNetdbEnsureSkiplist (fun _ => false)
        ({ map := map, rootdir := FlushLoad.nodesDir } : MnetNetdb RouterInfo)
        FlushLoad.nodesTree = .ok (1, tree') ∧
      FlushStreams.mnetNetdbFlushToDisk { map := map, rootdir := FlushLoad.nodesDir } tree' =
        .ok (result, tree'') ∧
      Loads (fun _ => List.Vector.replicate 32 0) FlushLoad.nodesDir tree'') ↔
      ∀ ri ∈ [Reload.zeroRouterInfo],
        netdbHashmapHashIdent ((fun _ => List.Vector.replicate 32 1) ri) = 0 :=
  emptyRoot_loads_iff _ _ _ _ _ _ emptyRoot_nodesTree (by decide)

end Empty

end I2pLite.SkiplistTree
