import I2pLite.Netdb.NodeStreams
import I2pLite.RouterInfo.Reload

/-!
# Flushes of router infos as they are written

`mnet_netdb_flush_to_disk` over `router_info_write` itself, which writes nothing
and reports a failure.  So a flush is given up behind the first entry, and what
it leaves there is a file that the next load does not survive.
-/

namespace I2pLite.FlushStreams

open I2pLite.CRun
open I2pLite.CBytes
open I2pLite.FileSystem
open I2pLite.Identity
open I2pLite.Ri
open I2pLite.Hashmap
open I2pLite.FirstWins
open I2pLite.ForEach
open I2pLite.Netdb
open I2pLite.Files
open I2pLite.FlushLoad (slash_ne_pathOf dir_of_canCreate exists_lists)
open I2pLite.VisitedFiles (visited visitedFiles joinedPath joinedPath_eq)
open I2pLite.NodeStreams

section Code

variable (db : MnetNetdb RouterInfo)

def netdbWriteEntry (h : IdentHash) (ri : RouterInfo) (ctx : NetdbWriteCtx) : Run NetdbWriteCtx :=
  Netdb.netdbWriteEntry (fun ri => routerInfoWrite ri []) db h ri ctx

/-- The returned flag and the tree behind the call. -/
def mnetNetdbFlushToDisk (tree : Tree) : Run (ℤ × Tree) :=
  Netdb.mnetNetdbFlushToDisk (fun ri => routerInfoWrite ri []) db tree

end Code

/-! ## Paths of any length -/

/-- The path of an entry, cut to the size of a file name. -/
def entryPath (root : CString) (ident : IdentHash) : CString :=
  ofBuffer ((pathOf root ident).bytes.take 255)

/-- Both names can be joined to the root without an index outside the buffer. -/
def RootJoins (root : CString) : Prop := root.bytes ≠ [] ∧ strlen root ≤ 253

section Paths

variable {Ri : Type} {root : CString} {tree : Tree}

theorem entryPath_eq (hshort : strlen root + 58 < 256) (ident : IdentHash) :
    entryPath root ident = pathOf root ident := by
  have hlength := @strlen_pathOf ident root
  rw [strlen] at hlength
  rw [entryPath, List.take_of_length_le (by omega), ofBuffer_bytes]

theorem pathJoin_entry (hjoins : RootJoins root) (ident : IdentHash) :
    pathJoin root [skipName ident, fileName ident] = .ok (entryPath root ident) := by
  have hpos : strlen root ≠ 0 := fun hzero => hjoins.1 (List.length_eq_zero_iff.mp hzero)
  have hroom := hjoins.2
  have hskip : (ch '/' :: (skipName ident).bytes).length = 3 := by
    rw [List.length_cons]
    exact congrArg (· + 1) (strlen_skipName ident)
  have hbytes : (pathOf root ident).bytes.take 255 =
      root.bytes.take 255 ++ (ch '/' :: (skipName ident).bytes).take (255 - strlen root) ++
        (ch '/' :: (fileName ident).bytes).take (255 - (strlen root + 3)) := by
    rw [pathOf, slash_bytes, slash_bytes, List.take_append, List.take_append, List.length_append,
      hskip]
    rfl
  simp only [pathJoin]
  rw [if_neg hpos, joinParts, if_neg (by omega)]
  dsimp only
  rw [hskip, joinParts, if_neg (by omega), joinParts, entryPath, hbytes]
  rfl

theorem pathJoin_entry_eq_ok {joined : CString} {ident : IdentHash}
    (hjoin : pathJoin root [skipName ident, fileName ident] = .ok joined) : RootJoins root := by
  have hskip : (ch '/' :: (skipName ident).bytes).length = 3 := by
    rw [List.length_cons]
    exact congrArg (· + 1) (strlen_skipName ident)
  simp only [pathJoin] at hjoin
  split_ifs at hjoin with hzero
  refine ⟨fun hnil => hzero (List.length_eq_zero_iff.mpr hnil), ?_⟩
  rw [joinParts] at hjoin
  split_ifs at hjoin with hlong
  · cases hjoin
  · dsimp only at hjoin
    rw [hskip, joinParts] at hjoin
    split_ifs at hjoin with hlong'
    · cases hjoin
    · omega

/-- The file of an entry is opened where the names can be joined. -/
theorem netdbOpenFile_eq_ok_iff {db : MnetNetdb Ri} {ident : IdentHash}
    {opened : Option (CString × Tree)} :
    netdbOpenFile tree db ident = .ok opened ↔
      RootJoins db.rootdir ∧ opened = (tree.fopenWrite (entryPath db.rootdir ident)).map
        fun tree => (entryPath db.rootdir ident, tree) := by
  rw [netdbOpenFile, entryNames_eq, ok_bind]
  dsimp only
  constructor
  · intro hopen
    obtain ⟨fpath, hjoin, hopen⟩ := bind_eq_ok.mp hopen
    have hjoins := pathJoin_entry_eq_ok hjoin
    rw [pathJoin_entry hjoins] at hjoin
    obtain rfl := Except.ok.inj hjoin
    exact ⟨hjoins, (Except.ok.inj hopen).symm⟩
  · rintro ⟨hjoins, rfl⟩
    rw [pathJoin_entry hjoins, ok_bind]

theorem put_put (path : CString) (first second : List Byte) :
    (tree.put path first).put path second = tree.put path second := by
  by_cases hpath : path.bytes = []
  · simp only [Tree.put, dif_pos hpath]
  · have hentries : putEntry (putEntry tree.entries path first) path second =
        putEntry tree.entries path second := by
      simp [putEntry]
    simp only [Tree.put, dif_neg hpath, hentries]

end Paths

/-! ## One entry -/

/-- The identity has a base64 form. -/
def HasText (ri : RouterInfo) : Prop :=
  ∃ identity text, ri.identity = some identity ∧
    mnetIdentityToBase64 identity = .ok (some text)

section Write

variable {db : MnetNetdb RouterInfo} {h : IdentHash} {ri : RouterInfo} {tree : Tree}
variable {ctx' : NetdbWriteCtx}

theorem routerInfoWrite_eq_ok_iff {File : Type} {f f' : File} {ret : ℤ} :
    routerInfoWrite ri f = .ok (ret, f') ↔ HasText ri ∧ ret = 0 ∧ f' = f := by
  constructor
  · intro hwrite
    obtain ⟨identity, hidentity, hrest⟩ := bind_eq_ok.mp hwrite
    obtain ⟨str, hstr, hrest⟩ := bind_eq_ok.mp hrest
    obtain ⟨text, htext, _⟩ := bind_eq_ok.mp hrest
    obtain rfl := deref_eq_ok.mp htext
    exact ⟨⟨identity, text, deref_eq_ok.mp hidentity, hstr⟩, Reload.routerInfoWrite_eq_ok hwrite⟩
  · rintro ⟨⟨identity, text, hidentity, hstr⟩, rfl, rfl⟩
    rw [routerInfoWrite, hidentity, deref_some, ok_bind, hstr, ok_bind, deref_some, ok_bind]
    rfl

/-- What the first entry leaves of a flush: its file cannot be created, or it is
left empty.  Either way nothing else is written. -/
def GivenUp (root : CString) (h : IdentHash) (ri : RouterInfo) (tree tree' : Tree) : Prop :=
  RootJoins root ∧
    if tree.canCreate (entryPath root h) then
      HasText ri ∧ tree' = tree.put (entryPath root h) []
    else tree' = tree

theorem netdbWriteEntry_start :
    netdbWriteEntry db h ri { result := 1, tree := tree } = .ok ctx' ↔
      ctx'.result = 0 ∧ GivenUp db.rootdir h ri tree ctx'.tree := by
  rw [netdbWriteEntry, Netdb.netdbWriteEntry, if_pos one_ne_zero, GivenUp, bind_eq_ok]
  simp only [netdbOpenFile_eq_ok_iff, Tree.fopenWrite]
  constructor
  · rintro ⟨opened, ⟨hjoins, rfl⟩, hwrite⟩
    split_ifs at hwrite ⊢ with hcreate
    · obtain ⟨⟨result, bytes⟩, hcall, hresult⟩ := bind_eq_ok.mp hwrite
      obtain ⟨htext, rfl, rfl⟩ := routerInfoWrite_eq_ok_iff.mp hcall
      obtain rfl := Except.ok.inj hresult
      exact ⟨rfl, hjoins, htext, put_put _ _ _⟩
    · obtain rfl := Except.ok.inj hwrite
      exact ⟨rfl, hjoins, rfl⟩
  · rintro ⟨hresult, hjoins, hleft⟩
    refine ⟨_, ⟨hjoins, rfl⟩, ?_⟩
    obtain ⟨result, tree'⟩ := ctx'
    obtain rfl : result = 0 := hresult
    split_ifs at hleft ⊢ with hcreate
    · obtain ⟨htext, rfl⟩ : HasText ri ∧ tree' = _ := hleft
      have hcall : routerInfoWrite ri ([] : List Byte) = .ok (0, []) :=
        routerInfoWrite_eq_ok_iff.mpr ⟨htext, rfl, rfl⟩
      change (routerInfoWrite ri ([] : List Byte) >>= _) = _
      rw [hcall, ok_bind]
      dsimp only
      rw [put_put]
    · obtain rfl : tree' = tree := hleft
      rfl

/-- Behind a failure nothing is opened any more. -/
theorem foldlM_netdbWriteEntry_failed (nodes : List (NetdbHashNode RouterInfo))
    {ctx : NetdbWriteCtx} (hresult : ctx.result = 0) :
    nodes.foldlM (visitNode (netdbWriteEntry db)) ctx = .ok ctx := by
  induction nodes with
  | nil => rfl
  | cons node nodes ih =>
      rw [List.foldlM_cons, visitNode, netdbWriteEntry, Netdb.netdbWriteEntry,
        if_neg (not_not.mpr hresult), ok_bind, ih]

end Write

/-! ## The entry that comes first -/

section First

variable {Ri : Type} {routerInfoHash : Ri → IdentHash} {ris : List Ri} {map : NetdbHashmap Ri}

/-- The first insert into the highest bucket that is no higher than this one.
The bucket 0 is not looked at. -/
def firstBelow (routerInfoHash : Ri → IdentHash) (ris : List Ri) : ℕ → Option Ri
  | 0 => none
  | idx + 1 =>
      (ris.find? fun ri => netdbHashmapHashIdent (routerInfoHash ri) = Fin.ofNat 128 (idx + 1)).or
        (firstBelow routerInfoHash ris idx)

theorem firstBelow_eq_none_iff {idx : ℕ} (hidx : idx < 128) :
    firstBelow routerInfoHash ris idx = none ↔
      ∀ ri ∈ ris, netdbHashmapHashIdent (routerInfoHash ri) = 0 ∨
        idx < (netdbHashmapHashIdent (routerInfoHash ri)).val := by
  induction idx with
  | zero =>
      have hpos : ∀ bucket : Fin 128, bucket = 0 ∨ 0 < bucket.val := fun bucket =>
        (Nat.eq_zero_or_pos bucket.val).imp_left Fin.ext
      exact ⟨fun _ ri _ => hpos _, fun _ => rfl⟩
  | succ idx ih =>
      have hbucket : ∀ bucket : Fin 128, bucket ≠ Fin.ofNat 128 (idx + 1) ↔
          bucket.val ≠ idx + 1 := by
        intro bucket
        rw [ne_eq, Fin.ext_iff, Fin.val_ofNat, Nat.mod_eq_of_lt hidx]
      rw [firstBelow, Option.or_eq_none_iff, ih (by omega), List.find?_eq_none]
      simp only [decide_eq_true_eq, hbucket]
      constructor
      · rintro ⟨hnot, hrest⟩ ri hri
        have := hnot ri hri
        exact (hrest ri hri).imp_right (by omega)
      · intro hall
        refine ⟨fun ri hri heq => ?_, fun ri hri => (hall ri hri).imp_right (by omega)⟩
        rcases hall ri hri with hzero | hlt
        · rw [hzero] at heq
          cases heq
        · omega

/-- Nothing is below where all inserts were into the bucket 0. -/
theorem firstBelow_eq_none :
    firstBelow routerInfoHash ris 127 = none ↔
      ∀ ri ∈ ris, netdbHashmapHashIdent (routerInfoHash ri) = 0 := by
  have hlast : ∀ bucket : Fin 128, ¬127 < bucket.val := fun bucket => by omega
  simp only [firstBelow_eq_none_iff (show 127 < 128 by omega), hlast, or_false]

theorem insertCalls_append (routerInfoHash : Ri → IdentHash) (ris : List Ri) (ri : Ri) :
    insertCalls routerInfoHash (ris ++ [ri]) =
      insertCalls routerInfoHash ris >>= fun map =>
        netdbHashmapInsert routerInfoHash map ri >>= fun result => .ok result.2 := by
  rw [insertCalls, List.foldlM_append, ← insertCalls]
  apply congrArg
  funext map
  rw [List.foldlM_cons]
  cases netdbHashmapInsert routerInfoHash map ri <;> rfl

/-- What a map is searched for is found where it is the first of the inserts. -/
theorem find?_contentsOf (hcalls : insertCalls routerInfoHash ris = .ok map)
    (property : IdentHash → Bool) :
    (contentsOf map).find? (fun entry => property entry.1) =
      (ris.find? fun ri => property (routerInfoHash ri)).map fun ri => (routerInfoHash ri, ri) := by
  induction ris using List.reverseRecOn generalizing map with
  | nil =>
      obtain rfl := Except.ok.inj hcalls
      rfl
  | append_singleton ris ri ih =>
      obtain ⟨before, hbefore, hbuilt⟩ := exists_built routerInfoHash ris
      rw [insertCalls_append, hbefore, ok_bind] at hcalls
      have hih := ih hbefore
      rw [List.find?_append]
      rcases netdbHashmapInsert_cases hbuilt.inv ri with ⟨found, hfound, hinsert⟩ |
        ⟨_, after, hinsert, _, hcontents⟩
      · rw [hinsert, ok_bind] at hcalls
        obtain rfl := Except.ok.inj hcalls
        rw [hih]
        cases hfind : ris.find? fun ri => property (routerInfoHash ri) with
        | some other => rfl
        | none =>
            -- an entry with the hash has been looked at before
            rw [hfind, Option.map_none] at hih
            have hmem : (found.h, found.ri) ∈ contentsOf before :=
              List.mem_map_of_mem (List.mem_of_find?_eq_some hfound)
            have hnot := List.find?_eq_none.mp hih _ hmem
            have hsame : found.h = routerInfoHash ri := by simpa using List.find?_some hfound
            rw [hsame] at hnot
            simp [hnot]
      · rw [hinsert, ok_bind] at hcalls
        obtain rfl := Except.ok.inj hcalls
        rw [hcontents, List.find?_append, hih]
        cases ris.find? fun ri => property (routerInfoHash ri) with
        | some other => rfl
        | none =>
            cases hproperty : property (routerInfoHash ri) <;> simp [hproperty]

theorem head?_visitedFrom (hcalls : insertCalls routerInfoHash ris = .ok map) (idx : ℕ) :
    (visitedFrom map.nodes idx).head?.map (fun node => (node.h, node.ri)) =
      (firstBelow routerInfoHash ris idx).map fun ri => (routerInfoHash ri, ri) := by
  induction idx with
  | zero => rfl
  | succ idx ih =>
      have hbucket := find?_contentsOf hcalls fun h =>
        netdbHashmapHashIdent h = Fin.ofNat 128 (idx + 1)
      rw [contentsOf, List.find?_map] at hbucket
      rw [visitedFrom, firstBelow, List.head?_append, List.head?_filter, Option.map_or, ih,
        Option.map_or, ← hbucket]
      rfl

end First

/-! ## Flushes -/

section Flush

variable {routerInfoHash : RouterInfo → IdentHash} {ris : List RouterInfo}
variable {map : NetdbHashmap RouterInfo} {root : CString} {tree tree' : Tree} {result : ℤ}

/-- A flush writes the entries one after the other. -/
theorem mnetNetdbFlushToDisk_eq (hinv : Inv routerInfoHash map) :
    mnetNetdbFlushToDisk { map := map, rootdir := root } tree =
      (visitedNodes map).foldlM (visitNode (netdbWriteEntry { map := map, rootdir := root }))
          { result := 1, tree := tree } >>=
        fun ctx => .ok (ctx.result, ctx.tree) := by
  rw [mnetNetdbFlushToDisk, Netdb.mnetNetdbFlushToDisk, netdbHashmapForEach_eq hinv]
  rfl

/-- What becomes of the tree when the netdb that these inserts have built is
flushed. -/
def Flushes (routerInfoHash : RouterInfo → IdentHash) (ris : List RouterInfo) (root : CString)
    (tree : Tree) (result : ℤ) (tree' : Tree) : Prop :=
  match firstBelow routerInfoHash ris 127 with
  | none => result = 1 ∧ tree' = tree
  | some ri => result = 0 ∧ GivenUp root (routerInfoHash ri) ri tree tree'

theorem flush_eq_ok_iff (hcalls : insertCalls routerInfoHash ris = .ok map) :
    mnetNetdbFlushToDisk { map := map, rootdir := root } tree = .ok (result, tree') ↔
      Flushes routerInfoHash ris root tree result tree' := by
  obtain ⟨other, hother, hbuilt⟩ := exists_built routerInfoHash ris
  obtain rfl := Except.ok.inj (hcalls.symm.trans hother)
  have hhead := head?_visitedFrom hcalls 127
  rw [mnetNetdbFlushToDisk_eq hbuilt.inv, visitedNodes, Flushes]
  cases hnodes : visitedFrom map.nodes 127 with
  | nil =>
      rw [hnodes] at hhead
      rw [Option.map_eq_none_iff.mp hhead.symm, List.foldlM_nil, pure_eq_ok, ok_bind]
      simp [eq_comm]
  | cons node nodes =>
      rw [hnodes] at hhead
      obtain ⟨ri, hri, hentry⟩ := Option.map_eq_some_iff.mp hhead.symm
      obtain ⟨hh, rfl⟩ := Prod.mk.inj hentry
      rw [hri, List.foldlM_cons, visitNode]
      dsimp only
      rw [hh]
      constructor
      · intro hflush
        obtain ⟨ctx, hrun, hresult⟩ := bind_eq_ok.mp hflush
        obtain ⟨first, hfirst, hrest⟩ := bind_eq_ok.mp hrun
        obtain ⟨hfailed, hgivenUp⟩ := netdbWriteEntry_start.mp hfirst
        rw [foldlM_netdbWriteEntry_failed nodes hfailed] at hrest
        obtain rfl := Except.ok.inj hrest
        obtain ⟨rfl, rfl⟩ := ok_pair_inj hresult
        exact ⟨hfailed, hgivenUp⟩
      · rintro ⟨rfl, hgivenUp⟩
        have hfirst : netdbWriteEntry { map := map, rootdir := root } node.h node.ri
            { result := 1, tree := tree } = .ok { result := 0, tree := tree' } :=
          netdbWriteEntry_start.mpr ⟨rfl, hgivenUp⟩
        rw [hfirst, ok_bind, foldlM_netdbWriteEntry_failed nodes rfl, ok_bind]

end Flush

/-- A flush returns 1 exactly where no insert was made into another bucket than
0, and then it leaves the tree as it is.  Else it returns 0 behind the first
insert into the highest bucket, whose file it leaves empty if it can be
created. -/
theorem mnetNetdbFlushToDisk_iff (routerInfoHash : RouterInfo → IdentHash) (ris : List RouterInfo)
    (root : CString) (tree tree' : Tree) (result : ℤ) :
    (∃ map, insertCalls routerInfoHash ris = .ok map ∧
      mnetNetdbFlushToDisk { map := map, rootdir := root } tree = .ok (result, tree')) ↔
      Flushes routerInfoHash ris root tree result tree' := by
  constructor
  · rintro ⟨map, hcalls, hflush⟩
    exact (flush_eq_ok_iff hcalls).mp hflush
  · intro hflushes
    obtain ⟨map, hcalls, _⟩ := exists_built routerInfoHash ris
    exact ⟨map, hcalls, (flush_eq_ok_iff hcalls).mpr hflushes⟩

/-! ## The load behind a flush -/

section Load

variable {root : CString} {tree : Tree} {readdir : CString → List CString}

/-- However the directories are listed, there is no file to load. -/
def NoFiles (root : CString) (tree : Tree) : Prop :=
  ∀ readdir, tree.Lists readdir → visitedFiles tree readdir root = []

/-- However the directories are listed, a load into a fresh netdb returns. -/
def Loads (digest : List Byte → IdentHash) (root : CString) (tree : Tree) : Prop :=
  ∀ readdir, tree.Lists readdir → ∃ fuel result,
    NodeStreams.mnetNetdbLoadAll fuel digest tree readdir (mnetNetdbNew root) = .ok result

theorem loads_iff (digest : List Byte → IdentHash) (hshort : strlen root ≤ 256) :
    Loads digest root tree ↔ NoFiles root tree := by
  have hfits : ∀ readdir, VisitedFiles.RootFits tree readdir root := fun _ _ hlong =>
    absurd hlong (by omega)
  constructor
  · intro hloads readdir hlists
    obtain ⟨fuel, ⟨loaded, ctx⟩, hload⟩ := hloads readdir hlists
    exact (mnetNetdbLoadAll_eq_ok_iff.mp hload).2.1
  · intro hnone readdir hlists
    exact ⟨0, (0, VisitedFiles.startCtx (mnetNetdbNew root)),
      mnetNetdbLoadAll_eq_ok_iff.mpr ⟨hfits readdir, hnone readdir hlists, rfl, rfl⟩⟩

theorem mem_visited {path name : CString} {filter : CString → Bool} (hlists : tree.Lists readdir)
    (hname : IsName name) (hsome : (tree.lookup (slash path name)).isSome)
    (hshort : strlen (slash path name) < 256) (hfilter : filter (slash path name) = true) :
    slash path name ∈ visited readdir path filter := by
  have hmem : name ∈ readdir path :=
    (hlists.mem_iff hname.2.2.1 hname.2.2.2).mpr ⟨hname, hsome⟩
  rw [visited, List.mem_filter, List.mem_map]
  refine ⟨⟨name, List.mem_filter.mpr ⟨hmem, by simpa using hname.2.2⟩, joinedPath_eq hshort⟩,
    hfilter⟩

theorem exists_name_of_mem_visited {path entry : CString} {filter : CString → Bool}
    (hlists : tree.Lists readdir) (hentry : entry ∈ visited readdir path filter) :
    ∃ name, entry = joinedPath path name ∧ (tree.lookup (slash path name)).isSome = true := by
  rw [visited, List.mem_filter, List.mem_map] at hentry
  obtain ⟨⟨name, hname, rfl⟩, _⟩ := hentry
  obtain ⟨hmem, hdots⟩ := List.mem_filter.mp hname
  obtain ⟨hdot, hdotDot⟩ : name ≠ dot ∧ name ≠ dotDot := by simpa using hdots
  exact ⟨name, rfl, ((hlists.mem_iff hdot hdotDot).mp hmem).2⟩

/-- The file of an entry is met. -/
theorem pathOf_mem_visitedFiles {ident : IdentHash} (hlists : tree.Lists readdir)
    (hshort : strlen root + 58 < 256) (hroot : tree.lookup root = some .dir)
    (hdir : tree.lookup (slash root (skipName ident)) = some .dir)
    (hfile : tree.isFile (pathOf root ident) = true) :
    pathOf root ident ∈ visitedFiles tree readdir root := by
  have hlength : strlen (pathOf root ident) < 256 := by
    rw [strlen_pathOf]
    exact hshort
  have hlengthDir : strlen (slash root (skipName ident)) < 256 := by
    rw [strlen_slash, strlen_skipName]
    omega
  obtain ⟨bytes, hopen⟩ := Tree.exists_fopenRead hfile
  have hsome : (tree.lookup (pathOf root ident)).isSome := by
    rw [Tree.fopenRead_eq_some_iff.mp hopen]
    rfl
  rw [visitedFiles, if_pos (Tree.isDir_iff.mpr hroot), List.mem_flatMap]
  refine ⟨slash root (skipName ident), ?_, ?_⟩
  · exact mem_visited hlists (isName_skipName ident) (by rw [hdir]; rfl) hlengthDir
      (Tree.isDir_iff.mpr hdir)
  · exact mem_visited hlists (isName_fileName ident) hsome hlength hfile

/-- A file that a flush leaves is one that is met. -/
theorem pathOf_mem_visitedFiles_put {ident : IdentHash} (hshort : strlen root + 58 < 256)
    (hroot : tree.lookup root = some .dir) (hcreate : tree.canCreate (pathOf root ident) = true)
    (hlists : (tree.put (pathOf root ident) []).Lists readdir) :
    pathOf root ident ∈ visitedFiles (tree.put (pathOf root ident) []) readdir root := by
  have hne : root ≠ pathOf root ident := by
    intro heq
    have hlength := congrArg strlen heq
    rw [strlen_pathOf] at hlength
    omega
  have hdir : (tree.put (pathOf root ident) []).lookup (slash root (skipName ident)) =
      some .dir := by
    rw [Tree.lookup_put_of_ne _ (slash_ne_pathOf (isName_skipName ident) ident)]
    exact dir_of_canCreate hcreate
  have hroot' : (tree.put (pathOf root ident) []).lookup root = some .dir := by
    rw [Tree.lookup_put_of_ne _ hne, hroot]
  have hfile : (tree.put (pathOf root ident) []).isFile (pathOf root ident) = true := by
    have hpath : (pathOf root ident).bytes ≠ [] := slash_ne_nil _ _
    rw [Tree.isFile, Tree.lookup_put_self _ hpath]
  exact pathOf_mem_visitedFiles hlists hshort hroot' hdir hfile

theorem not_noFiles_put {ident : IdentHash} (hshort : strlen root + 58 < 256)
    (hroot : tree.lookup root = some .dir) (hcreate : tree.canCreate (pathOf root ident) = true) :
    ¬ NoFiles root (tree.put (pathOf root ident) []) := by
  intro hnone
  obtain ⟨readdir, hlists⟩ := exists_lists (tree.put (pathOf root ident) [])
  have hmem := pathOf_mem_visitedFiles_put hshort hroot hcreate hlists
  rw [hnone readdir hlists] at hmem
  cases hmem

/-- However the directories are listed, no load into a fresh netdb returns. -/
def NeverLoads (digest : List Byte → IdentHash) (root : CString) (tree : Tree) : Prop :=
  ∀ readdir, tree.Lists readdir → ∀ fuel result,
    NodeStreams.mnetNetdbLoadAll fuel digest tree readdir (mnetNetdbNew root) ≠ .ok result

/-- Behind a flush that creates a file no load returns. -/
theorem neverLoads_flushed {routerInfoHash : RouterInfo → IdentHash} {ris : List RouterInfo}
    {map : NetdbHashmap RouterInfo} {ri : RouterInfo} {result : ℤ} {tree' : Tree}
    (digest : List Byte → IdentHash) (hroot : tree.lookup root = some .dir)
    (hshort : strlen root + 58 < 256) (hcalls : insertCalls routerInfoHash ris = .ok map)
    (hflush : mnetNetdbFlushToDisk { map := map, rootdir := root } tree = .ok (result, tree'))
    (hfirst : firstBelow routerInfoHash ris 127 = some ri)
    (hcreate : tree.canCreate (pathOf root (routerInfoHash ri)) = true) :
    NeverLoads digest root tree' := by
  rw [flush_eq_ok_iff hcalls, Flushes, hfirst] at hflush
  obtain ⟨_, _, hleft⟩ := hflush
  rw [entryPath_eq hshort, if_pos hcreate] at hleft
  obtain ⟨_, rfl⟩ := hleft
  rintro readdir hlists fuel ⟨loaded, ctx⟩ hload
  have hmem := pathOf_mem_visitedFiles_put hshort hroot hcreate hlists
  have hnone : visitedFiles (tree.put (pathOf root (routerInfoHash ri)) []) readdir root = [] :=
    (mnetNetdbLoadAll_eq_ok_iff.mp hload).2.1
  rw [hnone] at hmem
  cases hmem

/-- Behind its inserts a netdb is flushed, and what is there then can be loaded,
exactly where there was no file from before and the flush cannot create one. -/
theorem flushed_loads_iff {routerInfoHash : RouterInfo → IdentHash} {ris : List RouterInfo}
    {map : NetdbHashmap RouterInfo} (digest : List Byte → IdentHash)
    (hcalls : insertCalls routerInfoHash ris = .ok map) (hroot : tree.lookup root = some .dir)
    (hshort : strlen root + 58 < 256) :
    (∃ result tree',
      mnetNetdbFlushToDisk { map := map, rootdir := root } tree = .ok (result, tree') ∧
      Loads digest root tree') ↔
      NoFiles root tree ∧ ∀ ri, firstBelow routerInfoHash ris 127 = some ri →
        tree.canCreate (pathOf root (routerInfoHash ri)) = false := by
  have hjoins : RootJoins root := ⟨Tree.ne_nil_of_lookup hroot, by omega⟩
  have hloads : ∀ tree', Loads digest root tree' ↔ NoFiles root tree' := fun _ =>
    loads_iff digest (by omega)
  simp only [flush_eq_ok_iff hcalls, hloads, Flushes]
  cases hfirst : firstBelow routerInfoHash ris 127 with
  | none =>
      constructor
      · rintro ⟨result, tree', ⟨_, rfl⟩, hnone⟩
        exact ⟨hnone, fun ri hri => by cases hri⟩
      · rintro ⟨hnone, _⟩
        exact ⟨1, tree, ⟨rfl, rfl⟩, hnone⟩
  | some ri =>
      simp only [GivenUp, entryPath_eq hshort]
      cases hcreate : tree.canCreate (pathOf root (routerInfoHash ri)) with
      | true =>
          refine iff_of_false ?_ ?_
          · -- the file that the flush leaves is one that the load meets
            rintro ⟨_, _, ⟨_, _, _, rfl⟩, hnone⟩
            exact not_noFiles_put hshort hroot hcreate hnone
          · rintro ⟨_, hcannot⟩
            have hnot := hcannot ri rfl
            rw [hcreate] at hnot
            cases hnot
      | false =>
          constructor
          · rintro ⟨_, tree', ⟨_, _, rfl⟩, hnone⟩
            refine ⟨hnone, fun other hother => ?_⟩
            obtain rfl := Option.some.inj hother
            exact hcreate
          · rintro ⟨hnone, _⟩
            exact ⟨0, tree, ⟨rfl, hjoins, rfl⟩, hnone⟩

end Load

/-- A flush that returns, and then a load of what is there: both happen exactly
where there was no file from before and the flush cannot create one.  Where it
does create one, no load returns any more. -/
theorem flush_loads_iff (routerInfoHash : RouterInfo → IdentHash)
    (digest : List Byte → IdentHash) (ris : List RouterInfo) (root : CString) (tree : Tree)
    (hroot : tree.lookup root = some .dir) (hshort : strlen root + 58 < 256) :
    ((∃ map result tree', insertCalls routerInfoHash ris = .ok map ∧
      mnetNetdbFlushToDisk { map := map, rootdir := root } tree = .ok (result, tree') ∧
      Loads digest root tree') ↔
      NoFiles root tree ∧ ∀ ri, firstBelow routerInfoHash ris 127 = some ri →
        tree.canCreate (pathOf root (routerInfoHash ri)) = false) ∧
    ∀ map result tree' ri, insertCalls routerInfoHash ris = .ok map →
      mnetNetdbFlushToDisk { map := map, rootdir := root } tree = .ok (result, tree') →
      firstBelow routerInfoHash ris 127 = some ri →
      tree.canCreate (pathOf root (routerInfoHash ri)) = true → NeverLoads digest root tree' := by
  refine ⟨⟨?_, ?_⟩, ?_⟩
  · rintro ⟨map, result, tree', hcalls, hflush, hloads⟩
    exact (flushed_loads_iff digest hcalls hroot hshort).mp ⟨result, tree', hflush, hloads⟩
  · intro hnone
    obtain ⟨map, hcalls, _⟩ := exists_built routerInfoHash ris
    obtain ⟨result, tree', hflush, hloads⟩ :=
      (flushed_loads_iff digest hcalls hroot hshort).mpr hnone
    exact ⟨map, result, tree', hcalls, hflush, hloads⟩
  · intro map result tree' ri hcalls hflush hfirst hcreate
    exact neverLoads_flushed digest hroot hshort hcalls hflush hfirst hcreate

/-- One router info, and a root with its directory. -/
theorem flush_loads_iff_onesTree :
    ((∃ map result tree',
      insertCalls (fun _ => FlushLoad.ones) [Reload.zeroRouterInfo] = .ok map ∧
      mnetNetdbFlushToDisk { map := map, rootdir := FlushLoad.nodesDir } FlushLoad.onesTree =
        .ok (result, tree') ∧
      Loads (fun _ => FlushLoad.zeros) FlushLoad.nodesDir tree') ↔
      NoFiles FlushLoad.nodesDir FlushLoad.onesTree ∧
        ∀ ri, firstBelow (fun _ => FlushLoad.ones) [Reload.zeroRouterInfo] 127 = some ri →
          FlushLoad.onesTree.canCreate (pathOf FlushLoad.nodesDir FlushLoad.ones) = false) ∧
    ∀ map result tree' ri,
      insertCalls (fun _ => FlushLoad.ones) [Reload.zeroRouterInfo] = .ok map →
      mnetNetdbFlushToDisk { map := map, rootdir := FlushLoad.nodesDir } FlushLoad.onesTree =
        .ok (result, tree') →
      firstBelow (fun _ => FlushLoad.ones) [Reload.zeroRouterInfo] 127 = some ri →
      FlushLoad.onesTree.canCreate (pathOf FlushLoad.nodesDir FlushLoad.ones) = true →
      NeverLoads (fun _ => FlushLoad.zeros) FlushLoad.nodesDir tree' :=
  flush_loads_iff _ _ _ _ _ (by decide) (by decide)

end I2pLite.FlushStreams
