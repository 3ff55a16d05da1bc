import I2pLite.Netdb.Files

/-!
# The files that a load meets

A load walks through the directories below the root, and through the files in
each of them.  Paths are cut to the size of a file name on the way; the files
that are met are the ones that are there exactly where no path that is cut
leads to a file, whole or cut.
-/

namespace I2pLite.VisitedFiles

open I2pLite.CRun
open I2pLite.CBytes
open I2pLite.FileSystem
open I2pLite.Netdb
open I2pLite.Files

section Walk

variable {tree : Tree} {readdir : CString → List CString} {path root : CString}
variable {filter : CString → Bool}

/-- The path of a name, cut to the size of a file name. -/
def joinedPath (path name : CString) : CString := ofBuffer ((slash path name).bytes.take 255)

theorem pathJoin_cut (hne : path.bytes ≠ []) (hfits : strlen path ≤ 256) (name : CString) :
    pathJoin path [name] = .ok (joinedPath path name) := by
  have hpos : strlen path ≠ 0 := fun hzero => hne (List.length_eq_zero_iff.mp hzero)
  simp only [pathJoin]
  rw [if_neg hpos, joinParts, if_neg (by omega), joinedPath, slash_bytes, List.take_append]
  rfl

theorem pathJoin_overlong (hlong : 256 < strlen path) (name : CString) :
    pathJoin path [name] = .error .outOfBounds := by
  simp only [pathJoin]
  rw [if_neg (by omega), joinParts, if_pos hlong]
  rfl

/-- What a walk through a directory visits. -/
def visited (readdir : CString → List CString) (path : CString) (filter : CString → Bool) :
    List CString :=
  (((readdir path).filter fun name => name ≠ dot ∧ name ≠ dotDot).map (joinedPath path)).filter
    filter

/-- What a load visits: the files in the directories below the root. -/
def visitedFiles (tree : Tree) (readdir : CString → List CString) (root : CString) :
    List CString :=
  if tree.isDir root then
    (visited readdir root tree.isDir).flatMap fun dir => visited readdir dir tree.isFile
  else []

/-- The path of the root leaves room for a name, or nothing is listed there. -/
def RootFits (tree : Tree) (readdir : CString → List CString) (root : CString) : Prop :=
  tree.isDir root = true → 256 < strlen root →
    ∀ name ∈ readdir root, name = dot ∨ name = dotDot

theorem strlen_joinedPath_le (path name : CString) : strlen (joinedPath path name) ≤ 255 := by
  have hlength : (joinedPath path name).bytes.length ≤ ((slash path name).bytes.take 255).length :=
    (List.takeWhile_sublist _).length_le
  rw [List.length_take] at hlength
  exact hlength.trans (Nat.min_le_left _ _)

theorem iterateAllWithFilter_visited {S : Type} {visit : CString → S → Run S} {user : S}
    (hdir : tree.isDir path = true) (hfits : strlen path ≤ 256) :
    iterateAllWithFilter tree readdir path filter visit user =
      (visited readdir path filter).foldlM (fun user entry => visit entry user) user :=
  iterateAllWithFilter_of_joins hdir fun name _ _ _ =>
    pathJoin_cut (Tree.ne_nil_of_lookup (Tree.isDir_iff.mp hdir)) hfits name

/-- With an overlong path the first name is a fault. -/
theorem iterateAllWithFilter_overlong {S : Type} {visit : CString → S → Run S} {user : S}
    (hdir : tree.isDir path = true) (hlong : 256 < strlen path) {name : CString}
    (hname : name ∈ readdir path) (hdot : name ≠ dot) (hdotDot : name ≠ dotDot) :
    iterateAllWithFilter tree readdir path filter visit user = .error .outOfBounds := by
  rw [iterateAllWithFilter, if_pos hdir]
  generalize readdir path = names at hname
  induction names with
  | nil => cases hname
  | cons first names ih =>
      rw [List.foldlM_cons]
      by_cases hdots : first ≠ dot ∧ first ≠ dotDot
      · rw [if_pos hdots, pathJoin_overlong hlong]
        rfl
      · rw [if_neg hdots, ok_bind]
        rcases List.mem_cons.mp hname with rfl | hname
        · exact absurd ⟨hdot, hdotDot⟩ hdots
        · exact ih hname

/-- Behind an overlong path nothing may be listed. -/
theorem iterateAllWithFilter_dots {S : Type} {visit : CString → S → Run S} {user : S}
    (hdir : tree.isDir path = true) (hdots : ∀ name ∈ readdir path, name = dot ∨ name = dotDot) :
    iterateAllWithFilter tree readdir path filter visit user = .ok user := by
  rw [iterateAllWithFilter, if_pos hdir]
  generalize readdir path = names at hdots
  induction names with
  | nil => rfl
  | cons name names ih =>
      have hname : ¬ (name ≠ dot ∧ name ≠ dotDot) := by
        rintro ⟨hdot, hdotDot⟩
        rcases hdots name (List.mem_cons_self ..) with heq | heq
        · exact hdot heq
        · exact hdotDot heq
      rw [List.foldlM_cons, if_neg hname, ok_bind]
      exact ih fun other hother => hdots other (List.mem_cons_of_mem _ hother)

theorem visited_dots (hdots : ∀ name ∈ readdir path, name = dot ∨ name = dotDot) :
    visited readdir path filter = [] := by
  have hnone : (readdir path).filter (fun name => name ≠ dot ∧ name ≠ dotDot) = [] := by
    rw [List.filter_eq_nil_iff]
    intro name hname hkept
    obtain ⟨hdot, hdotDot⟩ := of_decide_eq_true hkept
    rcases hdots name hname with heq | heq
    · exact hdot heq
    · exact hdotDot heq
  rw [visited, hnone]
  rfl

theorem strlen_le_of_mem_visited {entry : CString} (hentry : entry ∈ visited readdir path filter) :
    strlen entry ≤ 255 := by
  obtain ⟨name, -, rfl⟩ := List.mem_map.mp (List.mem_of_mem_filter hentry)
  exact strlen_joinedPath_le path name

theorem filter_of_mem_visited {entry : CString} (hentry : entry ∈ visited readdir path filter) :
    filter entry = true :=
  (List.mem_filter.mp hentry).2

theorem foldlM_congr {A S : Type} {step step' : S → A → Run S} {values : List A}
    (hstep : ∀ value ∈ values, ∀ state, step state value = step' state value) (start : S) :
    values.foldlM step start = values.foldlM step' start := by
  induction values generalizing start with
  | nil => rfl
  | cons value values ih =>
      rw [List.foldlM_cons, List.foldlM_cons, hstep value (List.mem_cons_self ..)]
      exact congrArg (_ >>= ·) (funext
        (ih fun other hother => hstep other (List.mem_cons_of_mem _ hother)))

theorem foldlM_flatMap {A B S : Type} (values : List A) (parts : A → List B)
    (step : S → B → Run S) (start : S) :
    (values.flatMap parts).foldlM step start =
      values.foldlM (fun state value => (parts value).foldlM step state) start := by
  induction values generalizing start with
  | nil => rfl
  | cons value values ih =>
      rw [List.flatMap_cons, List.foldlM_append, List.foldlM_cons]
      exact congrArg ((parts value).foldlM step start >>= ·) (funext ih)

/-- The two walks of a load visit one file after the other. -/
theorem iterateAllDirs_visitedFiles {S : Type} {visit : CString → S → Run S} {root : CString}
    (hfits : RootFits tree readdir root) (user : S) :
    iterateAllDirs tree readdir root (fun dir user => iterateAllFiles tree readdir dir visit user)
        user =
      (visitedFiles tree readdir root).foldlM (fun user file => visit file user) user := by
  rw [iterateAllDirs, visitedFiles]
  by_cases hdir : tree.isDir root = true
  · rw [if_pos hdir, foldlM_flatMap]
    by_cases hlong : 256 < strlen root
    · rw [iterateAllWithFilter_dots hdir (hfits hdir hlong), visited_dots (hfits hdir hlong)]
      rfl
    · rw [iterateAllWithFilter_visited hdir (not_lt.mp hlong)]
      refine foldlM_congr (fun dir hvisited user => ?_) user
      have hshort := strlen_le_of_mem_visited hvisited
      exact iterateAllWithFilter_visited (filter_of_mem_visited hvisited) (by omega)
  · rw [if_neg hdir, iterateAllWithFilter, if_neg hdir]
    rfl

/-- A walk that ends has not met an overlong path. -/
theorem rootFits_of_walk {S : Type} {visit : CString → S → Run S} {root : CString} {user user' : S}
    (hwalk : iterateAllDirs tree readdir root visit user = .ok user') :
    RootFits tree readdir root := by
  intro hdir hlong name hname
  by_contra hdots
  rw [not_or] at hdots
  rw [iterateAllDirs, iterateAllWithFilter_overlong hdir hlong hname hdots.1 hdots.2] at hwalk
  cases hwalk

/-! ## Loads -/

section Load

variable {Ri : Type} {code : RouterInfoCode Ri} {db : MnetNetdb Ri}

/-- The context that a load starts from. -/
def startCtx (db : MnetNetdb Ri) : NetdbReadCtx Ri := { failed := 0, loaded := 0, db := db }

/-- A load reads one file after the other. -/
theorem load_eq_foldlM (hfits : RootFits tree readdir db.rootdir) :
    mnetNetdbLoadAll code tree readdir db =
      (visitedFiles tree readdir db.rootdir).foldlM
          (fun ctx file => netdbReadFile code tree file ctx) (startCtx db) >>=
        fun ctx => .ok (ctx.loaded, ctx) := by
  rw [mnetNetdbLoadAll, ← startCtx]
  exact congrArg (· >>= _) (iterateAllDirs_visitedFiles hfits (startCtx db))

theorem rootFits_of_load {result : ℕ × NetdbReadCtx Ri}
    (hload : mnetNetdbLoadAll code tree readdir db = .ok result) :
    RootFits tree readdir db.rootdir := by
  obtain ⟨_, hwalk, _⟩ := bind_eq_ok.mp hload
  exact rootFits_of_walk hwalk

theorem isFile_of_mem_visitedFiles {file : CString}
    (hfile : file ∈ visitedFiles tree readdir root) : tree.isFile file = true := by
  rw [visitedFiles] at hfile
  split_ifs at hfile
  · obtain ⟨dir, _, hfile⟩ := List.mem_flatMap.mp hfile
    exact filter_of_mem_visited hfile
  · cases hfile

end Load

end Walk

/-! ## The files that are there -/

section Below

variable {tree : Tree} {readdir : CString → List CString} {path root : CString}
variable {filter : CString → Bool}

/-- The files in the directories below the root. -/
def filesBelow (tree : Tree) (readdir : CString → List CString) (root : CString) : List CString :=
  if tree.isDir root then
    (listed readdir root tree.isDir).flatMap fun dir => listed readdir dir tree.isFile
  else []

theorem joinedPath_eq {name : CString} (hshort : strlen (slash path name) < 256) :
    joinedPath path name = slash path name := by
  rw [joinedPath, List.take_of_length_le (Nat.le_of_lt_succ hshort), ofBuffer_bytes]

/-- The names of a directory whose paths are cut. -/
def Cut (readdir : CString → List CString) (path name : CString) : Prop :=
  name ∈ readdir path ∧ name ≠ dot ∧ name ≠ dotDot ∧ 256 ≤ strlen (slash path name)

/-- The path of the root leaves room for names; and where the path of a name is
cut, neither the whole path nor what is left of it is a directory with files (in
the root), or a file (in a directory of the root). -/
structure PathsFit (tree : Tree) (readdir : CString → List CString) (root : CString) : Prop where
  names : RootFits tree readdir root
  dirs : tree.isDir root = true → ∀ name, Cut readdir root name →
    (tree.isDir (slash root name) = true →
      listed readdir (slash root name) tree.isFile = []) ∧
    (tree.isDir (joinedPath root name) = true →
      visited readdir (joinedPath root name) tree.isFile = [])
  files : tree.isDir root = true → ∀ dir ∈ listed readdir root tree.isDir, strlen dir < 256 →
    ∀ name, Cut readdir dir name →
      tree.isFile (slash dir name) = false ∧ tree.isFile (joinedPath dir name) = false

/-! ### Lists that are made piece by piece -/

section Pieces

variable {A B : Type} {values : List A} {left right : A → List B}

theorem length_flatMap_le (hle : ∀ value ∈ values, (left value).length ≤ (right value).length) :
    (values.flatMap left).length ≤ (values.flatMap right).length := by
  induction values with
  | nil => rfl
  | cons value values ih =>
      have hfirst := hle value (List.mem_cons_self ..)
      have hrest := ih fun other hother => hle other (List.mem_cons_of_mem _ hother)
      rw [List.flatMap_cons, List.flatMap_cons, List.length_append, List.length_append]
      omega

/-- Equal lists have equal pieces, where those of the one are no longer than those
of the other. -/
theorem pieces_eq_of_flatMap_eq (heq : values.flatMap left = values.flatMap right)
    (hle : ∀ value ∈ values, (left value).length ≤ (right value).length) :
    ∀ value ∈ values, left value = right value := by
  induction values with
  | nil => simp
  | cons value values ih =>
      rw [List.flatMap_cons, List.flatMap_cons] at heq
      have hfirst := hle value (List.mem_cons_self ..)
      have hothers : ∀ other ∈ values, (left other).length ≤ (right other).length :=
        fun other hother => hle other (List.mem_cons_of_mem _ hother)
      have hrest := length_flatMap_le hothers
      have hlength := congrArg List.length heq
      rw [List.length_append, List.length_append] at hlength
      obtain ⟨hvalue, hvalues⟩ := List.append_inj heq (by omega)
      rintro other hother
      rcases List.mem_cons.mp hother with rfl | hother
      · exact hvalue
      · exact ih hvalues hothers other hother

theorem flatMap_filter_map {C : Type} (join : A → B) (keep : B → Bool) (parts : B → List C) :
    ((values.map join).filter keep).flatMap parts =
      values.flatMap fun value => if keep (join value) then parts (join value) else [] := by
  induction values with
  | nil => rfl
  | cons value values ih =>
      rw [List.map_cons, List.filter_cons, List.flatMap_cons, ← ih]
      split_ifs
      · rw [List.flatMap_cons]
      · rfl

theorem filter_map_eq_flatMap (join : A → B) (keep : B → Bool) :
    (values.map join).filter keep =
      values.flatMap fun value => if keep (join value) then [join value] else [] :=
  (List.flatMap_singleton' _).symm.trans (flatMap_filter_map join keep fun value => [value])

end Pieces

/-! ### One directory -/

theorem mem_names_iff {name : CString} :
    name ∈ (readdir path).filter (fun name => name ≠ dot ∧ name ≠ dotDot) ↔
      name ∈ readdir path ∧ name ≠ dot ∧ name ≠ dotDot := by
  rw [List.mem_filter, decide_eq_true_eq]

theorem cut_or_short {name : CString}
    (hname : name ∈ (readdir path).filter fun name => name ≠ dot ∧ name ≠ dotDot) :
    Cut readdir path name ∨ joinedPath path name = slash path name := by
  obtain ⟨hmem, hdot, hdotDot⟩ := mem_names_iff.mp hname
  rcases Nat.lt_or_ge (strlen (slash path name)) 256 with hshort | hlong
  · exact Or.inr (joinedPath_eq hshort)
  · exact Or.inl ⟨hmem, hdot, hdotDot, hlong⟩

theorem Cut.mem_names {name : CString} (hcut : Cut readdir path name) :
    name ∈ (readdir path).filter fun name => name ≠ dot ∧ name ≠ dotDot :=
  mem_names_iff.mpr ⟨hcut.1, hcut.2.1, hcut.2.2.1⟩

theorem slash_mem_listed {name : CString}
    (hname : name ∈ (readdir path).filter fun name => name ≠ dot ∧ name ≠ dotDot)
    (hfilter : filter (slash path name) = true) :
    slash path name ∈ listed readdir path filter :=
  List.mem_filter.mpr ⟨List.mem_map_of_mem hname, hfilter⟩

theorem exists_name_of_mem_listed {entry : CString} (hentry : entry ∈ listed readdir path filter) :
    ∃ name ∈ (readdir path).filter (fun name => name ≠ dot ∧ name ≠ dotDot),
      entry = slash path name := by
  obtain ⟨name, hname, rfl⟩ := List.mem_map.mp (List.mem_of_mem_filter hentry)
  exact ⟨name, hname, rfl⟩

/-- No whole path that is cut is admitted, so each admitted one is visited. -/
theorem length_piece_le
    (hwhole : ∀ name, Cut readdir path name → filter (slash path name) = false) {name : CString}
    (hname : name ∈ (readdir path).filter fun name => name ≠ dot ∧ name ≠ dotDot) :
    (if filter (slash path name) then [slash path name] else []).length ≤
      (if filter (joinedPath path name) then [joinedPath path name] else []).length := by
  rcases cut_or_short hname with hcut | hsame
  · rw [hwhole name hcut]
    exact Nat.zero_le _
  · rw [hsame]

theorem length_listed_le
    (hwhole : ∀ name, Cut readdir path name → filter (slash path name) = false) :
    (listed readdir path filter).length ≤ (visited readdir path filter).length := by
  rw [listed, visited, filter_map_eq_flatMap, filter_map_eq_flatMap]
  exact length_flatMap_le fun name => length_piece_le hwhole

/-- What is visited is what is there exactly where no path that is cut is
admitted. -/
theorem listed_eq_visited_iff
    (hwhole : ∀ name, Cut readdir path name → filter (slash path name) = false) :
    listed readdir path filter = visited readdir path filter ↔
      ∀ name, Cut readdir path name → filter (joinedPath path name) = false := by
  rw [listed, visited, filter_map_eq_flatMap, filter_map_eq_flatMap]
  constructor
  · intro heq name hcut
    have hpiece := pieces_eq_of_flatMap_eq heq (fun name => length_piece_le hwhole) name
      hcut.mem_names
    rw [hwhole name hcut, if_neg Bool.false_ne_true] at hpiece
    by_contra hjoined
    rw [if_pos (Bool.not_eq_false _ ▸ hjoined)] at hpiece
    cases hpiece
  · intro hcuts
    apply List.flatMap_congr
    intro name hname
    rcases cut_or_short hname with hcut | hsame
    · rw [hwhole name hcut, hcuts name hcut]
      rfl
    · rw [hsame]

/-! ### All directories -/

/-- The files below one name of the root. -/
def filesAt (tree : Tree) (readdir : CString → List CString) (root name : CString) :
    List CString :=
  if tree.isDir (slash root name) then listed readdir (slash root name) tree.isFile else []

/-- The files that are met below one name of the root. -/
def visitedAt (tree : Tree) (readdir : CString → List CString) (root name : CString) :
    List CString :=
  if tree.isDir (joinedPath root name) then visited readdir (joinedPath root name) tree.isFile
  else []

theorem filesBelow_eq (hdir : tree.isDir root = true) :
    filesBelow tree readdir root =
      ((readdir root).filter fun name => name ≠ dot ∧ name ≠ dotDot).flatMap
        (filesAt tree readdir root) := by
  rw [filesBelow, if_pos hdir, listed, flatMap_filter_map]
  rfl

theorem visitedFiles_eq (hdir : tree.isDir root = true) :
    visitedFiles tree readdir root =
      ((readdir root).filter fun name => name ≠ dot ∧ name ≠ dotDot).flatMap
        (visitedAt tree readdir root) := by
  rw [visitedFiles, if_pos hdir, visited, flatMap_filter_map]
  rfl

theorem strlen_lt_of_mem_visitedFiles {file : CString}
    (hfile : file ∈ visitedFiles tree readdir root) : strlen file < 256 := by
  rw [visitedFiles] at hfile
  split_ifs at hfile
  · obtain ⟨dir, _, hfile⟩ := List.mem_flatMap.mp hfile
    exact Nat.lt_succ_of_le (strlen_le_of_mem_visited hfile)
  · cases hfile

/-- No file is there whose path is cut. -/
def NoLongFile (tree : Tree) (readdir : CString → List CString) (root : CString) : Prop :=
  ∀ file ∈ filesBelow tree readdir root, strlen file < 256

section NoLongFile

variable {name : CString}

theorem NoLongFile.filesAt_eq_nil (hshort : NoLongFile tree readdir root)
    (hdir : tree.isDir root = true) (hcut : Cut readdir root name) :
    filesAt tree readdir root name = [] := by
  rw [List.eq_nil_iff_forall_not_mem]
  intro file hfile
  have hbelow : file ∈ filesBelow tree readdir root := by
    rw [filesBelow_eq hdir, List.mem_flatMap]
    exact ⟨name, hcut.mem_names, hfile⟩
  rw [filesAt] at hfile
  split_ifs at hfile
  · obtain ⟨other, _, rfl⟩ := exists_name_of_mem_listed hfile
    have hlength := hshort _ hbelow
    have hlong := hcut.2.2.2
    rw [strlen_slash] at hlength
    omega
  · cases hfile

theorem NoLongFile.isFile_eq_false (hshort : NoLongFile tree readdir root)
    (hdir : tree.isDir root = true) {dir : CString} (hlisted : dir ∈ listed readdir root tree.isDir)
    (hcut : Cut readdir dir name) : tree.isFile (slash dir name) = false := by
  by_contra hfile
  have hbelow : slash dir name ∈ filesBelow tree readdir root := by
    rw [filesBelow, if_pos hdir, List.mem_flatMap]
    exact ⟨dir, hlisted, slash_mem_listed hcut.mem_names (Bool.not_eq_false _ ▸ hfile)⟩
  have hlength := hshort _ hbelow
  have hlong := hcut.2.2.2
  omega

theorem NoLongFile.length_filesAt_le (hshort : NoLongFile tree readdir root)
    (hdir : tree.isDir root = true)
    (hname : name ∈ (readdir root).filter fun name => name ≠ dot ∧ name ≠ dotDot) :
    (filesAt tree readdir root name).length ≤ (visitedAt tree readdir root name).length := by
  rcases cut_or_short hname with hcut | hsame
  · rw [hshort.filesAt_eq_nil hdir hcut]
    exact Nat.zero_le _
  · rw [filesAt, visitedAt, hsame]
    split_ifs with hisDir
    · exact length_listed_le fun other hcut =>
        hshort.isFile_eq_false hdir (slash_mem_listed hname hisDir) hcut
    · rfl

end NoLongFile

/-- Where no cut path matters, what is met of a name is what is there. -/
theorem PathsFit.visitedAt_eq (hfits : PathsFit tree readdir root) (hdir : tree.isDir root = true)
    {name : CString} (hname : name ∈ (readdir root).filter fun name => name ≠ dot ∧ name ≠ dotDot) :
    visitedAt tree readdir root name = filesAt tree readdir root name := by
  rcases cut_or_short hname with hcut | hsame
  · obtain ⟨hwhole, hjoined⟩ := hfits.dirs hdir name hcut
    rw [visitedAt, filesAt]
    split_ifs with hcutDir hwholeDir hwholeDir
    · rw [hwhole hwholeDir, hjoined hcutDir]
    · exact hjoined hcutDir
    · exact (hwhole hwholeDir).symm
    · rfl
  · rw [visitedAt, filesAt, hsame]
    split_ifs with hisDir
    · have hlisted := slash_mem_listed hname hisDir
      have hshort : strlen (slash root name) < 256 := by
        rw [← hsame]
        exact Nat.lt_succ_of_le (strlen_joinedPath_le root name)
      have hcuts := hfits.files hdir _ hlisted hshort
      exact ((listed_eq_visited_iff fun other hcut => (hcuts other hcut).1).mpr
        fun other hcut => (hcuts other hcut).2).symm
    · rfl

theorem PathsFit.visitedFiles_eq_filesBelow (hfits : PathsFit tree readdir root) :
    visitedFiles tree readdir root = filesBelow tree readdir root := by
  by_cases hdir : tree.isDir root = true
  · rw [visitedFiles_eq hdir, filesBelow_eq hdir]
    exact List.flatMap_congr fun name hname => hfits.visitedAt_eq hdir hname
  · rw [visitedFiles, filesBelow, if_neg hdir, if_neg hdir]

/-- Where what is met is what is there, so it is for each name: no path that is
there is overlong. -/
theorem pathsFit_of_visitedFiles_eq (hnames : RootFits tree readdir root)
    (heq : visitedFiles tree readdir root = filesBelow tree readdir root) :
    PathsFit tree readdir root := by
  have hshort : NoLongFile tree readdir root := by
    intro file hfile
    rw [← heq] at hfile
    exact strlen_lt_of_mem_visitedFiles hfile
  have hpieces : tree.isDir root = true →
      ∀ name ∈ (readdir root).filter (fun name => name ≠ dot ∧ name ≠ dotDot),
        filesAt tree readdir root name = visitedAt tree readdir root name := by
    intro hdir
    rw [visitedFiles_eq hdir, filesBelow_eq hdir] at heq
    exact pieces_eq_of_flatMap_eq heq.symm fun name => hshort.length_filesAt_le hdir
  refine ⟨hnames, fun hdir name hcut => ?_, fun hdir dir hlisted hlong name hcut => ?_⟩
  · have hwhole := hshort.filesAt_eq_nil hdir hcut
    have hjoined := hpieces hdir name hcut.mem_names
    rw [hwhole] at hjoined
    refine ⟨fun hwholeDir => ?_, fun hcutDir => ?_⟩
    · rwa [filesAt, if_pos hwholeDir] at hwhole
    · rw [visitedAt, if_pos hcutDir] at hjoined
      exact hjoined.symm
  · have hwhole := fun other hcut => @hshort.isFile_eq_false _ _ _ other hdir dir hlisted hcut
    refine ⟨hwhole name hcut, ?_⟩
    have hisDir : tree.isDir dir = true := (List.mem_filter.mp hlisted).2
    obtain ⟨parent, hparent, rfl⟩ := exists_name_of_mem_listed hlisted
    have hsame := hpieces hdir parent hparent
    rw [filesAt, visitedAt, joinedPath_eq hlong, if_pos hisDir, if_pos hisDir] at hsame
    exact (listed_eq_visited_iff hwhole).mp hsame name hcut

/-- The files that are met are those that are there exactly where the paths
fit. -/
theorem pathsFit_iff :
    PathsFit tree readdir root ↔
      RootFits tree readdir root ∧
        visitedFiles tree readdir root = filesBelow tree readdir root :=
  ⟨fun hfits => ⟨hfits.names, hfits.visitedFiles_eq_filesBelow⟩,
    fun ⟨hnames, heq⟩ => pathsFit_of_visitedFiles_eq hnames heq⟩

/-- Paths of two levels below the root fit into the buffer of `path_join`. -/
structure Untruncated (root : CString) (tree : Tree) : Prop where
  entries : strlen root + 58 < 256
  dirs : ShortEntries tree root
  files : ∀ name, ShortEntries tree (slash root name)

/-- Of short entries no path is cut. -/
theorem not_cut_of_shortEntries (hlists : tree.Lists readdir) (hshort : ShortEntries tree path)
    (name : CString) : ¬ Cut readdir path name := by
  rintro ⟨hmem, hdot, hdotDot, hlong⟩
  obtain ⟨_, hsome⟩ := (hlists.mem_iff hdot hdotDot).mp hmem
  obtain ⟨entry, hentry⟩ := Option.isSome_iff_exists.mp hsome
  have hlength := hshort name entry hentry
  omega

/-- The paths fit where the tree has no overlong one. -/
theorem pathsFit_of_untruncated (hlists : tree.Lists readdir) (hshort : Untruncated root tree) :
    PathsFit tree readdir root where
  names := by
    intro _ hlong
    have hentries := hshort.entries
    omega
  dirs := fun _ name hcut => absurd hcut (not_cut_of_shortEntries hlists hshort.dirs name)
  files := by
    intro _ dir hdir _ name hcut
    obtain ⟨parent, _, rfl⟩ := exists_name_of_mem_listed hdir
    exact absurd hcut (not_cut_of_shortEntries hlists (hshort.files parent) name)

end Below

end I2pLite.VisitedFiles
