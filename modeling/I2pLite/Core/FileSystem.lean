import Mathlib.Data.List.Infix
import Mathlib.Data.List.Nodup
import Mathlib.Data.List.Perm.Basic
import I2pLite.Core.CBytes

/-!
# A tree of directories and files

Entries are found by the string of their path: there are no links, and no two
spellings of one path.  The names in a directory are listed in any order, `.`
and `..` among them.
-/

namespace I2pLite.FileSystem

open I2pLite.CBytes

inductive Entry
  | dir
  | file (bytes : List Byte)
  deriving DecidableEq

/-! ## Paths -/

theorem noNul_slash (path name : CString) :
    ∀ byte ∈ path.bytes ++ ch '/' :: name.bytes, byte ≠ 0 := by
  intro byte hbyte
  rcases List.mem_append.mp hbyte with hbyte | hbyte
  · exact path.noNul byte hbyte
  · rcases List.mem_cons.mp hbyte with rfl | hbyte
    · decide
    · exact name.noNul byte hbyte

/-- The path of a name in a directory. -/
def slash (path name : CString) : CString where
  bytes := path.bytes ++ ch '/' :: name.bytes
  noNul := noNul_slash path name

def dot : CString := ofBuffer [ch '.']

def dotDot : CString := ofBuffer [ch '.', ch '.']

/-- What an entry of a directory can be called. -/
def IsName (name : CString) : Prop :=
  name.bytes ≠ [] ∧ ch '/' ∉ name.bytes ∧ name ≠ dot ∧ name ≠ dotDot

instance (name : CString) : Decidable (IsName name) := inferInstanceAs (Decidable (_ ∧ _))

def dropBytes (path : CString) (count : ℕ) : CString where
  bytes := path.bytes.drop count
  noNul := fun byte hbyte => path.noNul byte (List.mem_of_mem_drop hbyte)

/-- The name of a path in a directory, if it is the path of an entry there. -/
def childName (directory path : CString) : Option CString :=
  let name := dropBytes path (directory.bytes.length + 1)
  if path = slash directory name ∧ IsName name then some name else none

theorem noNul_beforeSlash (path : CString) :
    ∀ byte ∈ (path.bytes.reverse.dropWhile (· ≠ ch '/')).tail.reverse, byte ≠ 0 := by
  intro byte hbyte
  have htail := List.mem_of_mem_tail (List.mem_reverse.mp hbyte)
  exact path.noNul byte (List.mem_reverse.mp ((List.dropWhile_suffix _).mem htail))

/-- What stands before the last slash. -/
def parentOf (path : CString) : Option CString :=
  if ch '/' ∈ path.bytes then
    some ⟨(path.bytes.reverse.dropWhile (· ≠ ch '/')).tail.reverse, noNul_beforeSlash path⟩
  else none

theorem slash_bytes (path name : CString) :
    (slash path name).bytes = path.bytes ++ ch '/' :: name.bytes := rfl

theorem bytes_injective {path path' : CString} (hbytes : path.bytes = path'.bytes) :
    path = path' := by
  obtain ⟨bytes, hnoNul⟩ := path
  obtain rfl : bytes = path'.bytes := hbytes
  rfl

theorem strlen_slash (path name : CString) :
    strlen (slash path name) = strlen path + 1 + strlen name := by
  rw [strlen, slash_bytes, List.length_append, List.length_cons, strlen, strlen]
  omega

theorem slash_ne_nil (path name : CString) : (slash path name).bytes ≠ [] := by
  rw [slash_bytes]
  simp

theorem slash_ne_self (path name : CString) : slash path name ≠ path := by
  intro heq
  have hlength := congrArg strlen heq
  rw [strlen_slash] at hlength
  omega

theorem slash_assoc (path name below : CString) :
    slash (slash path name) below = slash path (slash name below) := by
  apply bytes_injective
  rw [slash_bytes, slash_bytes, slash_bytes, slash_bytes, List.append_assoc, List.cons_append]

theorem slash_injective_right {path name name' : CString}
    (hslash : slash path name = slash path name') : name = name' := by
  have hbytes := congrArg CString.bytes hslash
  rw [slash_bytes, slash_bytes] at hbytes
  exact bytes_injective (List.cons.inj (List.append_cancel_left hbytes)).2

theorem dropBytes_slash (path name : CString) :
    dropBytes (slash path name) (path.bytes.length + 1) = name := by
  apply bytes_injective
  change List.drop _ (path.bytes ++ _) = _
  rw [List.drop_length_add_append]
  rfl

theorem childName_eq_some_iff {directory path name : CString} :
    childName directory path = some name ↔ path = slash directory name ∧ IsName name := by
  rw [childName]
  constructor
  · intro hchild
    split_ifs at hchild with hname
    obtain rfl := Option.some.inj hchild
    exact hname
  · rintro ⟨rfl, hname⟩
    rw [dropBytes_slash, if_pos ⟨rfl, hname⟩]

theorem parentOf_slash {path name : CString} (hname : ch '/' ∉ name.bytes) :
    parentOf (slash path name) = some path := by
  have hreverse : (slash path name).bytes.reverse =
      name.bytes.reverse ++ ch '/' :: path.bytes.reverse := by
    rw [slash_bytes]
    simp
  rw [parentOf, if_pos (by rw [slash_bytes]; simp)]
  refine congrArg some (bytes_injective ?_)
  change ((slash path name).bytes.reverse.dropWhile _).tail.reverse = path.bytes
  rw [hreverse, List.dropWhile_append_of_pos, List.dropWhile_cons_of_neg (by simp)]
  · simp
  · intro byte hbyte
    have hne : byte ≠ ch '/' := by
      rintro rfl
      exact hname (List.mem_reverse.mp hbyte)
    simpa using hne

/-! ## Trees -/

/-- The entries of a tree under their paths. -/
structure Tree where
  entries : List (CString × Entry)
  distinct : (entries.map Prod.fst).Nodup
  named : ∀ path ∈ entries.map Prod.fst, path.bytes ≠ []

def Tree.lookup (tree : Tree) (path : CString) : Option Entry :=
  (tree.entries.find? fun entry => entry.1 = path).map Prod.snd

/-- The names of the entries in a directory. -/
def Tree.names (tree : Tree) (directory : CString) : List CString :=
  tree.entries.filterMap fun entry => childName directory entry.1

/-- The entries with a file in the place of what was there. -/
def putEntry (entries : List (CString × Entry)) (path : CString) (bytes : List Byte) :
    List (CString × Entry) :=
  entries.filter (fun entry => entry.1 ≠ path) ++ [(path, .file bytes)]

theorem distinct_put (tree : Tree) (path : CString) (bytes : List Byte) :
    ((putEntry tree.entries path bytes).map Prod.fst).Nodup := by
  rw [putEntry, List.map_append, List.map_singleton, List.nodup_append_comm, List.singleton_append,
    List.nodup_cons]
  constructor
  · intro hmem
    obtain ⟨entry, hentry, hpath⟩ := List.mem_map.mp hmem
    have hne := (List.mem_filter.mp hentry).2
    simp [hpath] at hne
  · exact tree.distinct.sublist ((List.filter_sublist).map Prod.fst)

theorem named_put (tree : Tree) {path : CString} (bytes : List Byte) (hpath : path.bytes ≠ []) :
    ∀ other ∈ (putEntry tree.entries path bytes).map Prod.fst, other.bytes ≠ [] := by
  intro other hother
  rw [putEntry, List.map_append, List.map_singleton, List.mem_append, List.mem_singleton] at hother
  rcases hother with hother | rfl
  · exact tree.named other (((List.filter_sublist).map Prod.fst).mem hother)
  · exact hpath

/-- The tree with a file of these bytes at the path. -/
def Tree.put (tree : Tree) (path : CString) (bytes : List Byte) : Tree :=
  if hpath : path.bytes = [] then tree
  else {
    entries := putEntry tree.entries path bytes
    distinct := distinct_put tree path bytes
    named := named_put tree bytes hpath }

/-- A listing of every directory, in some order. -/
def Tree.Lists (tree : Tree) (readdir : CString → List CString) : Prop :=
  ∀ path, (readdir path).Perm (dot :: dotDot :: tree.names path)

/-! ## Opening files and directories -/

/-- `opendir` finds a directory. -/
def Tree.isDir (tree : Tree) (path : CString) : Bool := tree.lookup path = some .dir

def Tree.isFile (tree : Tree) (path : CString) : Bool :=
  match tree.lookup path with
  | some (.file _) => true
  | _ => false

/-- `fopen` for reading: the bytes of the file. -/
def Tree.fopenRead (tree : Tree) (path : CString) : Option (List Byte) :=
  match tree.lookup path with
  | some (.file bytes) => some bytes
  | _ => none

/-- A file can be created at the path, or emptied. -/
def Tree.canCreate (tree : Tree) (path : CString) : Bool :=
  !tree.isDir path && path.bytes ≠ [] &&
    match parentOf path with
    | some parent => parent.bytes = [] || tree.isDir parent
    | none => true

/-- `fopen` with mode `w+`. -/
def Tree.fopenWrite (tree : Tree) (path : CString) : Option Tree :=
  if tree.canCreate path then some (tree.put path []) else none

/-! ## What is found where -/

section Lookup

variable {tree : Tree} {path : CString} {entry : Entry}

theorem Tree.lookup_eq_some_iff :
    tree.lookup path = some entry ↔ (path, entry) ∈ tree.entries := by
  rw [lookup, Option.map_eq_some_iff]
  constructor
  · rintro ⟨found, hfound, rfl⟩
    obtain rfl : found.1 = path := by simpa using List.find?_some hfound
    exact List.mem_of_find?_eq_some hfound
  · intro hmem
    cases hfind : tree.entries.find? fun entry => entry.1 = path with
    | none => simpa using List.find?_eq_none.mp hfind _ hmem
    | some found =>
        have hpath : found.1 = path := by simpa using List.find?_some hfind
        have hsame := List.inj_on_of_nodup_map tree.distinct (List.mem_of_find?_eq_some hfind) hmem
          hpath
        exact ⟨found, rfl, congrArg Prod.snd hsame⟩

theorem Tree.ne_nil_of_lookup (hlookup : tree.lookup path = some entry) : path.bytes ≠ [] :=
  tree.named path (List.mem_map.mpr ⟨_, lookup_eq_some_iff.mp hlookup, rfl⟩)

theorem Tree.mem_names_iff {name : CString} :
    name ∈ tree.names path ↔ IsName name ∧ (tree.lookup (slash path name)).isSome := by
  rw [names, List.mem_filterMap]
  constructor
  · rintro ⟨⟨child, entry⟩, hentry, hchild⟩
    obtain ⟨rfl, hname⟩ := childName_eq_some_iff.mp hchild
    exact ⟨hname, by rw [lookup_eq_some_iff.mpr hentry]; rfl⟩
  · rintro ⟨hname, hsome⟩
    obtain ⟨entry, hentry⟩ := Option.isSome_iff_exists.mp hsome
    exact ⟨_, lookup_eq_some_iff.mp hentry, childName_eq_some_iff.mpr ⟨rfl, hname⟩⟩

/-- A listing has the names of what is found in the directory. -/
theorem Tree.Lists.mem_iff {readdir : CString → List CString} (hlists : tree.Lists readdir)
    {name : CString} (hdot : name ≠ dot) (hdotDot : name ≠ dotDot) :
    name ∈ readdir path ↔ IsName name ∧ (tree.lookup (slash path name)).isSome := by
  rw [(hlists path).mem_iff, List.mem_cons, List.mem_cons, or_iff_right hdot,
    or_iff_right hdotDot, mem_names_iff]

theorem Tree.lookup_put_self (bytes : List Byte) (hpath : path.bytes ≠ []) :
    (tree.put path bytes).lookup path = some (.file bytes) := by
  rw [put, dif_neg hpath, lookup_eq_some_iff]
  simp [putEntry]

theorem Tree.lookup_put_of_ne {other : CString} (bytes : List Byte) (hne : other ≠ path) :
    (tree.put path bytes).lookup other = tree.lookup other := by
  by_cases hpath : path.bytes = []
  · rw [put, dif_pos hpath]
  · have hsame : ∀ entry, (tree.put path bytes).lookup other = some entry ↔
        tree.lookup other = some entry := by
      intro entry
      rw [lookup_eq_some_iff, lookup_eq_some_iff, put, dif_neg hpath]
      simp [putEntry, hne]
    exact Option.ext hsame

theorem Tree.isDir_iff : tree.isDir path = true ↔ tree.lookup path = some .dir := by
  rw [isDir, decide_eq_true_iff]

theorem Tree.fopenRead_eq_some_iff {bytes : List Byte} :
    tree.fopenRead path = some bytes ↔ tree.lookup path = some (.file bytes) := by
  rw [fopenRead]
  split
  · simp_all
  · simp_all

theorem Tree.exists_fopenRead (hfile : tree.isFile path = true) :
    ∃ bytes, tree.fopenRead path = some bytes := by
  rw [isFile] at hfile
  split at hfile
  · rename_i bytes hlookup
    exact ⟨bytes, fopenRead_eq_some_iff.mpr hlookup⟩
  · cases hfile

end Lookup

end I2pLite.FileSystem
