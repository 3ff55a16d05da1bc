import I2pLite.Core.FileSystem

/-!
# Making directories

A directory is made where nothing stands and the directory above is there,
unless the system denies it.  A list of directories is ensured by making what is
missing, one after the other, up to the first that cannot be made; what is there
is never touched.
-/

namespace I2pLite.Directories

open I2pLite.CBytes
open I2pLite.FileSystem

/-- The tree with a directory at a path where nothing stands. -/
def addDir (tree : Tree) (path : CString) : Tree :=
  if hpath : path.bytes = [] ∨ path ∈ tree.entries.map Prod.fst then tree
  else {
    entries := (path, .dir) :: tree.entries
    distinct := List.nodup_cons.mpr ⟨(not_or.mp hpath).2, tree.distinct⟩
    named := List.forall_mem_cons.mpr ⟨(not_or.mp hpath).1, tree.named⟩ }

/-- What is above the path is a directory. -/
def parentThere (tree : Tree) (path : CString) : Bool :=
  match parentOf path with
  | some parent => parent.bytes = [] || tree.isDir parent
  | none => true

/-- Nothing stands at the path, and the system lets a directory be made. -/
def canMake (denied : CString → Bool) (tree : Tree) (path : CString) : Bool :=
  (tree.lookup path).isNone && path.bytes ≠ [] && parentThere tree path && !denied path

/-- `mkdir`. -/
def mkdir (denied : CString → Bool) (tree : Tree) (path : CString) : Option Tree :=
  if canMake denied tree path then some (addDir tree path) else none

/-- Whether all directories are there or made, and the tree then. -/
def ensureAll (denied : CString → Bool) : List CString → Tree → Bool × Tree
  | [], tree => (true, tree)
  | path :: paths, tree =>
      if (tree.lookup path).isSome then ensureAll denied paths tree
      else
        match mkdir denied tree path with
        | some tree => ensureAll denied paths tree
        | none => (false, tree)

section Lookup

variable {tree : Tree} {path other : CString}

theorem mem_entries_iff : path ∈ tree.entries.map Prod.fst ↔ (tree.lookup path).isSome := by
  rw [List.mem_map, Option.isSome_iff_exists]
  constructor
  · rintro ⟨⟨_, entry⟩, hentry, rfl⟩
    exact ⟨entry, Tree.lookup_eq_some_iff.mpr hentry⟩
  · rintro ⟨entry, hentry⟩
    exact ⟨(path, entry), Tree.lookup_eq_some_iff.mp hentry, rfl⟩

theorem lookup_addDir (hpath : path.bytes ≠ []) (hnone : tree.lookup path = none) :
    (addDir tree path).lookup other = if other = path then some .dir else tree.lookup other := by
  have hnew : ¬(path.bytes = [] ∨ path ∈ tree.entries.map Prod.fst) := by
    rw [mem_entries_iff, hnone]
    simpa using hpath
  rw [addDir, dif_neg hnew, Tree.lookup, Tree.lookup, List.find?_cons]
  by_cases heq : other = path
  · simp [heq]
  · simp [heq, Ne.symm heq]

theorem mkdir_eq_some_iff {denied : CString → Bool} {tree' : Tree} :
    mkdir denied tree path = some tree' ↔
      canMake denied tree path = true ∧ tree' = addDir tree path := by
  rw [mkdir]
  split_ifs with hmake
  · simp [hmake, eq_comm]
  · simp [hmake]

theorem canMake_iff {denied : CString → Bool} :
    canMake denied tree path = true ↔ tree.lookup path = none ∧ path.bytes ≠ [] ∧
      parentThere tree path = true ∧ denied path = false := by
  simp [canMake, and_assoc]

theorem lookup_mkdir {denied : CString → Bool} {tree' : Tree}
    (hmkdir : mkdir denied tree path = some tree') (other : CString) :
    tree'.lookup other = if other = path then some .dir else tree.lookup other := by
  obtain ⟨hmake, rfl⟩ := mkdir_eq_some_iff.mp hmkdir
  obtain ⟨hnone, hpath, _, _⟩ := canMake_iff.mp hmake
  exact lookup_addDir hpath hnone

/-- What was there is there. -/
theorem lookup_mkdir_of_some {denied : CString → Bool} {tree' : Tree} {entry : Entry}
    (hmkdir : mkdir denied tree path = some tree') (hentry : tree.lookup other = some entry) :
    tree'.lookup other = some entry := by
  have hne : other ≠ path := by
    rintro rfl
    have hnone := (canMake_iff.mp (mkdir_eq_some_iff.mp hmkdir).1).1
    rw [hnone] at hentry
    cases hentry
  rw [lookup_mkdir hmkdir, if_neg hne, hentry]

theorem parentThere_of_lookup {tree' : Tree}
    (hkept : ∀ other, tree.lookup other = some .dir → tree'.lookup other = some .dir)
    (hparent : parentThere tree path = true) : parentThere tree' path = true := by
  rw [parentThere] at hparent ⊢
  cases hpath : parentOf path with
  | none => rfl
  | some parent =>
      simp only [hpath, Bool.or_eq_true, Tree.isDir_iff] at hparent ⊢
      exact hparent.imp_right (hkept parent)

end Lookup

section Ensure

variable {denied : CString → Bool} {tree : Tree} {paths : List CString} {path : CString}

theorem ensureAll_cons_there (hthere : (tree.lookup path).isSome) :
    ensureAll denied (path :: paths) tree = ensureAll denied paths tree := by
  rw [ensureAll, if_pos hthere]

theorem ensureAll_cons_made {tree' : Tree} (hmkdir : mkdir denied tree path = some tree') :
    ensureAll denied (path :: paths) tree = ensureAll denied paths tree' := by
  have hnone := (canMake_iff.mp (mkdir_eq_some_iff.mp hmkdir).1).1
  rw [ensureAll, hnone, if_neg (by simp), hmkdir]

theorem ensureAll_cons_failed (hnone : tree.lookup path = none)
    (hmkdir : mkdir denied tree path = none) :
    ensureAll denied (path :: paths) tree = (false, tree) := by
  rw [ensureAll, hnone, if_neg (by simp), hmkdir]

/-- The first path is there, or it is made, or it is where the run stops. -/
theorem ensureAll_cons_cases (denied : CString → Bool) (path : CString) (paths : List CString)
    (tree : Tree) :
    ((tree.lookup path).isSome ∧
        ensureAll denied (path :: paths) tree = ensureAll denied paths tree) ∨
      (∃ tree', mkdir denied tree path = some tree' ∧
        ensureAll denied (path :: paths) tree = ensureAll denied paths tree') ∨
      (tree.lookup path = none ∧ mkdir denied tree path = none ∧
        ensureAll denied (path :: paths) tree = (false, tree)) := by
  by_cases hthere : (tree.lookup path).isSome = true
  · exact Or.inl ⟨hthere, ensureAll_cons_there hthere⟩
  · have hnone : tree.lookup path = none := by simpa using hthere
    cases hmkdir : mkdir denied tree path with
    | none => exact Or.inr (Or.inr ⟨hnone, rfl, ensureAll_cons_failed hnone hmkdir⟩)
    | some tree' => exact Or.inr (Or.inl ⟨tree', rfl, ensureAll_cons_made hmkdir⟩)

/-- Nothing is lost on the way. -/
theorem lookup_ensureAll_of_some {entry : Entry} {other : CString}
    (hentry : tree.lookup other = some entry) :
    (ensureAll denied paths tree).2.lookup other = some entry := by
  induction paths generalizing tree with
  | nil => exact hentry
  | cons path paths ih =>
      rcases ensureAll_cons_cases denied path paths tree with
        ⟨_, hrun⟩ | ⟨tree', hmkdir, hrun⟩ | ⟨_, _, hrun⟩
      · rw [hrun]
        exact ih hentry
      · rw [hrun]
        exact ih (lookup_mkdir_of_some hmkdir hentry)
      · rw [hrun]
        exact hentry

/-- Ensuring the directories once more changes nothing and comes to the same
end. -/
theorem ensureAll_again (denied : CString → Bool) (paths : List CString) (tree : Tree) :
    ensureAll denied paths (ensureAll denied paths tree).2 = ensureAll denied paths tree := by
  induction paths generalizing tree with
  | nil => rfl
  | cons path paths ih =>
      -- a path that is there before the rest is still there behind it
      have hpassed : ∀ next : Tree, (next.lookup path).isSome →
          ensureAll denied (path :: paths) (ensureAll denied paths next).2 =
            ensureAll denied paths next := by
        intro next hnext
        obtain ⟨entry, hentry⟩ := Option.isSome_iff_exists.mp hnext
        have hkept := @lookup_ensureAll_of_some denied next paths entry path hentry
        calc ensureAll denied (path :: paths) (ensureAll denied paths next).2
            = ensureAll denied paths (ensureAll denied paths next).2 :=
              ensureAll_cons_there (Option.isSome_of_eq_some hkept)
          _ = ensureAll denied paths next := ih next
      rcases ensureAll_cons_cases denied path paths tree with
        ⟨hthere, hrun⟩ | ⟨tree', hmkdir, hrun⟩ | ⟨_, _, hrun⟩
      · rw [hrun]
        exact hpassed tree hthere
      · have hmade : tree'.lookup path = some .dir := by
          rw [lookup_mkdir hmkdir, if_pos rfl]
        rw [hrun]
        exact hpassed tree' (Option.isSome_of_eq_some hmade)
      · rw [hrun, hrun]

/-- A path that is there, or that the system lets a directory be made at. -/
def obtainable (denied : CString → Bool) (tree : Tree) (path : CString) : Bool :=
  (tree.lookup path).isSome || !denied path

theorem obtainable_of_there (hthere : (tree.lookup path).isSome) :
    obtainable denied tree path = true := by
  rw [obtainable, hthere, Bool.true_or]

/-- A directory that has been made was one that could be had. -/
theorem obtainable_addDir (hmkdir : mkdir denied tree path = some (addDir tree path)) :
    obtainable denied (addDir tree path) = obtainable denied tree := by
  funext other
  rw [obtainable, lookup_mkdir hmkdir, obtainable]
  by_cases heq : other = path
  · have hgranted := (canMake_iff.mp (mkdir_eq_some_iff.mp hmkdir).1).2.2.2
    simp [heq, hgranted]
  · rw [if_neg heq]

/-- Where the directory above is there, only the system can stand in the way. -/
theorem denied_of_mkdir (hnone : tree.lookup path = none) (hpath : path.bytes ≠ [])
    (hparent : parentThere tree path = true) (hmkdir : mkdir denied tree path = none) :
    denied path = true := by
  by_contra hgranted
  have hmake : canMake denied tree path = true :=
    canMake_iff.mpr ⟨hnone, hpath, hparent, eq_false_of_ne_true hgranted⟩
  rw [mkdir, if_pos hmake] at hmkdir
  cases hmkdir

/-- Where the directories above are there, the run stops at the first path that
is neither there nor granted, and has made what was missing before it. -/
theorem ensureAll_eq (hparents : ∀ path ∈ paths, path.bytes ≠ [] ∧ parentThere tree path = true) :
    (ensureAll denied paths tree).1 = paths.all (obtainable denied tree) ∧
      ∀ other, (ensureAll denied paths tree).2.lookup other =
        if tree.lookup other = none ∧ other ∈ paths.takeWhile (obtainable denied tree) then
          some .dir
        else tree.lookup other := by
  induction paths generalizing tree with
  | nil => simp [ensureAll]
  | cons path paths ih =>
      obtain ⟨⟨hne, hparent⟩, hrest⟩ := List.forall_mem_cons.mp hparents
      rcases ensureAll_cons_cases denied path paths tree with
        ⟨hthere, hrun⟩ | ⟨tree', hmkdir, hrun⟩ | ⟨hnone, hmkdir, hrun⟩
      · have hobtainable := @obtainable_of_there denied tree path hthere
        obtain ⟨hfirst, hlookup⟩ := ih hrest
        rw [hrun, List.all_cons, hobtainable, Bool.true_and,
          List.takeWhile_cons_of_pos hobtainable]
        refine ⟨hfirst, fun other => ?_⟩
        rw [hlookup]
        by_cases heq : other = path
        · have hsome : tree.lookup other ≠ none := by
            rw [heq]
            exact Option.isSome_iff_ne_none.mp hthere
          simp [hsome]
        · simp [heq]
      · obtain ⟨hmake, rfl⟩ := mkdir_eq_some_iff.mp hmkdir
        obtain ⟨hnone, _, _, hgranted⟩ := canMake_iff.mp hmake
        have hparents' : ∀ other ∈ paths, other.bytes ≠ [] ∧
            parentThere (addDir tree path) other = true := fun other hother =>
          ⟨(hrest other hother).1, parentThere_of_lookup
            (fun _ => lookup_mkdir_of_some hmkdir) (hrest other hother).2⟩
        have hobtainable : obtainable denied tree path = true := by
          simp [obtainable, hgranted]
        obtain ⟨hfirst, hlookup⟩ := ih hparents'
        rw [obtainable_addDir hmkdir] at hfirst hlookup
        rw [hrun, List.all_cons, hobtainable, Bool.true_and,
          List.takeWhile_cons_of_pos hobtainable]
        refine ⟨hfirst, fun other => ?_⟩
        rw [hlookup, lookup_mkdir hmkdir]
        by_cases heq : other = path
        · simp [heq, hnone]
        · simp [heq]
      · have hobtainable : ¬obtainable denied tree path = true := by
          simp [obtainable, hnone, denied_of_mkdir hnone hne hparent hmkdir]
        rw [hrun, List.takeWhile_cons_of_neg hobtainable]
        simp [hobtainable]

end Ensure

end I2pLite.Directories
