import I2pLite.Netdb.FirstWins
import I2pLite.Netdb.Netdb

/-!
# The files of the netdb

Paths that fit into the buffer of `path_join` are joined as a whole.  Then an
entry has a path that no entry with another hash has, and a walk through a
directory meets what is in it.
-/

namespace I2pLite.Files

open I2pLite.CRun
open I2pLite.CBytes
open I2pLite.FileSystem
open I2pLite.Base64
open I2pLite.Hashmap
open I2pLite.Netdb

/-! ## Joined paths -/

theorem strlen_le_foldl_slash (base : CString) (parts : List CString) :
    strlen base ≤ strlen (parts.foldl slash base) := by
  induction parts generalizing base with
  | nil => exact le_rfl
  | cons part parts ih =>
      calc strlen base
          ≤ strlen (slash base part) := by rw [strlen_slash]; omega
        _ ≤ strlen (parts.foldl slash (slash base part)) := ih _

theorem joinParts_eq (path : CString) {parts : List CString}
    (hfits : strlen (parts.foldl slash path) < 256) :
    joinParts path.bytes (strlen path) parts = .ok (parts.foldl slash path).bytes := by
  induction parts generalizing path with
  | nil => rfl
  | cons part parts ih =>
      have hnext := strlen_le_foldl_slash (slash path part) parts
      rw [strlen_slash] at hnext
      have hlong : strlen (parts.foldl slash (slash path part)) < 256 := hfits
      have htext : (ch '/' :: part.bytes).take (255 - strlen path) = ch '/' :: part.bytes := by
        refine List.take_of_length_le ?_
        have hpart : strlen part = part.bytes.length := rfl
        rw [List.length_cons]
        omega
      have hidx : strlen path + (ch '/' :: part.bytes).length = strlen (slash path part) := by
        rw [strlen_slash, List.length_cons, strlen, strlen]
        omega
      rw [joinParts, if_neg (by omega)]
      simp only [htext, hidx]
      exact ih (slash path part) hlong

/-- A path that fits is joined with a slash in front of every part. -/
theorem pathJoin_eq {base : CString} {parts : List CString} (hbase : base.bytes ≠ [])
    (hfits : strlen (parts.foldl slash base) < 256) :
    pathJoin base parts = .ok (parts.foldl slash base) := by
  have hlength := strlen_le_foldl_slash base parts
  have hpos : strlen base ≠ 0 := fun hzero => hbase (List.length_eq_zero_iff.mp hzero)
  have hwhole : base.bytes.take 255 = base.bytes := by
    refine List.take_of_length_le ?_
    have hstrlen : strlen base = base.bytes.length := rfl
    omega
  simp only [pathJoin]
  rw [if_neg hpos, hwhole, joinParts_eq base hfits, ok_bind, ofBuffer_bytes]

/-! ## Walks through a directory -/

/-- The entries of a directory that a filter admits, as they are listed. -/
def listed (readdir : CString → List CString) (path : CString) (filter : CString → Bool) :
    List CString :=
  (((readdir path).filter fun name => name ≠ dot ∧ name ≠ dotDot).map (slash path)).filter filter

section Walk

variable {tree : Tree} {readdir : CString → List CString} {path : CString}
variable {filter : CString → Bool}

theorem mem_listed_iff (hlists : tree.Lists readdir) {entry : CString} :
    entry ∈ listed readdir path filter ↔
      ∃ name, IsName name ∧ entry = slash path name ∧ (tree.lookup entry).isSome ∧
        filter entry = true := by
  rw [listed, List.mem_filter, List.mem_map]
  constructor
  · rintro ⟨⟨name, hname, rfl⟩, hfilter⟩
    obtain ⟨hmem, hdots⟩ := List.mem_filter.mp hname
    obtain ⟨hdot, hdotDot⟩ : name ≠ dot ∧ name ≠ dotDot := by simpa using hdots
    obtain ⟨hisName, hsome⟩ := (hlists.mem_iff hdot hdotDot).mp hmem
    exact ⟨name, hisName, rfl, hsome, hfilter⟩
  · rintro ⟨name, hname, rfl, hsome, hfilter⟩
    refine ⟨⟨name, List.mem_filter.mpr ⟨?_, ?_⟩, rfl⟩, hfilter⟩
    · exact (hlists.mem_iff hname.2.2.1 hname.2.2.2).mpr ⟨hname, hsome⟩
    · simpa using hname.2.2

/-- No entry of the directory has a path too long for the buffer of
`path_join`. -/
def ShortEntries (tree : Tree) (path : CString) : Prop :=
  ∀ name entry, tree.lookup (slash path name) = some entry → strlen (slash path name) < 256

/-- A walk visits the joined paths that the filter admits. -/
theorem iterateAllWithFilter_of_joins {S : Type} {visit : CString → S → Run S} {user : S}
    {join : CString → CString} (hdir : tree.isDir path = true)
    (hjoin : ∀ name ∈ readdir path, name ≠ dot → name ≠ dotDot →
      pathJoin path [name] = .ok (join name)) :
    iterateAllWithFilter tree readdir path filter visit user =
      ((((readdir path).filter fun name => name ≠ dot ∧ name ≠ dotDot).map join).filter
        filter).foldlM (fun user entry => visit entry user) user := by
  rw [iterateAllWithFilter, if_pos hdir]
  generalize readdir path = names at hjoin ⊢
  induction names generalizing user with
  | nil => rfl
  | cons name names ih =>
      have hrest : ∀ user, _ := fun user => @ih user fun other hother =>
        hjoin other (List.mem_cons_of_mem _ hother)
      rw [List.foldlM_cons]
      by_cases hdots : name ≠ dot ∧ name ≠ dotDot
      · rw [if_pos hdots, hjoin name (by simp) hdots.1 hdots.2, ok_bind,
          List.filter_cons_of_pos (by simpa using hdots), List.map_cons, List.filter_cons]
        by_cases hfilter : filter (join name) = true
        · rw [if_pos hfilter, if_pos hfilter, List.foldlM_cons]
          exact congrArg (visit (join name) user >>= ·) (funext hrest)
        · rw [if_neg hfilter, if_neg hfilter, ok_bind]
          exact hrest user
      · rw [if_neg hdots, ok_bind, List.filter_cons_of_neg (by simpa using hdots)]
        exact hrest user

end Walk

/-! ## The path of an entry -/

def nodeR : List Byte := [ch 'n', ch 'o', ch 'd', ch 'e', ch '-', ch 'r']

def dotDat : List Byte := [ch '.', ch 'd', ch 'a', ch 't']

/-- The name of the directory of an entry. -/
def skipName (ident : IdentHash) : CString :=
  ofBuffer [ch 'r', (encodeGroups ident.toList).getD 0 0]

def fileName (ident : IdentHash) : CString :=
  ofBuffer (nodeR ++ encodeGroups ident.toList ++ dotDat)

section EntryPaths

theorem base64Chars_noSlash : ∀ byte ∈ base64Chars, byte ≠ ch '/' := by
  have hall : base64Chars.all (· ≠ ch '/') = true := by decide
  simpa using List.all_eq_true.mp hall

theorem encodeGroups_noSlash (bytes : List Byte) : ch '/' ∉ encodeGroups bytes := by
  obtain ⟨body, padding, heq, hbody, _⟩ := exists_encodeGroups_eq bytes
  rw [heq, List.mem_append, List.mem_replicate]
  rintro (hbyte | ⟨_, hbyte⟩)
  · exact base64Chars_noSlash _ (hbody _ hbyte) rfl
  · exact absurd hbyte (by decide)

theorem affixes_clean : (nodeR ++ dotDat).all (fun byte => byte ≠ 0 ∧ byte ≠ ch '/') = true := by
  decide

variable (ident : IdentHash)

theorem length_encodeGroups_ident : (encodeGroups ident.toList).length = 44 := by
  rw [length_encodeGroups, ident.toList_length]

theorem fileName_bytes : (fileName ident).bytes = nodeR ++ encodeGroups ident.toList ++ dotDat := by
  apply List.takeWhile_eq_self_iff.mpr
  intro byte hbyte
  have hclean := List.all_eq_true.mp affixes_clean
  rw [List.mem_append, List.mem_append] at hbyte
  rcases hbyte with (hbyte | hbyte) | hbyte
  · simpa using (of_decide_eq_true (hclean byte (by simp [hbyte]))).1
  · simpa using encodeGroups_noNul _ byte hbyte
  · simpa using (of_decide_eq_true (hclean byte (by simp [hbyte]))).1

theorem exists_skipName_bytes :
    ∃ char ∈ base64Chars, (encodeGroups ident.toList).take 1 = [char] ∧
      (skipName ident).bytes = [ch 'r', char] := by
  obtain ⟨body, padding, heq, hbody, hne, _⟩ := exists_encodeGroups_eq ident.toList
  have hident : ident.toList ≠ [] := by
    rw [← List.length_pos_iff, ident.toList_length]
    omega
  obtain ⟨char, rest, rfl⟩ := List.exists_cons_of_ne_nil (hne hident)
  have hchar : char ∈ base64Chars := hbody char (by simp)
  refine ⟨char, hchar, by rw [heq]; rfl, ?_⟩
  rw [skipName, heq, List.cons_append, List.getD_cons_zero]
  apply List.takeWhile_eq_self_iff.mpr
  intro byte hbyte
  rcases List.mem_cons.mp hbyte with rfl | hbyte
  · decide
  · rw [List.mem_singleton.mp hbyte]
    simpa using base64Chars_noNul char hchar

theorem strlen_skipName : strlen (skipName ident) = 2 := by
  obtain ⟨char, _, _, hbytes⟩ := exists_skipName_bytes ident
  rw [strlen, hbytes]
  rfl

theorem strlen_fileName : strlen (fileName ident) = 54 := by
  rw [strlen, fileName_bytes, List.length_append, List.length_append, length_encodeGroups_ident]
  rfl

/-- A name that starts with a letter is neither `.` nor `..`. -/
theorem isName_of_head {name : CString} {first : Byte} {rest : List Byte}
    (hbytes : name.bytes = first :: rest) (hfirst : first ≠ ch '.') (hslash : ch '/' ∉ name.bytes) :
    IsName name := by
  refine ⟨by simp [hbytes], hslash, ?_, ?_⟩
  · rintro rfl
    exact hfirst (List.cons.inj hbytes).1.symm
  · rintro rfl
    exact hfirst (List.cons.inj hbytes).1.symm

theorem isName_skipName : IsName (skipName ident) := by
  obtain ⟨char, hchar, _, hbytes⟩ := exists_skipName_bytes ident
  refine isName_of_head hbytes (by decide) ?_
  rw [hbytes, List.mem_cons, List.mem_singleton]
  rintro (hslash | rfl)
  · exact absurd hslash (by decide)
  · exact base64Chars_noSlash _ hchar rfl

theorem isName_fileName : IsName (fileName ident) := by
  refine isName_of_head (fileName_bytes ident) (by decide) ?_
  have hclean := List.all_eq_true.mp affixes_clean (ch '/')
  rw [fileName_bytes, List.mem_append, List.mem_append]
  rintro ((hbyte | hbyte) | hbyte)
  · simpa using hclean (by simp [hbyte])
  · exact encodeGroups_noSlash _ hbyte
  · simpa using hclean (by simp [hbyte])

theorem entryNames_eq : entryNames ident = .ok (skipName ident, fileName ident) := by
  have hencode := @base64Encode_eq ident.toList (List.replicate 128 0) 32 128
    (by rw [ident.toList_length]) (by omega) (by rw [List.length_replicate]) (by omega)
  have hlength := length_encodeGroups_ident ident
  have htake : ident.toList.take 32 = ident.toList :=
    List.take_of_length_le (by rw [ident.toList_length])
  have hbase64 : ofBuffer (encodeGroups ident.toList ++ List.replicate 84 0) =
      ⟨encodeGroups ident.toList, encodeGroups_noNul _⟩ :=
    ofBuffer_append_nul ⟨_, encodeGroups_noNul _⟩ (List.replicate 83 0)
  rw [htake] at hencode
  rw [entryNames, hencode, ok_bind]
  dsimp only
  rw [List.drop_replicate, hbase64]
  have hfirst :
      (encodeGroups ident.toList ++ List.replicate (128 - 4 * ((32 + 2) / 3)) 0).getD 0 0 =
        (encodeGroups ident.toList).getD 0 0 := List.getD_append _ _ _ _ (by omega)
  have hname : (nodeR ++ encodeGroups ident.toList ++ dotDat).take 127 =
      nodeR ++ encodeGroups ident.toList ++ dotDat := by
    apply List.take_of_length_le
    rw [← fileName_bytes, ← strlen, strlen_fileName]
    omega
  rw [hfirst]
  exact congrArg (fun name => Except.ok (skipName ident, ofBuffer name)) hname

/-- The path of the file of an entry. -/
def pathOf (root : CString) (ident : IdentHash) : CString :=
  slash (slash root (skipName ident)) (fileName ident)

variable {ident} {root : CString}

theorem strlen_pathOf : strlen (pathOf root ident) = strlen root + 58 := by
  rw [pathOf, strlen_slash, strlen_slash, strlen_skipName, strlen_fileName]

/-- Different entries have different files. -/
theorem pathOf_injective (root : CString) : Function.Injective (pathOf root) := by
  intro left right heq
  have hparent := congrArg parentOf heq
  rw [pathOf, pathOf, parentOf_slash (isName_fileName left).2.1,
    parentOf_slash (isName_fileName right).2.1, Option.some.injEq] at hparent
  rw [pathOf, pathOf, hparent] at heq
  have hname := congrArg CString.bytes (slash_injective_right heq)
  rw [fileName_bytes, fileName_bytes, List.append_left_inj, List.append_right_inj] at hname
  exact List.Vector.eq _ _ (encodeGroups_injective hname)

theorem netdbOpenFile_eq {Ri : Type} {db : MnetNetdb Ri} {tree : Tree}
    (hroot : db.rootdir.bytes ≠ []) (hshort : strlen db.rootdir + 58 < 256) :
    netdbOpenFile tree db ident =
      .ok ((tree.fopenWrite (pathOf db.rootdir ident)).map fun tree =>
        (pathOf db.rootdir ident, tree)) := by
  have hjoin := @pathJoin_eq db.rootdir [skipName ident, fileName ident] hroot
    (by
      have hlength := @strlen_pathOf ident db.rootdir
      rw [pathOf] at hlength
      simp only [List.foldl_cons, List.foldl_nil, hlength]
      exact hshort)
  rw [netdbOpenFile, entryNames_eq, ok_bind]
  dsimp only
  rw [hjoin, ok_bind]
  rfl

end EntryPaths

end I2pLite.Files
