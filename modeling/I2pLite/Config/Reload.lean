import I2pLite.Config.Lines

/-!
# Loading a written configuration

A written entry is one line, so the buffer takes all of it.  The line is read
back with its name; the value loses its leading spaces and what looks like a
comment.
-/

namespace I2pLite.ConfigReload

open I2pLite.CRun
open I2pLite.CBytes
open I2pLite.Stdio
open I2pLite.Pieces
open I2pLite.Config
open I2pLite.ConfigLines

/-- A value without its leading spaces, up to its first `#`. -/
def valueReadBack (v : CString) : CString :=
  ofBuffer ((v.bytes.dropWhile fun byte => byte = ch ' ').takeWhile fun byte => byte ≠ ch '#')

/-- What becomes of a written entry. -/
def readBack (entry : MnetConfigEntry) : MnetConfigEntry where
  name := entry.name
  value := valueReadBack entry.value

/-- An entry whose line keeps its shape and fits into the buffer. -/
structure Writable (entry : MnetConfigEntry) : Prop where
  name_ne_nil : entry.name.bytes ≠ []
  name_bytes : ∀ byte ∈ entry.name.bytes, byte = ch '.' ∨ isalnum byte = true
  value_bytes : ch '\n' ∉ entry.value.bytes
  fits : entry.name.bytes.length + 3 + entry.value.bytes.length + 1 ≤ 1023

variable {k v : CString} {entry : MnetConfigEntry} {entries : List MnetConfigEntry}

/-- A value that does not start with a space and has no `#` comes back. -/
theorem valueReadBack_eq (hspace : v.bytes.head? ≠ some (ch ' ')) (hcomment : ch '#' ∉ v.bytes) :
    valueReadBack v = v := by
  have hdrop : (v.bytes.dropWhile fun byte => byte = ch ' ') = v.bytes := by
    cases hv : v.bytes with
    | nil => rfl
    | cons byte rest =>
        rw [List.dropWhile_cons_of_neg]
        rintro hbyte
        rw [hv, List.head?_cons, of_decide_eq_true hbyte] at hspace
        exact hspace rfl
  have htake : (v.bytes.takeWhile fun byte => byte ≠ ch '#') = v.bytes := by
    rw [List.takeWhile_eq_self_iff]
    intro byte hbyte
    rw [decide_eq_true_iff]
    rintro rfl
    exact hcomment hbyte
  rw [valueReadBack, hdrop, htake, ofBuffer_bytes]

/-! ## One line -/

theorem entryLine_noNul (k v : CString) : ∀ byte ∈ entryLine k v, byte ≠ 0 := by
  intro byte hbyte
  simp only [entryLine, List.mem_append] at hbyte
  rcases hbyte with ((hbyte | hbyte) | hbyte) | hbyte
  · exact k.noNul byte hbyte
  · simp only [List.mem_cons, List.not_mem_nil, or_false] at hbyte
    rcases hbyte with rfl | rfl | rfl <;> decide
  · exact v.noNul byte hbyte
  · rw [List.mem_singleton.mp hbyte]
    decide

/-- A name is not skipped as spaces, and starts no comment and no empty line. -/
theorem skipSpaces_of_isNameByte {byte : Byte} (hbyte : isNameByte byte = true)
    (rest : List Byte) : skipSpaces (byte :: rest) = byte :: rest := by
  apply skipSpaces_cons_of_ne
  rintro rfl
  revert hbyte
  decide

theorem skipSpaces_append_newline (str : List Byte) :
    skipSpaces (str ++ [ch '\n']) = skipSpaces str ++ [ch '\n'] := by
  rw [skipSpaces, skipSpaces, List.dropWhile_append]
  split_ifs with hempty
  · rw [List.isEmpty_iff.mp hempty]
    rfl
  · rfl

/-- On one line only a `#` ends a value before the line ends. -/
theorem takeWhile_append_newline {str : List Byte} (hstr : ch '\n' ∉ str) :
    (str ++ [ch '\n']).takeWhile isValueByte = str.takeWhile fun byte => byte ≠ ch '#' := by
  induction str with
  | nil => rfl
  | cons byte str ih =>
      rw [List.mem_cons, not_or] at hstr
      have hvalue : isValueByte byte = decide (byte ≠ ch '#') := by
        rw [isValueByte, decide_eq_true (Ne.symm hstr.1), Bool.and_true]
      rw [List.cons_append, List.takeWhile_cons, List.takeWhile_cons, hvalue, ih hstr.2]

theorem readLine_entryLine (hne : k.bytes ≠ [])
    (hname : ∀ byte ∈ k.bytes, isNameByte byte = true) (hvalue : ch '\n' ∉ v.bytes) :
    readLine (entryLine k v) = .entry k (valueReadBack v) := by
  obtain ⟨first, others, hk⟩ := List.exists_cons_of_ne_nil hne
  have hfirst : isNameByte first = true := hname first (by simp [hk])
  have hsplit : entryLine k v =
      k.bytes ++ (ch ' ' :: ch '=' :: ch ' ' :: (v.bytes ++ [ch '\n'])) := by
    simp [entryLine]
  have hstart : skipSpaces (entryLine k v) = entryLine k v := by
    rw [hsplit, hk, List.cons_append]
    exact skipSpaces_of_isNameByte hfirst _
  have hhead : (entryLine k v).head? = some first := by
    rw [hsplit, hk]
    rfl
  have hskip : ¬(isCommentLine (entryLine k v) = true ∨ isEmtpyLine (entryLine k v) = true) := by
    rw [isCommentLine, isEmtpyLine, hstart, hhead, decide_eq_true_iff, decide_eq_true_iff]
    rintro (hsame | hsame)
    · rw [Option.some.inj hsame] at hfirst
      revert hfirst
      decide
    · rw [Option.some.inj hsame] at hfirst
      revert hfirst
      decide
  have hk' : (entryLine k v).takeWhile isNameByte = k.bytes := by
    rw [hsplit, List.takeWhile_append_of_pos hname, List.takeWhile_cons_of_neg (by decide),
      List.append_nil]
  have hrest : skipSpaces ((entryLine k v).dropWhile isNameByte) =
      ch '=' :: ch ' ' :: (v.bytes ++ [ch '\n']) := by
    rw [hsplit, List.dropWhile_append_of_pos hname]
    rfl
  have hv : (skipSpaces (ch ' ' :: (v.bytes ++ [ch '\n']))).takeWhile isValueByte =
      (v.bytes.dropWhile fun byte => byte = ch ' ').takeWhile fun byte => byte ≠ ch '#' := by
    have hspaces : ch '\n' ∉ skipSpaces v.bytes := fun hmem =>
      hvalue ((List.dropWhile_sublist _).subset hmem)
    calc (skipSpaces (ch ' ' :: (v.bytes ++ [ch '\n']))).takeWhile isValueByte
        = (skipSpaces (v.bytes ++ [ch '\n'])).takeWhile isValueByte := rfl
      _ = (skipSpaces v.bytes ++ [ch '\n']).takeWhile isValueByte := by
          rw [skipSpaces_append_newline]
      _ = (skipSpaces v.bytes).takeWhile fun byte => byte ≠ ch '#' :=
          takeWhile_append_newline hspaces
  rw [readLine_eq, ofBuffer_of_noNul (entryLine_noNul k v)]
  simp only [hstart, if_neg hskip, hk', hrest, List.head?_cons, ne_eq, not_true_eq_false, if_false,
    List.drop_succ_cons, List.drop_zero, hv, ofBuffer_bytes]
  rfl

/-! ## The file -/

theorem isNameByte_of_mem (hentry : Writable entry) :
    ∀ byte ∈ entry.name.bytes, isNameByte byte = true := by
  intro byte hbyte
  rw [isNameByte, Bool.or_eq_true, decide_eq_true_iff]
  exact hentry.name_bytes byte hbyte

/-- The line of an entry is one piece of the file. -/
theorem readsOf_entryLine_append (hentry : Writable entry) (rest : List Byte) :
    readsOf (entryLine entry.name entry.value ++ rest) =
      .entry entry.name (valueReadBack entry.value) :: readsOf rest := by
  have hbody : ch '\n' ∉ entry.name.bytes ++ [ch ' ', ch '=', ch ' '] ++ entry.value.bytes := by
    intro hbyte
    simp only [List.mem_append] at hbyte
    rcases hbyte with (hbyte | hbyte) | hbyte
    · have hname := isNameByte_of_mem hentry _ hbyte
      revert hname
      decide
    · revert hbyte
      decide
    · exact hentry.value_bytes hbyte
  have hlength : (entry.name.bytes ++ [ch ' ', ch '=', ch ' '] ++ entry.value.bytes).length <
      1023 := by
    have hfits := hentry.fits
    simp only [List.length_append, List.length_cons, List.length_nil]
    omega
  have hpieces : pieces isNewline 1023
      (entry.name.bytes ++ [ch ' ', ch '=', ch ' '] ++ entry.value.bytes ++ ch '\n' :: rest) = _ :=
    pieces_line (isNewline_eq_false hbody) (by decide) hlength
  have hline := readLine_entryLine hentry.name_ne_nil (isNameByte_of_mem hentry) hentry.value_bytes
  rw [entryLine] at hline ⊢
  rw [List.append_assoc _ [ch '\n'] rest, List.singleton_append, readsOf, hpieces, List.map_cons,
    hline, readsOf]

theorem readsOf_flatMap (hentries : ∀ entry ∈ entries, Writable entry) :
    readsOf (entries.flatMap fun entry => entryLine entry.name entry.value) =
      entries.map fun entry => .entry entry.name (valueReadBack entry.value) := by
  induction entries with
  | nil => simp [readsOf]
  | cons entry entries ih =>
      rw [List.flatMap_cons, readsOf_entryLine_append (hentries entry (by simp)),
        ih fun other hother => hentries other (by simp [hother]), List.map_cons]

theorem entriesBefore_map (entries : List MnetConfigEntry) :
    entriesBefore (entries.map fun entry => .entry entry.name (valueReadBack entry.value)) =
      entries.map readBack := by
  induction entries with
  | nil => rfl
  | cons entry entries ih =>
      rw [List.map_cons, entriesBefore, ih]
      rfl

theorem mnetConfigForEach_write {f : OutFile} (hf : f.NeverFails) (size : ℕ)
    (entries : List MnetConfigEntry) :
    ∃ f', mnetConfigForEach { list := entries, size := size } mnetConfigIterWrite f = .ok f' ∧
      f'.bytes = f.bytes ++ entries.flatMap fun entry => entryLine entry.name entry.value := by
  induction entries generalizing f with
  | nil => exact ⟨f, rfl, by simp⟩
  | cons entry entries ih =>
      obtain ⟨f', hrun, hbytes⟩ := ih (hf.put (entryLine entry.name entry.value))
      refine ⟨f', ?_, ?_⟩
      · rw [mnetConfigForEach, List.foldlM_cons, mnetConfigIterWrite, hf.fprintf_eq]
        simp only
        rw [if_pos (by omega), ok_bind]
        exact hrun
      · rw [hbytes, hf.put_bytes, List.flatMap_cons, List.append_assoc]

/-- Entries that are written are loaded in reverse order, with their names and
the values that are read back; and a value without a leading space and without a
`#` is itself. -/
theorem mnetConfigLoad_written (entries : List MnetConfigEntry)
    (hentries : ∀ entry ∈ entries, Writable entry) {f : OutFile} (hf : f.NeverFails)
    (hempty : f.bytes = []) :
    ∃ f', mnetConfigForEach { list := entries, size := entries.length } mnetConfigIterWrite f =
        .ok f' ∧
      mnetConfigLoad (some f'.bytes) =
        .ok (1, { list := (entries.map readBack).reverse, size := entries.length }) ∧
      ∀ entry ∈ entries, entry.value.bytes.head? ≠ some (ch ' ') → ch '#' ∉ entry.value.bytes →
        readBack entry = entry := by
  obtain ⟨f', hrun, hbytes⟩ := mnetConfigForEach_write hf entries.length entries
  rw [hempty, List.nil_append] at hbytes
  refine ⟨f', hrun, ?_, ?_⟩
  · have hgood : LineRead.bad ∉ entries.map fun entry =>
        LineRead.entry entry.name (valueReadBack entry.value) := by
      simp
    rw [mnetConfigLoad_eq, hbytes, readsOf_flatMap hentries, loaded, if_neg hgood,
      entriesBefore_map, List.length_map]
    simp [mnetConfigAlloc]
  · intro entry _ hspace hcomment
    rw [readBack, valueReadBack_eq hspace hcomment]

theorem mnetConfigLoad_written_spaced :
    ∃ f', mnetConfigForEach
        { list := [⟨ofBuffer [ch 'a', ch '.', ch 'b'], ofBuffer [ch ' ', ch '1', ch '#']⟩],
          size := 1 } mnetConfigIterWrite { fails := fun _ => none } = .ok f' ∧
      mnetConfigLoad (some f'.bytes) =
        .ok (1, { list := [⟨ofBuffer [ch 'a', ch '.', ch 'b'], ofBuffer [ch '1']⟩],
                  size := 1 }) := by
  obtain ⟨f', hrun, hload, _⟩ := mnetConfigLoad_written
    [⟨ofBuffer [ch 'a', ch '.', ch 'b'], ofBuffer [ch ' ', ch '1', ch '#']⟩]
    (by
      intro entry hentry
      rw [List.mem_singleton.mp hentry]
      refine ⟨by decide, fun byte hbyte => ?_, by decide, by decide⟩
      change byte ∈ [ch 'a', ch '.', ch 'b'] at hbyte
      simp only [List.mem_cons, List.not_mem_nil, or_false] at hbyte
      rcases hbyte with rfl | rfl | rfl <;> decide)
    (f := { fails := fun _ => none }) (fun _ => rfl) rfl
  exact ⟨f', hrun, hload⟩

end I2pLite.ConfigReload
