import I2pLite.Config.Comments

/-!
# How a line with a comment is read

A text in front of a comment decides what its line is, but the spaces between
them become the end of the value.
-/

namespace I2pLite.ConfigCommentReads

open I2pLite.CBytes
open I2pLite.Config
open I2pLite.ConfigLines
open I2pLite.ConfigComments

variable {text tail : List Byte} {skips : Byte → Bool}

/-! ## Cursors in front of more text -/

theorem takeWhile_append_stop (htail : ∀ byte ∈ tail.head?, skips byte = false) :
    (text ++ tail).takeWhile skips = text.takeWhile skips := by
  have hnone : tail.takeWhile skips = [] := by
    cases tail with
    | nil => rfl
    | cons byte tail => rw [List.takeWhile_cons_of_neg (by simp [htail byte rfl])]
  rw [List.takeWhile_append]
  split_ifs with hall
  · rw [hnone, List.append_nil, List.takeWhile_eq_self_iff.mpr]
    exact List.takeWhile_eq_self_iff.mp ((List.takeWhile_prefix skips).eq_of_length hall)
  · rfl

theorem dropWhile_append_stop (htail : ∀ byte ∈ tail.head?, skips byte = false) :
    (text ++ tail).dropWhile skips = text.dropWhile skips ++ tail := by
  have hparts := List.takeWhile_append_dropWhile (p := skips) (l := text ++ tail)
  rw [takeWhile_append_stop htail] at hparts
  have hsame : text.takeWhile skips ++ (text ++ tail).dropWhile skips =
      text.takeWhile skips ++ (text.dropWhile skips ++ tail) := by
    rw [hparts, ← List.append_assoc, List.takeWhile_append_dropWhile]
  exact List.append_cancel_left hsame

theorem skipSpaces_append_of_ne_nil (htext : skipSpaces text ≠ []) :
    skipSpaces (text ++ tail) = skipSpaces text ++ tail := by
  rw [skipSpaces] at htext
  rw [skipSpaces, skipSpaces, List.dropWhile_append, if_neg (by simpa using htext)]

theorem skipSpaces_append_of_eq_nil (htext : skipSpaces text = []) :
    skipSpaces (text ++ tail) = skipSpaces tail := by
  rw [skipSpaces] at htext
  rw [skipSpaces, skipSpaces, List.dropWhile_append, if_pos (by simp [htext])]

/-! ## What follows a text -/

/-- Spaces, and then a comment, the end of the line or the end of the string. -/
def EndsText (tail : List Byte) : Prop :=
  ∀ byte ∈ (skipSpaces tail).head?, byte = ch '#' ∨ byte = ch '\n'

theorem endsText_nil : EndsText [] := by
  intro byte hbyte
  cases hbyte

theorem endsText_cons_iff {byte : Byte} (hspace : byte ≠ ch ' ') (tail : List Byte) :
    EndsText (byte :: tail) ↔ byte = ch '#' ∨ byte = ch '\n' := by
  rw [EndsText, skipSpaces_cons_of_ne hspace, List.head?_cons]
  simp only [Option.mem_some_iff, forall_eq']

theorem EndsText.not_name (htail : EndsText tail) :
    ∀ byte ∈ tail.head?, isNameByte byte = false := by
  intro byte hbyte
  cases tail with
  | nil => cases hbyte
  | cons first rest =>
      obtain rfl := Option.some.inj hbyte
      by_cases hspace : first = ch ' '
      · subst hspace
        decide
      · rcases (endsText_cons_iff hspace rest).mp htail with rfl | rfl
        · decide
        · decide

theorem EndsText.takeWhile_isValueByte (htail : EndsText tail) :
    tail.takeWhile isValueByte = tail.takeWhile fun byte => byte = ch ' ' := by
  induction tail with
  | nil => rfl
  | cons byte tail ih =>
      by_cases hspace : byte = ch ' '
      · subst hspace
        rw [List.takeWhile_cons_of_pos (by decide), List.takeWhile_cons_of_pos (by decide),
          ih htail]
      · have hbyte := (endsText_cons_iff hspace tail).mp htail
        rw [List.takeWhile_cons_of_neg (by rcases hbyte with rfl | rfl <;> decide),
          List.takeWhile_cons_of_neg (by simpa using hspace)]

theorem EndsText.takeWhile_skipSpaces (htail : EndsText tail) :
    (skipSpaces tail).takeWhile isValueByte = [] := by
  cases hskip : skipSpaces tail with
  | nil => rfl
  | cons byte rest =>
      have hbyte := htail byte (by rw [hskip]; rfl)
      rw [List.takeWhile_cons_of_neg (by rcases hbyte with rfl | rfl <;> decide)]

/-- What a line is whose text is followed by these spaces. -/
def readText (text spaces : List Byte) : LineRead :=
  let start := skipSpaces text
  let rest := skipSpaces (start.dropWhile isNameByte)
  let value := skipSpaces (rest.drop 1)
  if rest.head? ≠ some (ch '=') then .bad
  else
    .entry (ofBuffer (start.takeWhile isNameByte))
      (ofBuffer (if value = [] then [] else value ++ spaces))

/-- A text that is on one line and is no comment. -/
structure IsText (text : List Byte) : Prop where
  no_comment : ch '#' ∉ text
  no_newline : ch '\n' ∉ text
  ends : text ≠ []
  last : text.getLast? ≠ some (ch ' ')

theorem IsText.skipSpaces_ne_nil (htext : IsText text) : skipSpaces text ≠ [] := by
  intro hnil
  have hspaces := List.dropWhile_eq_nil_iff.mp hnil
  have hlast := hspaces _ (List.getLast_mem htext.ends)
  exact htext.last (by rw [List.getLast?_eq_getLast_of_ne_nil htext.ends, of_decide_eq_true hlast])

/-- The first byte behind the spaces of a text. -/
theorem IsText.exists_head (htext : IsText text) :
    ∃ byte, (skipSpaces text).head? = some byte ∧ byte ≠ ch '#' ∧ byte ≠ ch '\n' := by
  obtain ⟨byte, rest, hskip⟩ := List.exists_cons_of_ne_nil htext.skipSpaces_ne_nil
  have hmem : byte ∈ text := (List.dropWhile_sublist _).subset (by
    rw [skipSpaces] at hskip
    rw [hskip]
    exact List.mem_cons_self)
  refine ⟨byte, by rw [hskip]; rfl, ?_, ?_⟩
  · rintro rfl
    exact htext.no_comment hmem
  · rintro rfl
    exact htext.no_newline hmem

theorem IsText.value_bytes (htext : IsText text) {value : List Byte} (hvalue : value ⊆ text) :
    ∀ byte ∈ value, isValueByte byte = true := by
  intro byte hbyte
  rw [isValueByte, Bool.and_eq_true, decide_eq_true_iff, decide_eq_true_iff]
  constructor
  · rintro rfl
    exact htext.no_comment (hvalue hbyte)
  · rintro rfl
    exact htext.no_newline (hvalue hbyte)

theorem IsText.takeWhile_value (htext : IsText text) (htail : EndsText tail)
    {behind : List Byte} (hbehind : behind ⊆ text) :
    (skipSpaces (behind ++ tail)).takeWhile isValueByte =
      if skipSpaces behind = [] then []
      else skipSpaces behind ++ tail.takeWhile fun byte => byte = ch ' ' := by
  split_ifs with hnil
  · rw [skipSpaces_append_of_eq_nil hnil, htail.takeWhile_skipSpaces]
  · have hvalue : skipSpaces behind ⊆ text :=
      fun byte hbyte => hbehind ((List.dropWhile_sublist _).subset hbyte)
    rw [skipSpaces_append_of_ne_nil hnil, List.takeWhile_append_of_pos (htext.value_bytes hvalue),
      htail.takeWhile_isValueByte]

theorem readLine_text {linebuf : List Byte} (htext : IsText text) (htail : EndsText tail)
    (hbytes : (ofBuffer linebuf).bytes = text ++ tail) :
    readLine linebuf = readText text (tail.takeWhile fun byte => byte = ch ' ') := by
  obtain ⟨first, hfirst, hcomment, hnewline⟩ := htext.exists_head
  have hstart : skipSpaces (text ++ tail) = skipSpaces text ++ tail :=
    skipSpaces_append_of_ne_nil htext.skipSpaces_ne_nil
  have hhead : (skipSpaces (text ++ tail)).head? = some first := by
    rw [hstart, List.head?_append, hfirst]
    rfl
  have hskip : ¬(isCommentLine (text ++ tail) = true ∨ isEmtpyLine (text ++ tail) = true) := by
    rw [isCommentLine, isEmtpyLine, hhead, decide_eq_true_iff, decide_eq_true_iff,
      Option.some.injEq, Option.some.injEq]
    exact not_or.mpr ⟨hcomment, hnewline⟩
  have hname : (skipSpaces text ++ tail).takeWhile isNameByte =
      (skipSpaces text).takeWhile isNameByte := takeWhile_append_stop htail.not_name
  have hbehind : (skipSpaces text ++ tail).dropWhile isNameByte =
      (skipSpaces text).dropWhile isNameByte ++ tail := dropWhile_append_stop htail.not_name
  rw [readLine_eq, hbytes]
  simp only [if_neg hskip, hstart, hname, hbehind, readText]
  generalize hrest : skipSpaces ((skipSpaces text).dropWhile isNameByte) = rest
  by_cases hnil : rest = []
  · -- the text ends with its name, and a comment is no equals sign
    subst hnil
    have hbad : (skipSpaces tail).head? ≠ some (ch '=') := by
      intro hequals
      rcases htail _ hequals with hsame | hsame
      · revert hsame
        decide
      · revert hsame
        decide
    rw [skipSpaces_append_of_eq_nil hrest, if_pos hbad, if_pos (by simp)]
  · have hsplit : skipSpaces ((skipSpaces text).dropWhile isNameByte ++ tail) = rest ++ tail := by
      rw [skipSpaces_append_of_ne_nil (by rw [hrest]; exact hnil), hrest]
    rw [hsplit, List.head?_append_of_ne_nil _ hnil]
    by_cases hequals : rest.head? = some (ch '=')
    · rw [if_neg (not_not_intro hequals), if_neg (not_not_intro hequals)]
      obtain ⟨equals, behind, rfl⟩ := List.exists_cons_of_ne_nil hnil
      have hsublist : (equals :: behind).Sublist text := by
        rw [← hrest]
        exact (List.dropWhile_sublist _).trans
          ((List.dropWhile_sublist _).trans (List.dropWhile_sublist _))
      have hbehind : behind ⊆ text :=
        fun byte hbyte => hsublist.subset (List.mem_cons_of_mem _ hbyte)
      rw [List.cons_append, List.drop_succ_cons, List.drop_zero, List.drop_succ_cons,
        List.drop_zero, htext.takeWhile_value htail hbehind]
    · rw [if_pos hequals, if_pos hequals]

/-! ## A text with and without its comment -/

theorem ofBuffer_cons {byte : Byte} (hbyte : byte ≠ 0) (tail : List Byte) :
    (ofBuffer (byte :: tail)).bytes = byte :: (ofBuffer tail).bytes := by
  change (byte :: tail).takeWhile (· ≠ 0) = byte :: tail.takeWhile (· ≠ 0)
  exact List.takeWhile_cons_of_pos (by simpa using hbyte)

theorem ofBuffer_zero (tail : List Byte) : (ofBuffer (0 :: tail)).bytes = [] := rfl

theorem endsText_ofBuffer (htail : EndsText tail) : EndsText (ofBuffer tail).bytes := by
  induction tail with
  | nil => exact htail
  | cons byte tail ih =>
      by_cases hspace : byte = ch ' '
      · subst hspace
        rw [ofBuffer_cons (by decide)]
        exact ih htail
      · have hbyte := (endsText_cons_iff hspace tail).mp htail
        rw [ofBuffer_cons (by rcases hbyte with rfl | rfl <;> decide)]
        exact (endsText_cons_iff hspace _).mpr hbyte

theorem takeWhile_space_ofBuffer (tail : List Byte) :
    ((ofBuffer tail).bytes.takeWhile fun byte => byte = ch ' ') =
      tail.takeWhile fun byte => byte = ch ' ' := by
  induction tail with
  | nil => rfl
  | cons byte tail ih =>
      by_cases hspace : byte = ch ' '
      · subst hspace
        rw [ofBuffer_cons (by decide), List.takeWhile_cons_of_pos (by decide), ih,
          List.takeWhile_cons_of_pos (by decide)]
      · rw [List.takeWhile_cons_of_neg (by simpa using hspace)]
        by_cases hnul : byte = 0
        · rw [hnul, ofBuffer_zero, List.takeWhile_nil]
        · rw [ofBuffer_cons hnul, List.takeWhile_cons_of_neg (by simpa using hspace)]

theorem readLine_congr {left right : List Byte} (hsame : ofBuffer left = ofBuffer right) :
    readLine left = readLine right := by
  rw [readLine, readLine, hsame]

theorem ofBuffer_append_of_mem (hnul : 0 ∈ text) (tail : List Byte) :
    ofBuffer (text ++ tail) = ofBuffer text := by
  have hstops : (text.takeWhile (· ≠ 0)).length ≠ text.length := by
    intro hlength
    have hall := (List.takeWhile_prefix (· ≠ (0 : Byte))).eq_of_length hlength
    have hzero := List.takeWhile_eq_self_iff.mp hall 0 hnul
    simp at hzero
  simp only [ofBuffer, List.takeWhile_append, if_neg hstops]

theorem ofBuffer_append_of_notMem (hnul : 0 ∉ text) (tail : List Byte) :
    (ofBuffer (text ++ tail)).bytes = text ++ (ofBuffer tail).bytes := by
  refine List.takeWhile_append_of_pos fun byte hbyte => ?_
  rw [decide_eq_true_iff]
  rintro rfl
  exact hnul hbyte

theorem readLine_append_of_mem (hnul : 0 ∈ text) (tail : List Byte) :
    readLine (text ++ tail) = readLine text :=
  readLine_congr (ofBuffer_append_of_mem hnul tail)

theorem readLine_append_of_notMem (htext : IsText text) (hnul : 0 ∉ text)
    (htail : EndsText tail) :
    readLine (text ++ tail) = readText text (tail.takeWhile fun byte => byte = ch ' ') := by
  rw [readLine_text htext (endsText_ofBuffer htail) (ofBuffer_append_of_notMem hnul tail),
    takeWhile_space_ofBuffer]

theorem readLine_of_notMem (htext : IsText text) (hnul : 0 ∉ text) :
    readLine text = readText text [] := by
  rw [← List.append_nil text, readLine_append_of_notMem htext hnul endsText_nil,
    List.append_nil]
  rfl

/-- The end of its line is nothing to a text. -/
theorem readLine_append_newline (htext : IsText text) :
    readLine (text ++ [ch '\n']) = readLine text := by
  by_cases hnul : 0 ∈ text
  · exact readLine_append_of_mem hnul _
  · have htail : EndsText [ch '\n'] := by
      intro byte hbyte
      exact .inr (Option.some.inj hbyte).symm
    rw [readLine_append_of_notMem htext hnul htail, readLine_of_notMem htext hnul]
    rfl

/-- A value that is all of the rest of a text. -/
def EndsInValue (text : List Byte) : Prop :=
  0 ∉ text ∧ ∃ k v, readLine text = .entry k v ∧ v.bytes ≠ []

/-- The spaces behind a text only matter to a value. -/
theorem readText_cases (text : List Byte) :
    (∀ spaces, readText text spaces = .bad) ∨
      ∃ k value, value ⊆ text ∧
        ∀ spaces, readText text spaces =
          .entry k (ofBuffer (if value = [] then [] else value ++ spaces)) := by
  by_cases hequals :
      (skipSpaces ((skipSpaces text).dropWhile isNameByte)).head? = some (ch '=')
  · refine .inr ⟨ofBuffer ((skipSpaces text).takeWhile isNameByte),
      skipSpaces ((skipSpaces ((skipSpaces text).dropWhile isNameByte)).drop 1), ?_,
      fun spaces => if_neg (not_not_intro hequals)⟩
    exact List.Sublist.subset ((List.dropWhile_sublist _).trans ((List.drop_sublist _ _).trans
      ((List.dropWhile_sublist _).trans ((List.dropWhile_sublist _).trans
        (List.dropWhile_sublist _)))))
  · exact .inl fun spaces => if_pos hequals

theorem takeWhile_space_eq_nil_iff (tail : List Byte) :
    (tail.takeWhile fun byte => byte = ch ' ') = [] ↔ tail.head? ≠ some (ch ' ') := by
  cases tail with
  | nil => simp
  | cons byte tail =>
      by_cases hspace : byte = ch ' '
      · simp [hspace]
      · simp [hspace]

theorem ofBuffer_bytes_of_notMem {bytes : List Byte} (hnul : 0 ∉ bytes) :
    (ofBuffer bytes).bytes = bytes := by
  apply ofBuffer_of_noNul
  rintro byte hbyte rfl
  exact hnul hbyte

/-- Spaces behind a value make it another value. -/
theorem readLine_append_spaces (htext : IsText text) (htail : EndsText tail)
    (hspace : tail.head? = some (ch ' ')) (hvalue : EndsInValue text) :
    ∃ k v v', readLine (text ++ tail) = .entry k v ∧ readLine text = .entry k v' ∧ v ≠ v' := by
  obtain ⟨hnul, k, v, hread, hne⟩ := hvalue
  rw [readLine_of_notMem htext hnul] at hread ⊢
  rw [readLine_append_of_notMem htext hnul htail]
  rcases readText_cases text with hbad | ⟨k', value, hsubset, hentry⟩
  · rw [hbad] at hread
    cases hread
  · rw [hentry] at hread ⊢
    rw [hentry]
    refine ⟨k', _, _, rfl, rfl, fun hsame => ?_⟩
    have hvalue : value ≠ [] := by
      rintro rfl
      injection hread with _ hv
      rw [← hv] at hne
      exact hne rfl
    have hspaces : (tail.takeWhile fun byte => byte = ch ' ') ≠ [] := by
      rw [Ne, takeWhile_space_eq_nil_iff]
      exact not_not_intro hspace
    have hvalueNul : 0 ∉ value := fun hmem => hnul (hsubset hmem)
    have hspacesNul : 0 ∉ tail.takeWhile fun byte => byte = ch ' ' := by
      intro hmem
      have hzero := List.mem_takeWhile_imp hmem
      revert hzero
      decide
    have hbytes := congrArg CString.bytes hsame
    rw [if_neg hvalue, if_neg hvalue, List.append_nil, ofBuffer_append_of_notMem hvalueNul,
      ofBuffer_bytes_of_notMem hvalueNul, ofBuffer_bytes_of_notMem hspacesNul] at hbytes
    exact hspaces (List.append_right_eq_self.mp hbytes)

/-- Otherwise what follows a text does not matter to it. -/
theorem readLine_append_eq (htext : IsText text) (htail : EndsText tail)
    (hclean : ¬(tail.head? = some (ch ' ') ∧ EndsInValue text)) :
    readLine (text ++ tail) = readLine text := by
  by_cases hnul : 0 ∈ text
  · exact readLine_append_of_mem hnul tail
  · rw [readLine_append_of_notMem htext hnul htail, readLine_of_notMem htext hnul]
    by_cases hspace : tail.head? = some (ch ' ')
    · rcases readText_cases text with hbad | ⟨k, value, hsubset, hentry⟩
      · rw [hbad, hbad]
      · rw [hentry, hentry]
        by_cases hvalue : value = []
        · rw [if_pos hvalue, if_pos hvalue]
        · refine absurd ⟨hspace, hnul, k, ofBuffer value, ?_, ?_⟩ hclean
          · rw [readLine_of_notMem htext hnul, hentry, if_neg hvalue, List.append_nil]
          · rwa [ofBuffer_bytes_of_notMem fun hmem => hnul (hsubset hmem)]
    · rw [(takeWhile_space_eq_nil_iff tail).mpr hspace]

end I2pLite.ConfigCommentReads
