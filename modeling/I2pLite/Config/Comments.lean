import I2pLite.Config.Lines

/-!
# Comments of a configuration file

Every byte of a file is marked: it belongs to a comment or to the spaces just
before one, or it is kept.  Comments end with their line, whatever piece of the
file a line is read in.
-/

namespace I2pLite.ConfigComments

open I2pLite.CBytes
open I2pLite.Stdio
open I2pLite.Pieces
open I2pLite.Config
open I2pLite.ConfigLines

/-- A byte of a file, and whether it goes with the comments. -/
structure Marked where
  byte : Byte
  removed : Bool

/-- The marks of a file that starts inside of a comment or outside. -/
def mark : Bool → List Byte → List Marked
  | _, [] => []
  | inside, byte :: rest =>
      if byte = ch '\n' then ⟨byte, false⟩ :: mark false rest
      else if inside = true ∨ byte = ch '#' then ⟨byte, true⟩ :: mark true rest
      else if byte = ch ' ' ∧ (skipSpaces rest).head? = some (ch '#') then
        ⟨byte, true⟩ :: mark false rest
      else ⟨byte, false⟩ :: mark false rest

def textOf (piece : List Marked) : List Byte := piece.map Marked.byte

def keptOf (piece : List Marked) : List Byte :=
  (piece.filter fun marked => !marked.removed).map Marked.byte

def removedOf (piece : List Marked) : List Byte :=
  (piece.filter Marked.removed).map Marked.byte

/-- The file without its comments and without the spaces just before them. -/
def withoutComments (f : InFile) : InFile := keptOf (mark false f)

/-- The pieces of a file, as they are read. -/
def markedPieces (marks : List Marked) : List (List Marked) :=
  pieces (fun marked => isNewline marked.byte) 1023 marks

variable {text removed tail f : List Byte} {inside : Bool}

theorem textOf_mark (inside : Bool) (f : List Byte) : textOf (mark inside f) = f := by
  fun_induction mark inside f with
  | case1 => rfl
  | case2 _ rest ih => rw [textOf, List.map_cons, ← textOf, ih]
  | case3 _ _ rest _ _ ih => rw [textOf, List.map_cons, ← textOf, ih]
  | case4 _ _ rest _ _ _ ih => rw [textOf, List.map_cons, ← textOf, ih]
  | case5 _ _ rest _ _ _ ih => rw [textOf, List.map_cons, ← textOf, ih]

/-- The marks do not change where a file is cut. -/
theorem readsOf_eq_map (f : InFile) :
    readsOf f = (markedPieces (mark false f)).map fun piece => readLine (textOf piece) := by
  have hpieces := pieces_map Marked.byte isNewline 1023 (mark false f)
  rw [← textOf, textOf_mark] at hpieces
  rw [readsOf, hpieces, List.map_map]
  rfl

/-! ## The marks of a line -/

def keptAll (text : List Byte) : List Marked := text.map fun byte => ⟨byte, false⟩

def removedAll (text : List Byte) : List Marked := text.map fun byte => ⟨byte, true⟩

@[simp]
theorem keptOf_append (left right : List Marked) :
    keptOf (left ++ right) = keptOf left ++ keptOf right := by
  simp [keptOf]

@[simp]
theorem keptOf_keptAll (text : List Byte) : keptOf (keptAll text) = text := by
  simp [keptOf, keptAll, List.filter_map, Function.comp_def]

@[simp]
theorem keptOf_removedAll (text : List Byte) : keptOf (removedAll text) = [] := by
  simp [keptOf, removedAll]

@[simp]
theorem removedOf_append (left right : List Marked) :
    removedOf (left ++ right) = removedOf left ++ removedOf right := by
  simp [removedOf]

@[simp]
theorem removedOf_keptAll (text : List Byte) : removedOf (keptAll text) = [] := by
  simp [removedOf, keptAll]

@[simp]
theorem removedOf_removedAll (text : List Byte) : removedOf (removedAll text) = text := by
  simp [removedOf, removedAll, List.filter_map, Function.comp_def]

@[simp]
theorem textOf_append (left right : List Marked) :
    textOf (left ++ right) = textOf left ++ textOf right := List.map_append

@[simp]
theorem textOf_keptAll (text : List Byte) : textOf (keptAll text) = text := by
  simp [textOf, keptAll, Function.comp_def]

@[simp]
theorem textOf_removedAll (text : List Byte) : textOf (removedAll text) = text := by
  simp [textOf, removedAll, Function.comp_def]

/-- What follows a line starts with a newline, or there is nothing. -/
def EndsLine (tail : List Byte) : Prop := tail = [] ∨ ∃ rest, tail = ch '\n' :: rest

theorem mark_endsLine (inside : Bool) (htail : EndsLine tail) :
    mark inside tail = mark false tail := by
  rcases htail with rfl | ⟨rest, rfl⟩
  · rfl
  · simp only [mark, if_true]

/-- A comment goes on to the end of the line. -/
theorem mark_inside (htext : ch '\n' ∉ text) (htail : EndsLine tail) :
    mark true (text ++ tail) = removedAll text ++ mark false tail := by
  induction text with
  | nil => exact mark_endsLine true htail
  | cons byte text ih =>
      rw [List.mem_cons, not_or] at htext
      rw [List.cons_append, mark, if_neg (Ne.symm htext.1), if_pos (.inl rfl), ih htext.2]
      rfl

/-- The spaces and the comment that take the rest of a line. -/
def StartsComment (removed : List Byte) : Prop := (skipSpaces removed).head? = some (ch '#')

theorem StartsComment.append (hremoved : StartsComment removed) (tail : List Byte) :
    StartsComment (removed ++ tail) := by
  rw [StartsComment, skipSpaces] at hremoved ⊢
  rw [List.dropWhile_append]
  split_ifs with hempty
  · rw [List.isEmpty_iff.mp hempty] at hremoved
    cases hremoved
  · rw [List.head?_append, hremoved]
    rfl

theorem StartsComment.of_append (htail : EndsLine tail) (happend : StartsComment (text ++ tail)) :
    StartsComment text := by
  rw [StartsComment, skipSpaces, List.dropWhile_append] at happend
  split_ifs at happend with hempty
  · rcases htail with rfl | ⟨rest, rfl⟩
    · cases happend
    · rw [List.dropWhile_cons_of_neg (by decide)] at happend
      cases happend
  · rw [StartsComment, skipSpaces]
    rw [List.head?_append_of_ne_nil _ (by simpa using hempty)] at happend
    exact happend

theorem mark_startsComment (hline : ch '\n' ∉ removed) (hremoved : StartsComment removed)
    (htail : EndsLine tail) :
    mark false (removed ++ tail) = removedAll removed ++ mark false tail := by
  induction removed with
  | nil => cases hremoved
  | cons byte removed ih =>
      rw [List.mem_cons, not_or] at hline
      rw [List.cons_append, mark, if_neg (Ne.symm hline.1)]
      by_cases hcomment : byte = ch '#'
      · rw [if_pos (.inr hcomment), mark_inside hline.2 htail]
        rfl
      · have hspace : byte = ch ' ' := by
          by_contra hspace
          rw [StartsComment, skipSpaces_cons_of_ne hspace] at hremoved
          exact hcomment (Option.some.inj hremoved)
        have hrest : StartsComment removed := by
          rwa [StartsComment, skipSpaces, List.dropWhile_cons_of_pos (by simpa using hspace)]
            at hremoved
        rw [if_neg (by simp [hcomment]), if_pos ⟨hspace, hrest.append tail⟩, ih hline.2 hrest]
        rfl

/-- The text of a line in front of its comment, if there is one. -/
structure Splits (text removed : List Byte) : Prop where
  no_comment : ch '#' ∉ text
  comment : removed ≠ [] → StartsComment removed ∧ text.getLast? ≠ some (ch ' ')

/-- The end of a text is followed by the same comment. -/
theorem Splits.drop (hsplits : Splits text removed) (count : ℕ) :
    Splits (text.drop count) removed where
  no_comment := fun hmem => hsplits.no_comment (List.mem_of_mem_drop hmem)
  comment := fun hne => by
    obtain ⟨hcomment, hlast⟩ := hsplits.comment hne
    refine ⟨hcomment, ?_⟩
    rw [List.getLast?_drop]
    split_ifs
    · simp
    · exact hlast

/-- A line is a text and perhaps a comment, which is what the marks say. -/
theorem exists_splits {body : List Byte} (hbody : ch '\n' ∉ body) :
    ∃ text removed, body = text ++ removed ∧ Splits text removed ∧
      ∀ tail, EndsLine tail →
        mark false (body ++ tail) = keptAll text ++ (removedAll removed ++ mark false tail) := by
  induction body with
  | nil => exact ⟨[], [], rfl, ⟨by simp, by simp⟩, fun tail _ => rfl⟩
  | cons byte body ih =>
      by_cases hstarts : StartsComment (byte :: body)
      · exact ⟨[], byte :: body, rfl, ⟨by simp, fun _ => ⟨hstarts, by simp⟩⟩,
          fun tail htail => mark_startsComment hbody hstarts htail⟩
      · rw [List.mem_cons, not_or] at hbody
        obtain ⟨text, removed, rfl, hsplits, hmark⟩ := ih hbody.2
        have hcomment : byte ≠ ch '#' := by
          rintro rfl
          exact hstarts rfl
        have hspaces : byte = ch ' ' → ¬StartsComment (text ++ removed) := by
          rintro rfl hrest
          exact hstarts hrest
        refine ⟨byte :: text, removed, rfl, ⟨?_, fun hne => ⟨(hsplits.comment hne).1, ?_⟩⟩, ?_⟩
        · simpa [Ne.symm hcomment] using hsplits.no_comment
        · cases htext : text with
          | nil =>
              rw [List.getLast?_singleton]
              rintro hspace
              refine hspaces (Option.some.inj hspace) ?_
              rw [htext]
              exact (hsplits.comment hne).1
          | cons other text' =>
              rw [List.getLast?_cons_cons, ← htext]
              exact (hsplits.comment hne).2
        · intro tail htail
          rw [List.cons_append, mark, if_neg (Ne.symm hbody.1), if_neg (by simp [hcomment]),
            if_neg fun hboth => hspaces hboth.1 (.of_append htail hboth.2), hmark tail htail]
          rfl

end I2pLite.ConfigComments
