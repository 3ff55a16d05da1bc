import I2pLite.Config.CommentReads

/-!
# The pieces of a line with a comment

The pieces of a line that are read are blocks of its text, then perhaps one
that holds the end of the text and the start of the comment, and then pieces of
the comment.  Without the comment the line has the same blocks and at most one
more piece.
-/

namespace I2pLite.ConfigCommentPieces

open I2pLite.CBytes
open I2pLite.Stdio
open I2pLite.Pieces
open I2pLite.Config
open I2pLite.ConfigLines
open I2pLite.ConfigComments
open I2pLite.ConfigCommentReads

variable {text removed ending rest : List Byte} {piece : List Marked}

/-- How what is kept of a piece is read; a piece of which nothing is kept is no
line. -/
def keptRead (piece : List Marked) : LineRead :=
  if keptOf piece = [] then .skipped else readLine (keptOf piece)

/-- The lines that are not skipped. -/
def significant (reads : List LineRead) : List LineRead := reads.filter (· ≠ .skipped)

theorem significant_append (left right : List LineRead) :
    significant (left ++ right) = significant left ++ significant right := List.filter_append _ _

theorem significant_cons (read : LineRead) (reads : List LineRead) :
    significant (read :: reads) = significant [read] ++ significant reads :=
  significant_append [read] reads

theorem significant_of_forall {reads : List LineRead} (hreads : ∀ read ∈ reads, read = .skipped) :
    significant reads = [] := by
  rw [significant, List.filter_eq_nil_iff]
  intro read hread
  simp [hreads read hread]

theorem loaded_significant (reads : List LineRead) (cfg : MnetConfig) :
    loaded (significant reads) cfg = loaded reads cfg := by
  induction reads generalizing cfg with
  | nil => rfl
  | cons read reads ih =>
      cases read with
      | skipped =>
          rw [loaded_skipped]
          exact ih cfg
      | bad =>
          have hcons : significant (.bad :: reads) = .bad :: significant reads := rfl
          rw [hcons, loaded_bad, loaded_bad]
      | entry k v =>
          have hcons : significant (.entry k v :: reads) = .entry k v :: significant reads := rfl
          rw [hcons, loaded_entry, loaded_entry, ih]

/-- The kinds of pieces. -/
inductive Shape : List Marked → Prop
  | kept (text : List Byte) (hne : text ≠ []) : Shape (keptAll text)
  | commented (text removed ending : List Byte) (htext : IsText text) (hremoved : removed ≠ [])
      (htail : EndsText (removed ++ ending)) (hending : ending = [] ∨ ending = [ch '\n']) :
      Shape (keptAll text ++ (removedAll removed ++ keptAll ending))
  | comment (removed ending : List Byte) (hremoved : removed ≠ [])
      (hending : ending = [] ∨ ending = [ch '\n']) :
      Shape (removedAll removed ++ keptAll ending)

theorem readLine_newline : readLine [ch '\n'] = .skipped := by decide

theorem keptRead_ending (hending : ending = [] ∨ ending = [ch '\n']) (removed : List Byte) :
    keptRead (removedAll removed ++ keptAll ending) = .skipped := by
  rcases hending with rfl | rfl
  · simp [keptRead]
  · simp [keptRead, readLine_newline]

theorem keptRead_commented (htext : IsText text) (hending : ending = [] ∨ ending = [ch '\n'])
    (removed : List Byte) :
    keptRead (keptAll text ++ (removedAll removed ++ keptAll ending)) = readLine text := by
  have hne := htext.ends
  rcases hending with rfl | rfl
  · simp [keptRead, hne]
  · simp [keptRead, readLine_append_newline htext]

/-! ## The rest of a comment -/

/-- The stop of a piece, for marked bytes. -/
def endsPiece (marked : Marked) : Bool := isNewline marked.byte

theorem endsPiece_eq_false (hpiece : ch '\n' ∉ textOf piece) :
    ∀ marked ∈ piece, endsPiece marked = false :=
  fun marked hmarked => isNewline_eq_false hpiece marked.byte (List.mem_map_of_mem hmarked)

/-- How a line ends: with a newline, or with the file. -/
def LineEnd (ending rest : List Byte) : Prop := ending = [ch '\n'] ∨ ending = [] ∧ rest = []

theorem eq_of_lineEnd (hend : LineEnd ending rest) : ending = [] ∨ ending = [ch '\n'] :=
  hend.symm.imp_left And.left

theorem markedPieces_nil : markedPieces [] = [] := by
  rw [markedPieces, pieces_nil]

/-- A part of a line that fits into the buffer with the end of the line is the
last piece. -/
theorem markedPieces_last {body : List Marked} (hbody : ∀ marked ∈ body, endsPiece marked = false)
    (hend : LineEnd ending rest) (hne : body ++ keptAll ending ≠ [])
    (hlength : body.length < 1023) :
    markedPieces (body ++ (keptAll ending ++ mark false rest)) =
      (body ++ keptAll ending) :: markedPieces (mark false rest) := by
  rcases hend with rfl | ⟨rfl, rfl⟩
  · exact pieces_line hbody (by decide) hlength
  · have hne' : body ≠ [] := by simpa [keptAll] using hne
    have hlast : markedPieces body = [body] := pieces_last hbody hne' hlength.le
    simp only [keptAll, mark, List.map_nil, List.append_nil, hlast, markedPieces_nil]

theorem markedPieces_full {block more : List Marked}
    (hblock : ∀ marked ∈ block, endsPiece marked = false) (hlength : block.length = 1023) :
    markedPieces (block ++ more) = block :: markedPieces more :=
  pieces_full hblock (by decide) hlength

theorem keptAll_nil : keptAll [] = [] := rfl

theorem keptAll_append (left right : List Byte) :
    keptAll (left ++ right) = keptAll left ++ keptAll right := List.map_append

theorem removedAll_append (left right : List Byte) :
    removedAll (left ++ right) = removedAll left ++ removedAll right := List.map_append

/-- The pieces of the rest of a comment are comments, and nothing is kept of
them but the end of the line. -/
theorem comment_pieces (hremoved : ch '\n' ∉ removed) (hend : LineEnd ending rest) :
    ∃ linePieces, markedPieces (removedAll removed ++ (keptAll ending ++ mark false rest)) =
        linePieces ++ markedPieces (mark false rest) ∧
      (∀ piece ∈ linePieces, Shape piece) ∧ ∀ piece ∈ linePieces, keptRead piece = .skipped := by
  induction hcount : removed.length using Nat.strong_induction_on generalizing removed with
  | _ count ih =>
      by_cases hlong : removed.length < 1023
      · by_cases hne : removedAll removed ++ keptAll ending = []
        · obtain ⟨hremovedNil, hendingNil⟩ := List.append_eq_nil_iff.mp hne
          refine ⟨[], ?_, by simp, by simp⟩
          rw [hremovedNil, hendingNil]
          rfl
        · refine ⟨[removedAll removed ++ keptAll ending],
            markedPieces_last (endsPiece_eq_false (by rwa [textOf_removedAll])) hend hne
              (by simpa [removedAll] using hlong),
            fun piece hpiece => ?_, fun piece hpiece => ?_⟩
          · rw [List.mem_singleton.mp hpiece]
            by_cases hnil : removed = []
            · subst hnil
              exact .kept ending (by rintro rfl; exact hne rfl)
            · exact .comment removed ending hnil (eq_of_lineEnd hend)
          · rw [List.mem_singleton.mp hpiece]
            exact keptRead_ending (eq_of_lineEnd hend) removed
      · have hblock : (removed.take 1023).length = 1023 := by
          rw [List.length_take]
          omega
        have htake : ch '\n' ∉ removed.take 1023 := fun hmem => hremoved (List.mem_of_mem_take hmem)
        have hdrop : ch '\n' ∉ removed.drop 1023 := fun hmem => hremoved (List.mem_of_mem_drop hmem)
        obtain ⟨linePieces, hpieces, hshapes, hreads⟩ := ih (removed.drop 1023).length
          (by rw [List.length_drop]; omega) hdrop rfl
        refine ⟨removedAll (removed.take 1023) :: linePieces, ?_, ?_, ?_⟩
        · rw [← List.take_append_drop 1023 removed, removedAll_append, List.append_assoc,
            markedPieces_full (endsPiece_eq_false (by rwa [textOf_removedAll]))
              (by simpa [removedAll] using hblock)]
          rw [List.take_append_drop, hpieces, List.cons_append]
        · intro piece hpiece
          rcases List.mem_cons.mp hpiece with rfl | hpiece
          · have hne : removed.take 1023 ≠ [] := by
              rintro hnil
              rw [hnil] at hblock
              simp at hblock
            have hshape := Shape.comment (removed.take 1023) [] hne (.inl rfl)
            rwa [keptAll, List.map_nil, List.append_nil] at hshape
          · exact hshapes piece hpiece
        · intro piece hpiece
          rcases List.mem_cons.mp hpiece with rfl | hpiece
          · simp [keptRead]
          · exact hreads piece hpiece

/-! ## A line without its comment -/

theorem readsOf_full {block more : List Byte} (hblock : ch '\n' ∉ block)
    (hlength : block.length = 1023) :
    readsOf (block ++ more) = readLine block :: readsOf more := by
  rw [readsOf, pieces_full (isNewline_eq_false hblock) (by decide) hlength, List.map_cons, readsOf]

theorem readsOf_nil : readsOf [] = [] := by
  rw [readsOf, pieces_nil, List.map_nil]

theorem readsOf_last (htext : ch '\n' ∉ text) (hend : LineEnd ending rest)
    (hne : text ++ ending ≠ []) (hlength : text.length < 1023) :
    readsOf (text ++ (ending ++ rest)) = readLine (text ++ ending) :: readsOf rest := by
  rcases hend with rfl | ⟨rfl, rfl⟩
  · have hpieces : pieces isNewline 1023 (text ++ ch '\n' :: rest) = _ :=
      pieces_line (isNewline_eq_false htext) (by decide) hlength
    rw [List.singleton_append, readsOf, hpieces, List.map_cons, readsOf]
  · rw [List.append_nil] at hne
    have hpieces : pieces isNewline 1023 text = [text] :=
      pieces_last (isNewline_eq_false htext) hne hlength.le
    rw [List.append_nil, List.append_nil, readsOf_nil, readsOf, hpieces]
    rfl

/-- The end of a line alone is no line. -/
theorem significant_readsOf_ending (hend : LineEnd ending rest) :
    significant (readsOf (ending ++ rest)) = significant (readsOf rest) := by
  rcases hend with rfl | ⟨rfl, rfl⟩
  · have hlast := readsOf_last (List.not_mem_nil (a := ch '\n')) (.inl rfl : LineEnd _ rest)
      (by simp) (by simp)
    rw [List.nil_append, List.nil_append, readLine_newline] at hlast
    rw [hlast]
    rfl
  · rfl

/-- A buffer ends in the spaces in front of a comment, or in the comment. -/
theorem endsText_take (hremoved : StartsComment removed) (count : ℕ)
    (hall : removed.length ≤ count ∨ ending = []) :
    EndsText (removed.take count ++ ending) := by
  induction removed generalizing count with
  | nil => cases hremoved
  | cons byte removed ih =>
      cases count with
      | zero =>
          rw [hall.resolve_left (by simp)]
          exact endsText_nil
      | succ count =>
          rw [List.take_succ_cons, List.cons_append]
          by_cases hspace : byte = ch ' '
          · subst hspace
            exact ih hremoved count (by simpa using hall)
          · rw [StartsComment, skipSpaces_cons_of_ne hspace] at hremoved
            exact (endsText_cons_iff hspace _).mpr (.inl (Option.some.inj hremoved))

theorem significant_map_keptRead {linePieces : List (List Marked)}
    (hreads : ∀ piece ∈ linePieces, keptRead piece = .skipped) :
    significant (linePieces.map keptRead) = [] := by
  apply significant_of_forall
  intro read hread
  obtain ⟨piece, hpiece, rfl⟩ := List.mem_map.mp hread
  exact hreads piece hpiece

/-- What is kept of the pieces of a line is read as the line without its
comment. -/
def ReadAlike (text removed ending rest : List Byte) : Prop :=
  ∃ linePieces,
    markedPieces (keptAll text ++ (removedAll removed ++ (keptAll ending ++ mark false rest))) =
        linePieces ++ markedPieces (mark false rest) ∧
      (∀ piece ∈ linePieces, Shape piece) ∧
      ∀ more, LineEnd ending more →
        significant (readsOf (text ++ (ending ++ more))) =
          significant (linePieces.map keptRead) ++ significant (readsOf more)

section Line

variable (hend : LineEnd ending rest)
include hend

theorem readAlike_of_no_comment (htext : ch '\n' ∉ text) (hlength : text.length < 1023) :
    ReadAlike text [] ending rest := by
  by_cases hne : text ++ ending = []
  · obtain ⟨rfl, rfl⟩ := List.append_eq_nil_iff.mp hne
    exact ⟨[], rfl, by simp, fun more _ => rfl⟩
  · refine ⟨[keptAll text ++ keptAll ending], ?_, fun piece hpiece => ?_, fun more hmore => ?_⟩
    · exact markedPieces_last (endsPiece_eq_false (by rwa [textOf_keptAll])) hend
        (by rwa [← keptAll_append, keptAll, Ne, List.map_eq_nil_iff])
        (by simpa [keptAll] using hlength)
    · rw [List.mem_singleton.mp hpiece, ← keptAll_append]
      exact .kept _ hne
    · have hread : keptRead (keptAll text ++ keptAll ending) = readLine (text ++ ending) := by
        rw [← keptAll_append, keptRead, keptOf_keptAll, if_neg hne]
      rw [readsOf_last htext hmore hne hlength, List.map_singleton, hread, ← significant_append]
      rfl

theorem readAlike_of_no_text (hremoved : ch '\n' ∉ removed) : ReadAlike [] removed ending rest := by
  obtain ⟨linePieces, hpieces, hshapes, hreads⟩ := comment_pieces hremoved hend
  refine ⟨linePieces, hpieces, hshapes, fun more hmore => ?_⟩
  rw [significant_map_keptRead hreads, List.nil_append, List.nil_append,
    significant_readsOf_ending hmore]

/-- The piece that holds the end of the text is read as the text. -/
theorem readAlike_of_commented (htext : IsText text) (hlength : text.length < 1023)
    {start startEnding : List Byte} (others : List (List Marked))
    (hpieces : markedPieces (keptAll text ++ (removedAll removed ++
        (keptAll ending ++ mark false rest))) =
      ((keptAll text ++ (removedAll start ++ keptAll startEnding)) :: others) ++
        markedPieces (mark false rest))
    (hstart : start ≠ []) (htail : EndsText (start ++ startEnding))
    (hstartEnding : startEnding = [] ∨ startEnding = [ch '\n'])
    (hshapes : ∀ piece ∈ others, Shape piece)
    (hreads : ∀ piece ∈ others, keptRead piece = .skipped) :
    ReadAlike text removed ending rest := by
  refine ⟨_, hpieces, fun piece hpiece => ?_, fun more hmore => ?_⟩
  · rcases List.mem_cons.mp hpiece with rfl | hpiece
    · exact .commented text start startEnding htext hstart htail hstartEnding
    · exact hshapes piece hpiece
  · have hline : readLine (text ++ ending) = readLine text := by
      rcases eq_of_lineEnd hend with rfl | rfl
      · rw [List.append_nil]
      · exact readLine_append_newline htext
    have hne : text ++ ending ≠ [] := fun hnil => htext.ends (List.append_eq_nil_iff.mp hnil).1
    rw [readsOf_last htext.no_newline hmore hne hlength, hline, List.map_cons,
      keptRead_commented htext hstartEnding, significant_cons, significant_cons _ (others.map _),
      significant_map_keptRead hreads, List.append_nil]

theorem readAlike_of_comment (htext : IsText text) (hremoved : ch '\n' ∉ removed)
    (hne : removed ≠ []) (hcomment : StartsComment removed) (hlength : text.length < 1023) :
    ReadAlike text removed ending rest := by
  by_cases hshort : text.length + removed.length < 1023
  · have hbody : ∀ marked ∈ keptAll text ++ removedAll removed, endsPiece marked = false :=
      endsPiece_eq_false (by simp [htext.no_newline, hremoved])
    have hpieces := markedPieces_last hbody hend (by simp [keptAll, htext.ends])
      (by simpa [keptAll, removedAll] using hshort)
    have htail : EndsText (removed ++ ending) := by
      have htake := endsText_take hcomment removed.length (.inl le_rfl : _ ∨ ending = [])
      rwa [List.take_length] at htake
    rw [List.append_assoc, List.append_assoc] at hpieces
    exact readAlike_of_commented hend htext hlength [] hpieces hne htail
      (eq_of_lineEnd hend) (by simp) (by simp)
  · have hcount : (removed.take (1023 - text.length)).length = 1023 - text.length := by
      rw [List.length_take]
      omega
    have htake : ch '\n' ∉ removed.take (1023 - text.length) :=
      fun hmem => hremoved (List.mem_of_mem_take hmem)
    have hdrop : ch '\n' ∉ removed.drop (1023 - text.length) :=
      fun hmem => hremoved (List.mem_of_mem_drop hmem)
    have hstart : removed.take (1023 - text.length) ≠ [] := by
      rintro hnil
      rw [hnil, List.length_nil] at hcount
      omega
    have hblock : ∀ marked ∈ keptAll text ++ removedAll (removed.take (1023 - text.length)),
        endsPiece marked = false :=
      endsPiece_eq_false (by simp [htext.no_newline, htake])
    obtain ⟨others, hothers, hshapes, hreads⟩ := comment_pieces hdrop hend
    refine readAlike_of_commented hend htext hlength others ?_ hstart
      (endsText_take hcomment _ (.inr rfl)) (.inl rfl) hshapes hreads
    calc markedPieces (keptAll text ++ (removedAll removed ++ (keptAll ending ++ mark false rest)))
        = markedPieces ((keptAll text ++ removedAll (removed.take (1023 - text.length))) ++
            (removedAll (removed.drop (1023 - text.length)) ++
              (keptAll ending ++ mark false rest))) := by
          rw [List.append_assoc, ← List.append_assoc (removedAll (removed.take _)),
            ← removedAll_append, List.take_append_drop]
      _ = ((keptAll text ++ removedAll (removed.take (1023 - text.length))) :: others) ++
            markedPieces (mark false rest) := by
          rw [markedPieces_full hblock (by simp [keptAll, removedAll]; omega), hothers]
          rfl
      _ = ((keptAll text ++ (removedAll (removed.take (1023 - text.length)) ++ keptAll [])) ::
            others) ++ markedPieces (mark false rest) := by
          rw [keptAll_nil, List.append_nil]

/-- A text that is longer than the buffer has the same blocks with and without
its comment. -/
theorem readAlike_of_splits (hsplits : Splits text removed) (htext : ch '\n' ∉ text)
    (hremoved : ch '\n' ∉ removed) : ReadAlike text removed ending rest := by
  induction hcount : text.length using Nat.strong_induction_on generalizing text with
  | _ count ih =>
      by_cases hshort : text.length < 1023
      · by_cases hne : removed = []
        · subst hne
          exact readAlike_of_no_comment hend htext hshort
        · by_cases hends : text = []
          · subst hends
            exact readAlike_of_no_text hend hremoved
          · obtain ⟨hcomment, hlast⟩ := hsplits.comment hne
            exact readAlike_of_comment hend ⟨hsplits.no_comment, htext, hends, hlast⟩ hremoved hne
              hcomment hshort
      · have hblock : (text.take 1023).length = 1023 := by
          rw [List.length_take]
          omega
        have htake : ch '\n' ∉ text.take 1023 := fun hmem => htext (List.mem_of_mem_take hmem)
        have hdrop : ch '\n' ∉ text.drop 1023 := fun hmem => htext (List.mem_of_mem_drop hmem)
        have hne : text.take 1023 ≠ [] := by
          rintro hnil
          rw [hnil] at hblock
          simp at hblock
        obtain ⟨linePieces, hpieces, hshapes, hreads⟩ := ih (text.drop 1023).length
          (by rw [List.length_drop]; omega) (hsplits.drop 1023) hdrop rfl
        refine ⟨keptAll (text.take 1023) :: linePieces, ?_, ?_, fun more hmore => ?_⟩
        · nth_rewrite 1 [← List.take_append_drop 1023 text]
          rw [keptAll_append, List.append_assoc,
            markedPieces_full (endsPiece_eq_false (by rwa [textOf_keptAll]))
              (by simpa [keptAll] using hblock), hpieces]
          rfl
        · intro piece hpiece
          rcases List.mem_cons.mp hpiece with rfl | hpiece
          · exact .kept _ hne
          · exact hshapes piece hpiece
        · have hread : keptRead (keptAll (text.take 1023)) = readLine (text.take 1023) := by
            rw [keptRead, keptOf_keptAll, if_neg hne]
          nth_rewrite 1 [← List.take_append_drop 1023 text]
          rw [List.append_assoc, readsOf_full htake hblock, List.map_cons, hread, significant_cons,
            significant_cons _ (linePieces.map _), hreads more hmore, List.append_assoc]

end Line

/-! ## A file without its comments -/

theorem exists_line (f : List Byte) :
    ∃ body ending rest, f = body ++ (ending ++ rest) ∧ ch '\n' ∉ body ∧ LineEnd ending rest := by
  induction f with
  | nil => exact ⟨[], [], [], rfl, by simp, .inr ⟨rfl, rfl⟩⟩
  | cons byte f ih =>
      by_cases hnewline : byte = ch '\n'
      · subst hnewline
        exact ⟨[], [ch '\n'], f, rfl, by simp, .inl rfl⟩
      · obtain ⟨body, ending, rest, rfl, hbody, hend⟩ := ih
        exact ⟨byte :: body, ending, rest, rfl, by simp [Ne.symm hnewline, hbody], hend⟩

theorem length_lt_of_lineEnd {body : List Byte} (hend : LineEnd ending rest)
    (hne : body ++ (ending ++ rest) ≠ []) : rest.length < (body ++ (ending ++ rest)).length := by
  rcases hend with rfl | ⟨rfl, rfl⟩
  · simp only [List.length_append, List.length_singleton]
    omega
  · exact List.length_pos_iff.mpr hne

theorem mark_ending (hend : LineEnd ending rest) :
    mark false (ending ++ rest) = keptAll ending ++ mark false rest := by
  rcases hend with rfl | ⟨rfl, rfl⟩
  · rfl
  · rfl

/-- The pieces of a file read what the file without its comments reads, as far
as they are kept. -/
theorem file_pieces (f : InFile) :
    (∀ piece ∈ markedPieces (mark false f), Shape piece) ∧
      significant (readsOf (withoutComments f)) =
        significant ((markedPieces (mark false f)).map keptRead) := by
  induction hcount : f.length using Nat.strong_induction_on generalizing f with
  | _ count ih =>
      by_cases hf : f = []
      · subst hf
        have hnone : markedPieces (mark false []) = [] := markedPieces_nil
        have hempty : readsOf (withoutComments []) = [] := readsOf_nil
        rw [hnone, hempty]
        exact ⟨by simp, rfl⟩
      · obtain ⟨body, ending, rest, rfl, hbody, hend⟩ := exists_line f
        obtain ⟨text, removed, rfl, hsplits, hmark⟩ := exists_splits hbody
        obtain ⟨htext, hremoved⟩ := not_or.mp (fun hmem => hbody (List.mem_append.mpr hmem))
        have htail : EndsLine (ending ++ rest) := by
          rcases hend with rfl | ⟨rfl, rfl⟩
          · exact .inr ⟨rest, rfl⟩
          · exact .inl rfl
        obtain ⟨linePieces, hpieces, hshapes, hreads⟩ :=
          readAlike_of_splits hend hsplits htext hremoved
        obtain ⟨hrestShapes, hrestReads⟩ := ih rest.length
          (by rw [← hcount]; exact length_lt_of_lineEnd hend hf) rest rfl
        have hkept : withoutComments (text ++ removed ++ (ending ++ rest)) =
            text ++ (ending ++ withoutComments rest) := by
          rw [withoutComments, hmark _ htail, mark_ending hend]
          simp [withoutComments]
        have hmore : LineEnd ending (withoutComments rest) := by
          refine hend.imp_right fun hboth => ⟨hboth.1, ?_⟩
          rw [hboth.2]
          rfl
        rw [hmark _ htail, mark_ending hend, hpieces, hkept, hreads _ hmore, hrestReads,
          List.map_append, significant_append]
        refine ⟨fun piece hpiece => ?_, rfl⟩
        rcases List.mem_append.mp hpiece with hpiece | hpiece
        · exact hshapes piece hpiece
        · exact hrestShapes piece hpiece

end I2pLite.ConfigCommentPieces
