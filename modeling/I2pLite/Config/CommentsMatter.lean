import I2pLite.Config.CommentPieces

/-!
# When comments matter

A file and the file without its comments are loaded alike unless a piece of a
comment is read as a line, or a value is taken together with the spaces in
front of a comment.
-/

namespace I2pLite.ConfigCommentsMatter

open I2pLite.CBytes
open I2pLite.Stdio
open I2pLite.Config
open I2pLite.ConfigLines
open I2pLite.ConfigComments
open I2pLite.ConfigCommentReads
open I2pLite.ConfigCommentPieces

/-! ## Loads with other reads -/

section Loads

variable {Piece : Type} (read kept : Piece → LineRead)

/-- Up to the first piece that is bad, and of this one. -/
def UpToBad (good : Piece → Prop) : List Piece → Prop
  | [] => True
  | piece :: pieces => good piece ∧ (read piece = .bad ∨ UpToBad good pieces)

/-- What may become of a line: it may be left out, or have another value. -/
inductive Change : LineRead → LineRead → Prop
  | same (line : LineRead) : Change line line
  | left_out (line : LineRead) : Change line .skipped
  | value (k v v' : CString) (hne : v ≠ v') : Change (.entry k v) (.entry k v')

theorem Change.of_skipped {line line' : LineRead} (hchange : Change line line')
    (hline : line = .skipped) : line' = .skipped := by
  cases hchange with
  | same => exact hline
  | left_out => rfl
  | value => cases hline

theorem Change.of_bad {line line' : LineRead} (hchange : Change line line')
    (hline' : line' = .bad) : line = .bad := by
  cases hchange with
  | same => exact hline'
  | left_out => cases hline'
  | value => cases hline'

variable {read kept} {pieces : List Piece} {cfg : MnetConfig}

theorem loaded_eq_of_upToBad (hagree : UpToBad read (fun piece => read piece = kept piece) pieces) :
    loaded (pieces.map read) cfg = loaded (pieces.map kept) cfg := by
  induction pieces generalizing cfg with
  | nil => rfl
  | cons piece pieces ih =>
      obtain ⟨hsame, hrest⟩ := hagree
      rw [List.map_cons, List.map_cons, ← hsame]
      cases hread : read piece with
      | skipped => rw [loaded_skipped, loaded_skipped, ih (hrest.resolve_left (by simp [hread]))]
      | bad => rw [loaded_bad, loaded_bad]
      | entry k v =>
          rw [loaded_entry, loaded_entry, ih (hrest.resolve_left (by simp [hread]))]

theorem UpToBad.congr {good good' : Piece → Prop}
    (hgood : ∀ piece ∈ pieces, good piece ↔ good' piece) :
    UpToBad read good pieces ↔ UpToBad read good' pieces := by
  induction pieces with
  | nil => exact Iff.rfl
  | cons piece pieces ih =>
      exact and_congr (hgood piece (by simp))
        (or_congr Iff.rfl (ih fun other hother => hgood other (by simp [hother])))

/-- What does not hold up to the first bad piece fails at one of the pieces. -/
theorem exists_split_of_not_upToBad {good : Piece → Prop} (hnot : ¬UpToBad read good pieces) :
    ∃ before piece after, pieces = before ++ piece :: after ∧
      (∀ other ∈ before, read other ≠ .bad) ∧ ¬good piece := by
  induction pieces with
  | nil => exact absurd trivial hnot
  | cons piece pieces ih =>
      by_cases hgood : good piece
      · obtain ⟨hbad, hrest⟩ := not_or.mp fun hrest => hnot ⟨hgood, hrest⟩
        obtain ⟨before, other, after, rfl, hbefore, hother⟩ := ih hrest
        refine ⟨piece :: before, other, after, rfl, fun third hthird => ?_, hother⟩
        rcases List.mem_cons.mp hthird with rfl | hthird
        · exact hbad
        · exact hbefore third hthird
      · exact ⟨[], piece, pieces, rfl, by simp, hgood⟩

variable (hchange : ∀ piece ∈ pieces, Change (read piece) (kept piece))
  (hstops : UpToBad read (fun piece => read piece = .bad → kept piece = .bad) pieces)
include hchange hstops

/-- Lines that are left out leave fewer entries. -/
theorem length_entriesBefore_le :
    (entriesBefore (pieces.map kept)).length ≤ (entriesBefore (pieces.map read)).length := by
  induction pieces with
  | nil => exact le_rfl
  | cons piece pieces ih =>
      obtain ⟨hbad, hrest⟩ := hstops
      have hchanges := hchange piece (by simp)
      have hmore := fun other hother => hchange other (List.mem_cons_of_mem piece hother)
      rw [List.map_cons, List.map_cons]
      cases hread : read piece with
      | skipped =>
          rw [hchanges.of_skipped hread]
          exact ih hmore (hrest.resolve_left (by simp [hread]))
      | bad =>
          rw [hbad hread]
          exact le_rfl
      | entry k v =>
          have hle := ih hmore (hrest.resolve_left (by simp [hread]))
          cases hkept : kept piece with
          | skipped => exact hle.trans (Nat.le_succ _)
          | bad =>
              rw [hchanges.of_bad hkept] at hread
              cases hread
          | entry k' v' => exact Nat.succ_le_succ hle

/-- Where the first bad line stays, entries that are the same come from lines
that are the same. -/
theorem upToBad_of_entriesBefore_eq
    (heq : entriesBefore (pieces.map read) = entriesBefore (pieces.map kept)) :
    UpToBad read (fun piece => read piece = kept piece) pieces := by
  induction pieces with
  | nil => trivial
  | cons piece pieces ih =>
      obtain ⟨hbad, hrest⟩ := hstops
      have hchanges := hchange piece (by simp)
      have hmore := fun other hother => hchange other (List.mem_cons_of_mem piece hother)
      rw [List.map_cons, List.map_cons] at heq
      cases hread : read piece with
      | skipped =>
          have hkept := hchanges.of_skipped hread
          rw [hread, hkept] at heq
          exact ⟨hread.trans hkept.symm, .inr (ih hmore (hrest.resolve_left (by simp [hread])) heq)⟩
      | bad => exact ⟨hread.trans (hbad hread).symm, .inl hread⟩
      | entry k v =>
          have hrest' := hrest.resolve_left (by simp [hread])
          rw [hread] at heq
          cases hkept : kept piece with
          | skipped =>
              have hle := length_entriesBefore_le hmore hrest'
              have hlength := congrArg List.length heq
              rw [hkept, entriesBefore, entriesBefore, List.length_cons] at hlength
              omega
          | bad =>
              rw [hchanges.of_bad hkept] at hread
              cases hread
          | entry k' v' =>
              rw [hkept, entriesBefore, entriesBefore, List.cons.injEq] at heq
              obtain ⟨hentry, heq⟩ := heq
              injection hentry with hk hv
              subst hk hv
              exact ⟨hread.trans hkept.symm, .inr (ih hmore hrest' heq)⟩

end Loads

theorem loaded_eq_iff {reads reads' : List LineRead} :
    loaded reads mnetConfigAlloc = loaded reads' mnetConfigAlloc ↔
      (.bad ∈ reads ↔ .bad ∈ reads') ∧ entriesBefore reads = entriesBefore reads' := by
  constructor
  · intro hsame
    obtain ⟨hreturned, hcfg⟩ := Prod.mk.inj hsame
    have hlist := congrArg MnetConfig.list hcfg
    simp only [mnetConfigAlloc, List.append_nil, List.reverse_inj] at hlist
    refine ⟨?_, hlist⟩
    by_cases hbad : .bad ∈ reads
    · by_cases hbad' : .bad ∈ reads'
      · exact iff_of_true hbad hbad'
      · simp [hbad, hbad'] at hreturned
    · by_cases hbad' : .bad ∈ reads'
      · simp [hbad, hbad'] at hreturned
      · exact iff_of_false hbad hbad'
  · rintro ⟨hbad, hentries⟩
    rw [loaded, loaded, hentries]
    simp only [hbad]

/-! ## Pieces with comments -/

/-- A piece that holds nothing but a part of a comment, or of the spaces in
front of one, and is read as a line. -/
def ReadsComment (piece : List Marked) : Prop :=
  removedOf piece ≠ [] ∧ (keptOf piece = [] ∨ keptOf piece = [ch '\n']) ∧
    readLine (textOf piece) ≠ .skipped

/-- A piece where a value is followed by the spaces in front of a comment. -/
def SpacesValue (piece : List Marked) : Prop :=
  (removedOf piece).head? = some (ch ' ') ∧ EndsInValue (keptOf piece)

/-- The comment of a piece does not change what is read. -/
def Harmless (piece : List Marked) : Prop := ¬ReadsComment piece ∧ ¬SpacesValue piece

variable {piece : List Marked} {text removed ending : List Byte}

theorem endsInValue_append_ending (htext : IsText text)
    (hending : ending = [] ∨ ending = [ch '\n']) :
    EndsInValue (text ++ ending) ↔ EndsInValue text := by
  rcases hending with rfl | rfl
  · rw [List.append_nil]
  · have hnul : 0 ∉ text ++ [ch '\n'] ↔ 0 ∉ text := by
      rw [List.mem_append, or_iff_left (by decide)]
    rw [EndsInValue, EndsInValue, hnul, readLine_append_newline htext]

theorem not_endsInValue_ending (hending : ending = [] ∨ ending = [ch '\n']) :
    ¬EndsInValue ending := by
  rintro ⟨_, k, v, hread, _⟩
  rcases hending with rfl | rfl
  · have hbad : readLine [] = .bad := by decide
    rw [hbad] at hread
    cases hread
  · rw [readLine_newline] at hread
    cases hread

/-- What a piece is read as, and what is kept of it. -/
inductive ReadCases (piece : List Marked) : Prop
  | harmless (hharmless : Harmless piece) (hsame : readLine (textOf piece) = keptRead piece)
  | comment (hcomment : ReadsComment piece) (hkept : keptRead piece = .skipped)
  | spaces (hcomment : ¬ReadsComment piece) (hspaces : SpacesValue piece) (k v v' : CString)
      (hread : readLine (textOf piece) = .entry k v) (hkept : keptRead piece = .entry k v')
      (hne : v ≠ v')

theorem readCases_of_commented (htext : IsText text) (hremoved : removed ≠ [])
    (htail : EndsText (removed ++ ending)) (hending : ending = [] ∨ ending = [ch '\n']) :
    ReadCases (keptAll text ++ (removedAll removed ++ keptAll ending)) := by
  have hkept := keptRead_commented htext hending removed
  have hread : textOf (keptAll text ++ (removedAll removed ++ keptAll ending)) =
      text ++ (removed ++ ending) := by simp
  have hcomment : ¬ReadsComment (keptAll text ++ (removedAll removed ++ keptAll ending)) := by
    rintro ⟨_, hnone, _⟩
    simp only [keptOf_append, keptOf_keptAll, keptOf_removedAll, List.nil_append] at hnone
    rcases hnone with hnil | hnewline
    · exact htext.ends (List.append_eq_nil_iff.mp hnil).1
    · obtain ⟨first, others, rfl⟩ := List.exists_cons_of_ne_nil htext.ends
      rw [List.cons_append, List.cons.injEq] at hnewline
      exact htext.no_newline (by simp [hnewline.1])
  have hspaces : SpacesValue (keptAll text ++ (removedAll removed ++ keptAll ending)) ↔
      (removed ++ ending).head? = some (ch ' ') ∧ EndsInValue text := by
    rw [SpacesValue, List.head?_append_of_ne_nil _ hremoved]
    simp only [removedOf_append, removedOf_keptAll, removedOf_removedAll, List.nil_append,
      List.append_nil, keptOf_append, keptOf_keptAll, keptOf_removedAll]
    rw [endsInValue_append_ending htext hending]
  by_cases hvalue : (removed ++ ending).head? = some (ch ' ') ∧ EndsInValue text
  · obtain ⟨k, v, v', hwith, hwithout, hne⟩ :=
      readLine_append_spaces htext htail hvalue.1 hvalue.2
    exact .spaces hcomment (hspaces.mpr hvalue) k v v' (by rw [hread, hwith])
      (by rw [hkept, hwithout]) hne
  · refine .harmless ⟨hcomment, hspaces.not.mpr hvalue⟩ ?_
    rw [hread, hkept, readLine_append_eq htext htail hvalue]

theorem readCases_of_shape (hshape : Shape piece) : ReadCases piece := by
  cases hshape with
  | kept text hne =>
      refine .harmless ⟨fun hcomment => hcomment.1 (by simp), fun hspaces => ?_⟩ ?_
      · rw [SpacesValue, removedOf_keptAll] at hspaces
        cases hspaces.1
      · rw [textOf_keptAll, keptRead, keptOf_keptAll, if_neg hne]
  | commented text removed ending htext hremoved htail hending =>
      exact readCases_of_commented htext hremoved htail hending
  | comment removed ending hremoved hending =>
      have hkept := keptRead_ending hending removed
      have hkeptOf : keptOf (removedAll removed ++ keptAll ending) = ending := by simp
      by_cases hread : readLine (textOf (removedAll removed ++ keptAll ending)) = .skipped
      · refine .harmless ⟨fun hcomment => hcomment.2.2 hread, fun hspaces => ?_⟩ ?_
        · rw [SpacesValue, hkeptOf] at hspaces
          exact not_endsInValue_ending hending hspaces.2
        · rw [hread, hkept]
      · refine .comment ⟨by simpa using hremoved, ?_, hread⟩ hkept
        rw [hkeptOf]
        exact hending

theorem ReadCases.change (hcases : ReadCases piece) :
    Change (readLine (textOf piece)) (keptRead piece) := by
  cases hcases with
  | harmless _ hsame =>
      rw [hsame]
      exact .same _
  | comment _ hkept =>
      rw [hkept]
      exact .left_out _
  | spaces _ _ k v v' hread hkept hne =>
      rw [hread, hkept]
      exact .value k v v' hne

theorem ReadCases.harmless_iff (hcases : ReadCases piece) :
    Harmless piece ↔ readLine (textOf piece) = keptRead piece := by
  cases hcases with
  | harmless hharmless hsame => exact iff_of_true hharmless hsame
  | comment hcomment hkept =>
      refine iff_of_false (fun hharmless => hharmless.1 hcomment) fun hsame => ?_
      exact hcomment.2.2 (hsame.trans hkept)
  | spaces _ hspaces k v v' hread hkept hne =>
      refine iff_of_false (fun hharmless => hharmless.2 hspaces) fun hsame => ?_
      rw [hread, hkept] at hsame
      injection hsame with _ hv
      exact hne hv

/-- A bad line stays one unless it is part of a comment. -/
theorem ReadCases.bad_iff (hcases : ReadCases piece) (hcomment : ¬ReadsComment piece)
    (hbad : readLine (textOf piece) = .bad) : keptRead piece = .bad := by
  cases hcases with
  | harmless _ hsame => rw [← hsame, hbad]
  | comment hcomment' _ => exact absurd hcomment' hcomment
  | spaces _ _ k v v' hread hkept hne =>
      rw [hread] at hbad
      cases hbad

/-! ## Loads of files with comments -/

def readPiece (piece : List Marked) : LineRead := readLine (textOf piece)

/-- No piece is read otherwise because of a comment, up to the first bad one. -/
def Clean (f : InFile) : Prop := UpToBad readPiece Harmless (markedPieces (mark false f))

/-- The first bad piece is part of a comment.  Without the comments a later
piece is bad, and the pieces in front of that hold the entries that were read in
front of the first one. -/
def FailsAlike (f : InFile) : Prop :=
  ∃ before piece between last after,
    markedPieces (mark false f) = before ++ piece :: (between ++ last :: after) ∧
      (∀ other ∈ before, readPiece other ≠ .bad) ∧ readPiece piece = .bad ∧
      ReadsComment piece ∧ (∀ other ∈ between, keptRead other ≠ .bad) ∧ keptRead last = .bad ∧
      entriesBefore (before.map readPiece) = entriesBefore ((before ++ between).map keptRead)

theorem entriesBefore_append {before : List LineRead} (hbefore : .bad ∉ before)
    (after : List LineRead) :
    entriesBefore (before ++ after) = entriesBefore before ++ entriesBefore after := by
  induction before with
  | nil => rfl
  | cons line before ih =>
      rw [List.mem_cons, not_or] at hbefore
      cases line with
      | skipped => exact ih hbefore.2
      | bad => exact absurd rfl hbefore.1
      | entry k v => exact congrArg (_ :: ·) (ih hbefore.2)

theorem entriesBefore_append_bad {before : List LineRead} (hbefore : .bad ∉ before)
    (after : List LineRead) : entriesBefore (before ++ .bad :: after) = entriesBefore before := by
  rw [entriesBefore_append hbefore]
  exact List.append_nil _

theorem bad_notMem_map {read : List Marked → LineRead} {pieces : List (List Marked)}
    (hpieces : ∀ piece ∈ pieces, read piece ≠ .bad) : .bad ∉ pieces.map read := by
  intro hmem
  obtain ⟨piece, hpiece, hread⟩ := List.mem_map.mp hmem
  exact hpieces piece hpiece hread

section Fails

variable {before rest : List (List Marked)}

theorem keptRead_of_readsComment (hcases : ReadCases piece) (hcomment : ReadsComment piece) :
    keptRead piece = .skipped := by
  cases hcases with
  | harmless hharmless _ => exact absurd hcomment hharmless.1
  | comment _ hkept => exact hkept
  | spaces hnot _ _ _ _ _ _ _ => exact absurd hcomment hnot

/-- Without the comment the load goes on, to where it fails for another
piece. -/
theorem entriesBefore_kept {between after : List (List Marked)} {last : List Marked}
    (hbefore : ∀ other ∈ before, keptRead other ≠ .bad) (hskipped : keptRead piece = .skipped)
    (hbetween : ∀ other ∈ between, keptRead other ≠ .bad) (hlast : keptRead last = .bad) :
    .bad ∈ (before ++ piece :: (between ++ last :: after)).map keptRead ∧
      entriesBefore ((before ++ piece :: (between ++ last :: after)).map keptRead) =
        entriesBefore ((before ++ between).map keptRead) := by
  have hrest := entriesBefore_append_bad (bad_notMem_map hbetween) (after.map keptRead)
  constructor
  · rw [← hlast]
    exact List.mem_map_of_mem (by simp)
  · rw [List.map_append, List.map_cons, List.map_append, List.map_cons, hskipped, hlast,
      List.map_append, entriesBefore_append (bad_notMem_map hbefore),
      entriesBefore_append (bad_notMem_map hbefore), entriesBefore, hrest]

/-- Where the first bad piece is part of a comment, the loads are alike if the
other one fails behind the same entries. -/
theorem loaded_eq_iff_of_split (hcases : ∀ other ∈ before ++ piece :: rest, ReadCases other)
    (hbefore : ∀ other ∈ before, readPiece other ≠ .bad) (hbad : readPiece piece = .bad)
    (hcomment : ReadsComment piece) :
    loaded ((before ++ piece :: rest).map readPiece) mnetConfigAlloc =
        loaded ((before ++ piece :: rest).map keptRead) mnetConfigAlloc ↔
      ∃ between last after, rest = between ++ last :: after ∧
        (∀ other ∈ between, keptRead other ≠ .bad) ∧ keptRead last = .bad ∧
        entriesBefore (before.map readPiece) =
          entriesBefore ((before ++ between).map keptRead) := by
  have hskipped := keptRead_of_readsComment (hcases piece (by simp)) hcomment
  have hkeptBefore : ∀ other ∈ before, keptRead other ≠ .bad := fun other hother hkept =>
    hbefore other hother ((hcases other (by simp [hother])).change.of_bad hkept)
  have hmem : .bad ∈ (before ++ piece :: rest).map readPiece :=
    hbad ▸ List.mem_map_of_mem (by simp)
  have hread : entriesBefore ((before ++ piece :: rest).map readPiece) =
      entriesBefore (before.map readPiece) := by
    rw [List.map_append, List.map_cons, hbad]
    exact entriesBefore_append_bad (bad_notMem_map hbefore) _
  rw [loaded_eq_iff, iff_true_left hmem, hread]
  constructor
  · rintro ⟨hkept, hentries⟩
    rw [List.map_append, List.map_cons, hskipped, List.mem_append, List.mem_cons,
      or_iff_right (bad_notMem_map hkeptBefore), or_iff_right (by simp)] at hkept
    obtain ⟨first, others, hsplit, hfirst⟩ := List.eq_append_cons_of_mem hkept
    obtain ⟨between, tail, rfl, rfl, htail⟩ := List.map_eq_append_iff.mp hsplit
    obtain ⟨last, after, rfl, hlast, _⟩ := List.map_eq_cons_iff.mp htail
    have hbetween : ∀ other ∈ between, keptRead other ≠ .bad := fun other hother heq =>
      hfirst (heq ▸ List.mem_map_of_mem hother)
    refine ⟨between, last, after, rfl, hbetween, hlast, ?_⟩
    rw [hentries, (entriesBefore_kept hkeptBefore hskipped hbetween hlast).2]
  · rintro ⟨between, last, after, rfl, hbetween, hlast, hentries⟩
    obtain ⟨hkept, hall⟩ := @entriesBefore_kept piece before between after last hkeptBefore
      hskipped hbetween hlast
    exact ⟨hkept, hentries.trans hall.symm⟩

end Fails

/-- A file and the file without its comments are loaded alike exactly where no
comment changes how a piece is read, or where both loads fail behind the same
entries. -/
theorem mnetConfigLoad_withoutComments_iff (f : InFile) :
    mnetConfigLoad (some f) = mnetConfigLoad (some (withoutComments f)) ↔
      Clean f ∨ FailsAlike f := by
  obtain ⟨hshapes, hsignificant⟩ := file_pieces f
  have hcases : ∀ piece ∈ markedPieces (mark false f), ReadCases piece :=
    fun piece hpiece => readCases_of_shape (hshapes piece hpiece)
  have hreads : loaded (readsOf f) mnetConfigAlloc =
      loaded ((markedPieces (mark false f)).map readPiece) mnetConfigAlloc := by
    rw [readsOf_eq_map]
    rfl
  have hkept : loaded (readsOf (withoutComments f)) mnetConfigAlloc =
      loaded ((markedPieces (mark false f)).map keptRead) mnetConfigAlloc := by
    rw [← loaded_significant, hsignificant, loaded_significant]
  have hclean : Clean f ↔
      UpToBad readPiece (fun piece => readPiece piece = keptRead piece)
        (markedPieces (mark false f)) :=
    UpToBad.congr fun piece hpiece => (hcases piece hpiece).harmless_iff
  rw [mnetConfigLoad_eq, mnetConfigLoad_eq, Except.ok.injEq, hreads, hkept]
  constructor
  · intro hsame
    by_cases hstops : UpToBad readPiece (fun piece => readPiece piece = .bad →
        keptRead piece = .bad) (markedPieces (mark false f))
    · exact .inl (hclean.mpr (upToBad_of_entriesBefore_eq
        (fun piece hpiece => (hcases piece hpiece).change) hstops (loaded_eq_iff.mp hsame).2))
    · obtain ⟨before, piece, rest, hsplit, hbefore, hpiece⟩ := exists_split_of_not_upToBad hstops
      obtain ⟨hbad, hnot⟩ := Classical.not_imp.mp hpiece
      rw [hsplit] at hcases hsame
      have hcomment : ReadsComment piece := by
        by_contra hcomment
        exact hnot ((hcases piece (by simp)).bad_iff hcomment hbad)
      obtain ⟨between, last, after, rfl, hkeptRest⟩ :=
        (loaded_eq_iff_of_split hcases hbefore hbad hcomment).mp hsame
      exact .inr ⟨before, piece, between, last, after, hsplit, hbefore, hbad, hcomment, hkeptRest⟩
  · rintro (hf | ⟨before, piece, between, last, after, hsplit, hbefore, hbad, hcomment, hkeptRest⟩)
    · exact loaded_eq_of_upToBad (hclean.mp hf)
    · rw [hsplit] at hcases ⊢
      exact (loaded_eq_iff_of_split hcases hbefore hbad hcomment).mpr
        ⟨between, last, after, rfl, hkeptRest⟩

/-! ## A comment that matters -/

/-- `k=1 #` -/
def spacedFile : InFile := [ch 'k', ch '=', ch '1', ch ' ', ch '#']

theorem mnetConfigLoad_spacedFile :
    mnetConfigLoad (some spacedFile) =
        .ok (1, { list := [⟨ofBuffer [ch 'k'], ofBuffer [ch '1', ch ' ']⟩], size := 1 }) ∧
      mnetConfigLoad (some (withoutComments spacedFile)) =
        .ok (1, { list := [⟨ofBuffer [ch 'k'], ofBuffer [ch '1']⟩], size := 1 }) := by
  decide

theorem not_forall_mnetConfigLoad_withoutComments :
    ¬∀ f, mnetConfigLoad (some f) = mnetConfigLoad (some (withoutComments f)) := by
  intro hall
  have hsame := hall spacedFile
  rw [mnetConfigLoad_spacedFile.1, mnetConfigLoad_spacedFile.2] at hsame
  revert hsame
  decide

end I2pLite.ConfigCommentsMatter
