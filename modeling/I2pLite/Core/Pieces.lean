import Mathlib.Data.List.Basic
import Mathlib.Tactic.SplitIfs

/-!
# Cutting a stream into pieces

A reader with a bounded buffer takes a stream apart: each piece ends behind a
value that stops it, or where the buffer is full.
-/

namespace I2pLite.Pieces

variable {A B : Type*} {stop : A → Bool} {limit : ℕ} {values block rest : List A} {last : A}

/-- The values up to a stop and with it, and not more than `limit`. -/
def firstPiece (stop : A → Bool) : ℕ → List A → List A
  | 0, _ => []
  | _ + 1, [] => []
  | limit + 1, value :: rest =>
      if stop value then [value] else value :: firstPiece stop limit rest

theorem firstPiece_ne_nil (hlimit : limit ≠ 0) (hvalues : values ≠ []) :
    firstPiece stop limit values ≠ [] := by
  obtain ⟨limit, rfl⟩ := Nat.exists_eq_succ_of_ne_zero hlimit
  obtain ⟨value, rest, rfl⟩ := List.exists_cons_of_ne_nil hvalues
  rw [firstPiece]
  split_ifs
  · exact List.cons_ne_nil _ _
  · exact List.cons_ne_nil _ _

/-- All pieces of a stream; without a buffer there are none. -/
def pieces (stop : A → Bool) (limit : ℕ) (values : List A) : List (List A) :=
  if values = [] ∨ limit = 0 then []
  else
    firstPiece stop limit values ::
      pieces stop limit (values.drop (firstPiece stop limit values).length)
termination_by values.length
decreasing_by
  rename_i hboth
  rw [not_or] at hboth
  have hvalues := List.length_pos_iff.mpr hboth.1
  have hpiece : 0 < (firstPiece stop limit values).length :=
    List.length_pos_iff.mpr (firstPiece_ne_nil hboth.2 hboth.1)
  rw [List.length_drop]
  omega

@[simp]
theorem pieces_nil : pieces stop limit [] = [] := by
  rw [pieces, if_pos (.inl rfl)]

theorem pieces_of_ne_nil (hlimit : limit ≠ 0) (hvalues : values ≠ []) :
    pieces stop limit values =
      firstPiece stop limit values ::
        pieces stop limit (values.drop (firstPiece stop limit values).length) := by
  rw [pieces, if_neg (not_or.mpr ⟨hvalues, hlimit⟩)]

/-! ## The first piece -/

/-- A stop within the buffer ends the piece. -/
theorem firstPiece_line (hblock : ∀ value ∈ block, stop value = false) (hlast : stop last = true)
    (hlength : block.length < limit) :
    firstPiece stop limit (block ++ last :: rest) = block ++ [last] := by
  induction block generalizing limit with
  | nil =>
      obtain ⟨limit, rfl⟩ := Nat.exists_eq_add_of_lt hlength
      rw [List.nil_append, firstPiece.eq_def]
      simp [hlast]
  | cons value block ih =>
      obtain ⟨limit, rfl⟩ := Nat.exists_eq_succ_of_ne_zero (Nat.ne_zero_of_lt hlength)
      rw [List.cons_append, firstPiece, if_neg (by simp [hblock value (by simp)]),
        ih (fun other hother => hblock other (by simp [hother])) (by simpa using hlength),
        List.cons_append]

/-- Without a stop in the buffer, the piece is as long as the buffer, or all of
the stream. -/
theorem firstPiece_of_forall (hblock : ∀ value ∈ block, stop value = false)
    (hlength : block.length = limit ∨ block.length < limit ∧ rest = []) :
    firstPiece stop limit (block ++ rest) = block := by
  induction block generalizing limit with
  | nil =>
      rcases hlength with hfull | ⟨_, rfl⟩
      · rw [← hfull]
        rfl
      · cases limit <;> rfl
  | cons value block ih =>
      have hpos : limit ≠ 0 := by
        rintro rfl
        simp at hlength
      obtain ⟨limit, rfl⟩ := Nat.exists_eq_succ_of_ne_zero hpos
      rw [List.cons_append, firstPiece, if_neg (by simp [hblock value (by simp)]),
        ih (fun other hother => hblock other (by simp [hother])) (by simpa using hlength)]

/-! ## All pieces -/

theorem pieces_line (hblock : ∀ value ∈ block, stop value = false) (hlast : stop last = true)
    (hlength : block.length < limit) :
    pieces stop limit (block ++ last :: rest) = (block ++ [last]) :: pieces stop limit rest := by
  have hrest : (block ++ last :: rest).drop (block ++ [last]).length = rest := by
    rw [List.append_cons block last rest, List.drop_left]
  rw [pieces_of_ne_nil (Nat.ne_zero_of_lt hlength) (by simp), firstPiece_line hblock hlast hlength,
    hrest]

theorem pieces_full (hblock : ∀ value ∈ block, stop value = false) (hlimit : limit ≠ 0)
    (hlength : block.length = limit) :
    pieces stop limit (block ++ rest) = block :: pieces stop limit rest := by
  have hne : block ++ rest ≠ [] := by
    rintro hnil
    rw [(List.append_eq_nil_iff.mp hnil).1] at hlength
    exact hlimit hlength.symm
  rw [pieces_of_ne_nil hlimit hne, firstPiece_of_forall hblock (.inl hlength), List.drop_left]

theorem pieces_last (hblock : ∀ value ∈ block, stop value = false) (hne : block ≠ [])
    (hlength : block.length ≤ limit) : pieces stop limit block = [block] := by
  have hlimit : limit ≠ 0 := by
    have := List.length_pos_iff.mpr hne
    omega
  have hfirst : firstPiece stop limit block = block := by
    have hall : firstPiece stop limit (block ++ []) = block :=
      firstPiece_of_forall hblock ((Nat.eq_or_lt_of_le hlength).imp_right fun hlt => ⟨hlt, rfl⟩)
    rwa [List.append_nil] at hall
  rw [pieces_of_ne_nil hlimit hne, hfirst, List.drop_length, pieces_nil]

/-! ## Streams with more data -/

theorem firstPiece_map (f : A → B) (stop : B → Bool) (limit : ℕ) (values : List A) :
    firstPiece stop limit (values.map f) =
      (firstPiece (fun value => stop (f value)) limit values).map f := by
  induction values generalizing limit with
  | nil => cases limit <;> rfl
  | cons value values ih =>
      cases limit with
      | zero => rfl
      | succ limit =>
          rw [List.map_cons, firstPiece, firstPiece]
          split_ifs
          · rfl
          · rw [ih, List.map_cons]

/-- Where values are cut does not depend on data that no stop looks at. -/
theorem pieces_map (f : A → B) (stop : B → Bool) (limit : ℕ) (values : List A) :
    pieces stop limit (values.map f) =
      (pieces (fun value => stop (f value)) limit values).map (List.map f) := by
  fun_induction pieces (fun value => stop (f value)) limit values with
  | case1 values hnone =>
      rw [pieces, if_pos (by simpa using hnone), List.map_nil]
  | case2 values hsome ih =>
      rw [pieces, if_neg (by simpa using hsome), firstPiece_map, List.length_map, ← List.map_drop,
        ih, List.map_cons]

end I2pLite.Pieces
