import Mathlib.Logic.Basic
import Mathlib.Tactic.SplitIfs
import Mathlib.Data.Nat.Notation

/-!
# Runs of C code

A C function either runs to its end or takes a step that C gives no meaning
to.  A run is therefore a value or a `Fault`.  Loops whose length is not
visible in the data are written with fuel; a run that is out of fuel has not
ended yet, so a loop that never ends is one that is out of fuel at every fuel.
-/

namespace I2pLite.CRun

/-- Why a run of C code did not deliver a value. -/
inductive Fault
  /-- a null pointer is followed, or handed to a function that follows it -/
  | nullDeref
  /-- an address outside the buffer it belongs to is read or written -/
  | outOfBounds
  /-- released storage is followed or released again -/
  | useAfterFree
  /-- arithmetic in `int` leaves its range -/
  | signedOverflow
  /-- an assertion does not hold -/
  | assertFailed
  /-- the run has not ended within its fuel -/
  | outOfFuel
  deriving DecidableEq, Repr

abbrev Run (A : Type*) := Except Fault A

universe u

variable {A B : Type u}

@[simp]
theorem ok_bind (value : A) (next : A → Run B) :
    ((Except.ok value : Run A) >>= next) = next value := rfl

@[simp]
theorem error_bind (fault : Fault) (next : A → Run B) :
    ((Except.error fault : Run A) >>= next) = .error fault := rfl

@[simp]
theorem pure_eq_ok (value : A) : (pure value : Run A) = .ok value := rfl

/-- A sequence of two steps delivers a value exactly when both do. -/
theorem bind_eq_ok {step : Run A} {next : A → Run B} {result : B} :
    (step >>= next) = .ok result ↔
      ∃ value, step = .ok value ∧ next value = .ok result := by
  cases step with
  | error fault => simp
  | ok value => simp

/-- Runs with two results agree in both. -/
theorem ok_pair_inj {value value' : A} {other other' : B}
    (heq : (Except.ok (value, other) : Run (A × B)) = .ok (value', other')) :
    value = value' ∧ other = other' :=
  Prod.mk.inj (Except.ok.inj heq)

/-- Follow a pointer that may be null. -/
def deref : Option A → Run A
  | none => .error .nullDeref
  | some value => .ok value

@[simp]
theorem deref_some (value : A) : deref (some value) = .ok value := rfl

@[simp]
theorem deref_none : deref (none : Option A) = .error .nullDeref := rfl

theorem deref_eq_ok {pointer : Option A} {value : A} :
    deref pointer = .ok value ↔ pointer = some value := by
  cases pointer <;> simp [deref]

/-- What every step keeps, the whole run keeps. -/
theorem foldlM_invariant {values : List A} {step : B → A → Run B} {kept : B → Prop}
    {start result : B}
    (hstep : ∀ value ∈ values, ∀ before after, kept before → step before value = .ok after →
      kept after)
    (hrun : values.foldlM step start = .ok result) (hstart : kept start) : kept result := by
  induction values generalizing start with
  | nil => exact Except.ok.inj hrun ▸ hstart
  | cons value values ih =>
      rw [List.foldlM_cons] at hrun
      obtain ⟨middle, hmiddle, hrest⟩ := bind_eq_ok.mp hrun
      exact ih (fun other hother => hstep other (by simp [hother])) hrest
        (hstep value (by simp) start middle hstart hmiddle)

/-- Where every step sets what is observed or leaves it, the last step that sets
it decides. -/
theorem observe_of_foldlM {V : Type*} {values : List A} {step : B → A → Run B} {observe : B → V}
    {sets : A → Option V} {start result : B}
    (hstep : ∀ value ∈ values, ∀ before after, step before value = .ok after →
      observe after = (sets value).getD (observe before))
    (hrun : values.foldlM step start = .ok result) :
    observe result = (values.reverse.findSome? sets).getD (observe start) := by
  induction values generalizing start with
  | nil =>
      obtain rfl := Except.ok.inj hrun
      rfl
  | cons value values ih =>
      rw [List.foldlM_cons] at hrun
      obtain ⟨middle, hmiddle, hrest⟩ := bind_eq_ok.mp hrun
      rw [ih (fun other hother => hstep other (by simp [hother])) hrest,
        hstep value (by simp) start middle hmiddle, List.reverse_cons, List.findSome?_append]
      cases values.reverse.findSome? sets with
      | some found => rfl
      | none => cases hsets : sets value <;> simp [hsets]

/-- The bounds of finitely many values have a common one. -/
theorem exists_commonBound {V : Type*} {values : List V} {within : ℕ → V → Prop}
    (hmono : ∀ value bound more, bound ≤ more → within bound value → within more value)
    (hvalues : ∀ value ∈ values, ∃ bound, within bound value) :
    ∃ bound, ∀ value ∈ values, within bound value := by
  induction values with
  | nil => exact ⟨0, by simp⟩
  | cons value values ih =>
      obtain ⟨first, hfirst⟩ := hvalues value (by simp)
      obtain ⟨others, hothers⟩ := ih fun other hother => hvalues other (by simp [hother])
      refine ⟨max first others, fun other hother => ?_⟩
      rcases List.mem_cons.mp hother with rfl | hother
      · exact hmono _ _ _ (Nat.le_max_left _ _) hfirst
      · exact hmono _ _ _ (Nat.le_max_right _ _) (hothers other hother)

/-! ## Runs that keep a result -/

/-- The second run delivers what the first one delivers. -/
def Keeps (run run' : Run A) : Prop := ∀ value, run = .ok value → run' = .ok value

theorem Keeps.refl (run : Run A) : Keeps run run := fun _ hrun => hrun

theorem Keeps.of_error (fault : Fault) (run : Run A) : Keeps (.error fault) run := by
  intro value hrun
  cases hrun

theorem Keeps.bind {run run' : Run A} {next next' : A → Run B} (hrun : Keeps run run')
    (hnext : ∀ value, Keeps (next value) (next' value)) :
    Keeps (run >>= next) (run' >>= next') := by
  intro result hresult
  obtain ⟨value, hvalue, hrest⟩ := bind_eq_ok.mp hresult
  exact bind_eq_ok.mpr ⟨value, hrun value hvalue, hnext value result hrest⟩

theorem Keeps.ite {condition : Prop} [Decidable condition] {left left' right right' : Run A}
    (hleft : Keeps left left') (hright : Keeps right right') :
    Keeps (if condition then left else right) (if condition then left' else right') := by
  split_ifs
  · exact hleft
  · exact hright

theorem Keeps.foldlM {values : List A} {step step' : B → A → Run B}
    (hstep : ∀ state value, Keeps (step state value) (step' state value)) (state : B) :
    Keeps (values.foldlM step state) (values.foldlM step' state) := by
  induction values generalizing state with
  | nil => exact .refl _
  | cons value values ih =>
      rw [List.foldlM_cons, List.foldlM_cons]
      exact .bind (hstep state value) ih

end I2pLite.CRun
