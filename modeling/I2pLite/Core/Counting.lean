import I2pLite.Core.CRun

/-!
# Runs that count

A run can carry a count of what happens on its way.  Once the count is dropped
it is the run without one, and this is so of what is put together from such
runs.
-/

namespace I2pLite.Counting

open I2pLite.CRun

variable {A B V : Type}

/-- Without its count, the first run is the second one. -/
def Erases (counted : Run (A × ℕ)) (run : Run A) : Prop :=
  counted >>= (fun result => .ok result.1) = run

theorem Erases.ok (value : A) (count : ℕ) : Erases (.ok (value, count)) (.ok value) := rfl

/-- The count is settled by what is delivered. -/
theorem Erases.counted (run : Run A) (countOf : A → ℕ) :
    Erases (run >>= fun value => .ok (value, countOf value)) run := by
  cases run <;> rfl

/-- What the plain run delivers, the counting one delivers with some count. -/
theorem Erases.eq_ok_iff {counted : Run (A × ℕ)} {run : Run A} (herases : Erases counted run)
    {value : A} : run = .ok value ↔ ∃ count, counted = .ok (value, count) := by
  rw [← herases, bind_eq_ok]
  constructor
  · rintro ⟨⟨other, count⟩, hcounted, hvalue⟩
    exact ⟨count, Except.ok.inj hvalue ▸ hcounted⟩
  · rintro ⟨count, hcounted⟩
    exact ⟨_, hcounted, rfl⟩

theorem Erases.bind {counted : Run (A × ℕ)} {run : Run A} {next : A × ℕ → Run (B × ℕ)}
    {next' : A → Run B} (herases : Erases counted run)
    (hnext : ∀ value count, Erases (next (value, count)) (next' value)) :
    Erases (counted >>= next) (run >>= next') := by
  rw [← herases]
  cases counted with
  | error fault => rfl
  | ok result => exact hnext result.1 result.2

/-- A step that counts nothing comes first. -/
theorem Erases.step {step : Run V} {next : V → Run (A × ℕ)} {next' : V → Run A}
    (hnext : ∀ value, Erases (next value) (next' value)) :
    Erases (step >>= next) (step >>= next') := by
  cases step with
  | error fault => rfl
  | ok value => exact hnext value

theorem Erases.ite {condition : Prop} [Decidable condition] {left right : Run (A × ℕ)}
    {left' right' : Run A} (hleft : Erases left left') (hright : Erases right right') :
    Erases (if condition then left else right) (if condition then left' else right') := by
  split_ifs
  · exact hleft
  · exact hright

theorem Erases.foldlM {values : List V} {step : A × ℕ → V → Run (A × ℕ)} {step' : A → V → Run A}
    (hstep : ∀ state count value, Erases (step (state, count) value) (step' state value))
    (state : A) (count : ℕ) :
    Erases (values.foldlM step (state, count)) (values.foldlM step' state) := by
  induction values generalizing state count with
  | nil => exact .ok state count
  | cons value values ih =>
      rw [List.foldlM_cons, List.foldlM_cons]
      exact (hstep state count value).bind fun state count => ih state count

end I2pLite.Counting
