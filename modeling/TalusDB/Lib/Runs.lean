import Mathlib.Data.Option.Basic

/-! Runs of a machine whose steps may not be possible, with a condition on each step. -/
namespace Runs
variable {S A : Type*}

/-- The steps of a run, as long as each is allowed. -/
def run (step : S → A → Option S) (allowed : S → A → Bool) : S → List A → Option S
  | s, [] => some s
  | s, a :: rest => if allowed s a then (step s a).bind (run step allowed · rest) else none

theorem run_induct {step : S → A → Option S} {allowed : S → A → Bool} {P : S → Prop}
    (kept : ∀ s a s', P s → allowed s a = true → step s a = some s' → P s') {s t : S}
    {actions : List A} (start : P s) (ran : run step allowed s actions = some t) : P t := by
  induction actions generalizing s with
  | nil =>
    cases ran
    exact start
  | cons a rest ih =>
    rw [run] at ran
    obtain ⟨ok, ran⟩ := Option.ite_none_right_eq_some.mp ran
    obtain ⟨s', stepped, ran⟩ := Option.bind_eq_some_iff.mp ran
    exact ih (kept s a s' start ok stepped) ran

variable {β : Type*}

/-- What the steps of a run leave behind, each by what was before and after it. -/
def collect (step : S → A → Option S) (leaves : S → A → S → List β) : S → List A → List β
  | _, [] => []
  | s, a :: rest =>
    (step s a).elim [] fun s' => leaves s a s' ++ collect step leaves s' rest

/-- An invariant that reads what the run has left behind so far. -/
theorem run_collect {step : S → A → Option S} {allowed : S → A → Bool}
    {leaves : S → A → S → List β} {P : List β → S → Prop}
    (kept : ∀ seen s a s', P seen s → allowed s a = true → step s a = some s' →
      P (seen ++ leaves s a s') s') {s t : S} {actions : List A} {seen : List β} (start : P seen s)
    (ran : run step allowed s actions = some t) : P (seen ++ collect step leaves s actions) t := by
  induction actions generalizing s seen with
  | nil =>
    cases ran
    simpa [collect] using start
  | cons a rest ih =>
    rw [run] at ran
    obtain ⟨ok, ran⟩ := Option.ite_none_right_eq_some.mp ran
    obtain ⟨s', stepped, ran⟩ := Option.bind_eq_some_iff.mp ran
    have last := ih (kept seen s a s' start ok stepped) ran
    simpa [collect, stepped] using last

end Runs
