/-
Runs of a system that takes labelled steps.

`Runs step` is any number of steps, with their labels in order.  A system whose every step is
matched by a step of another one with the same label is matched in whole runs
(`Runs.simulates`).
-/
import Mathlib.Tactic.Common

namespace LabelledRuns

variable {S A L V : Type*} {step : S → L → S → Prop} {step' : A → L → A → Prop}

/-- A run, with the labels of its steps. -/
inductive Runs (step : S → L → S → Prop) : S → List L → S → Prop
  | nil {s} : Runs step s [] s
  | cons {s s' s'' l ls} : step s l s' → Runs step s' ls s'' → Runs step s (l :: ls) s''

theorem Runs.simulates {R : S → A → Prop}
    (hstep : ∀ s a l s', R s a → step s l s' → ∃ a', step' a l a' ∧ R s' a') {s s' : S}
    {ls : List L} (h : Runs step s ls s') :
    ∀ {a : A}, R s a → ∃ a', Runs step' a ls a' ∧ R s' a' := by
  induction h with
  | nil => exact fun {a} ha => ⟨a, .nil, ha⟩
  | cons hone _ ih =>
    intro a ha
    obtain ⟨a₁, hone', ha₁⟩ := hstep _ _ _ _ ha hone
    obtain ⟨a₂, hrest, ha₂⟩ := ih ha₁
    exact ⟨a₂, .cons hone' hrest, ha₂⟩

theorem Runs.append {s s' s'' : S} {ls ls' : List L} (h : Runs step s ls s')
    (h' : Runs step s' ls' s'') : Runs step s (ls ++ ls') s'' := by
  induction h with
  | nil => exact h'
  | cons hone _ ih => exact .cons hone (ih h')

/-- A run of a function. -/
theorem Runs.eq_foldl {f : A → L → A} {a a' : A} {ls : List L}
    (h : Runs (fun a l a' => a' = f a l) a ls a') : a' = ls.foldl f a := by
  induction h with
  | nil => rfl
  | cons hone _ ih => rw [ih, hone, List.foldl_cons]

end LabelledRuns
