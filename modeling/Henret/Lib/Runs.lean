import Mathlib

/-!
# Properties at every point of a run

A deterministic system takes one step for each action of a list.  When a step
keeps a property exactly under a condition on the state before it, a whole run
keeps the property exactly when each of its steps meets the condition.
-/

namespace Runs

variable {σ α : Type*}

/-- `P` holds at every point of the run of `as` from `s`. -/
def Throughout (step : σ → α → σ) (P : σ → Prop) : σ → List α → Prop
  | s, [] => P s
  | s, a :: as => P s ∧ Throughout step P (step s a) as

/-- Every step of the run of `as` from `s` meets `C`. -/
def EachStep (step : σ → α → σ) (C : σ → α → Prop) : σ → List α → Prop
  | _, [] => True
  | s, a :: as => C s a ∧ EachStep step C (step s a) as

variable {step : σ → α → σ} {P I : σ → Prop} {C : σ → α → Prop}

theorem Throughout.head {s : σ} {as : List α} (h : Throughout step P s as) : P s := by
  cases as with
  | nil => exact h
  | cons a as => exact h.1

/-- The points of a run are the states after its initial segments. -/
theorem throughout_iff_append {s : σ} {as : List α} :
    Throughout step P s as ↔ ∀ as₁ as₂, as = as₁ ++ as₂ → P (as₁.foldl step s) := by
  induction as generalizing s with
  | nil =>
      refine ⟨fun h as₁ as₂ heq ↦ ?_, fun h ↦ h [] [] rfl⟩
      rw [(List.append_eq_nil_iff.mp heq.symm).1]
      exact h
  | cons a as ih =>
      refine ⟨fun h as₁ as₂ heq ↦ ?_, fun h ↦ ⟨h [] _ rfl, ih.mpr fun as₁ as₂ heq ↦ ?_⟩⟩
      · cases as₁ with
        | nil => exact h.1
        | cons b bs =>
            obtain ⟨rfl, htail⟩ := List.cons_eq_cons.mp heq
            exact ih.mp h.2 bs as₂ htail
      · exact h (a :: as₁) as₂ (by rw [heq, List.cons_append])

/-- The run rule: `I` is kept by every step, and under `I` a step keeps `P`
exactly when it meets `C`. -/
theorem throughout_iff_eachStep (hI : ∀ s a, I s → I (step s a))
    (hC : ∀ s a, I s → P s → (P (step s a) ↔ C s a)) {s : σ} (hs : I s) (hP : P s)
    (as : List α) : Throughout step P s as ↔ EachStep step C s as := by
  induction as generalizing s with
  | nil => exact iff_of_true hP trivial
  | cons a as ih =>
      refine ⟨fun h ↦ ?_, fun h ↦ ⟨hP, ?_⟩⟩
      · have hnext := h.2.head
        exact ⟨(hC s a hs hP).mp hnext, (ih (hI s a hs) hnext).mp h.2⟩
      · exact (ih (hI s a hs) ((hC s a hs hP).mpr h.1)).mpr h.2

end Runs
