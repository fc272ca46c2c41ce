import Mathlib

/-!
# Queues that track the phases of their elements

A system keeps its elements in a family of queues indexed by slots.  Each
element is in one phase, and a phase says which slots hold the element.  The
queues *track* the phases when every slot lists, without repetition, exactly
the elements whose phase holds that slot.  The rules below say how tracking
survives the moves a system makes: one element changes phase, or a set of
elements leaves every queue.
-/

namespace Occupancy

variable {τ σ φ : Type*} {holds : φ → σ → Prop}
  {queue queue' : σ → List τ} {phase phase' : τ → φ}

structure Tracks (holds : φ → σ → Prop) (queue : σ → List τ) (phase : τ → φ) : Prop where
  nodup : ∀ x, (queue x).Nodup
  mem_iff : ∀ x t, t ∈ queue x ↔ holds (phase t) x

/-- Filtering the head out of a duplicate-free queue leaves its tail. -/
theorem filter_ne_head [DecidableEq τ] {t : τ} {q : List τ} (h : (t :: q).Nodup) :
    (t :: q).filter (fun u ↦ u ≠ t) = q := by
  rw [List.nodup_cons] at h
  rw [List.filter_cons_of_neg (by simp), List.filter_eq_self]
  intro u hu
  have hne : u ≠ t := fun hut ↦ h.1 (hut ▸ hu)
  simpa using hne

namespace Tracks

theorem mem (h : Tracks holds queue phase) {t : τ} {x : σ}
    (ht : holds (phase t) x) : t ∈ queue x :=
  (h.mem_iff x t).mpr ht

theorem notMem (h : Tracks holds queue phase) {t : τ} {x : σ}
    (ht : ¬ holds (phase t) x) : t ∉ queue x :=
  fun hmem ↦ ht ((h.mem_iff x t).mp hmem)

/-- The order inside the queues does not matter. -/
theorem congr_perm (h : Tracks holds queue phase) (hperm : ∀ x, (queue' x).Perm (queue x)) :
    Tracks holds queue' phase where
  nodup := fun x ↦ (hperm x).nodup_iff.mpr (h.nodup x)
  mem_iff := fun x t ↦ (hperm x).mem_iff.trans (h.mem_iff x t)

/-- A queue without `t` is not changed by filtering `t` out. -/
theorem filter_ne_eq_self [DecidableEq τ] (h : Tracks holds queue phase) {t : τ} {x : σ}
    (ht : ¬ holds (phase t) x) : (queue x).filter (fun u ↦ u ≠ t) = queue x := by
  apply List.filter_eq_self.mpr
  intro u hu
  have hne : u ≠ t := fun hut ↦ h.notMem ht (hut ▸ hu)
  simpa using hne

/-- One element changes phase: it leaves the slots that only its old phase
holds and enters the slots that only its new phase holds.  The order inside a
queue does not matter. -/
theorem move [DecidableEq τ] (h : Tracks holds queue phase) (t : τ) (b : φ)
    (hkeep : ∀ x, (holds (phase t) x ↔ holds b x) → (queue' x).Perm (queue x))
    (hleave : ∀ x, holds (phase t) x → ¬ holds b x →
      (queue' x).Perm ((queue x).filter (fun u ↦ u ≠ t)))
    (henter : ∀ x, ¬ holds (phase t) x → holds b x → (queue' x).Perm (t :: queue x)) :
    Tracks holds queue' (Function.update phase t b) := by
  have hothers : ∀ (x : σ) (u : τ), u ≠ t →
      (u ∈ queue x ↔ holds (Function.update phase t b u) x) := by
    intro x u hu
    rw [Function.update_of_ne hu]
    exact h.mem_iff x u
  constructor
  · intro x
    by_cases hold : holds (phase t) x <;> by_cases hnew : holds b x
    · exact (hkeep x (iff_of_true hold hnew)).nodup_iff.mpr (h.nodup x)
    · exact (hleave x hold hnew).nodup_iff.mpr ((h.nodup x).filter _)
    · exact (henter x hold hnew).nodup_iff.mpr
        (List.nodup_cons.mpr ⟨h.notMem hold, h.nodup x⟩)
    · exact (hkeep x (iff_of_false hold hnew)).nodup_iff.mpr (h.nodup x)
  · intro x u
    by_cases hut : u = t
    · subst hut
      rw [Function.update_self]
      by_cases hold : holds (phase u) x <;> by_cases hnew : holds b x
      · exact iff_of_true ((hkeep x (iff_of_true hold hnew)).mem_iff.mpr (h.mem hold)) hnew
      · refine iff_of_false (fun hmem ↦ ?_) hnew
        simpa using (hleave x hold hnew).mem_iff.mp hmem
      · exact iff_of_true ((henter x hold hnew).mem_iff.mpr List.mem_cons_self) hnew
      · refine iff_of_false (fun hmem ↦ ?_) hnew
        exact h.notMem hold ((hkeep x (iff_of_false hold hnew)).mem_iff.mp hmem)
    · rw [← hothers x u hut]
      by_cases hold : holds (phase t) x <;> by_cases hnew : holds b x
      · exact (hkeep x (iff_of_true hold hnew)).mem_iff
      · rw [(hleave x hold hnew).mem_iff]
        simp [hut]
      · rw [(henter x hold hnew).mem_iff]
        simp [hut]
      · exact (hkeep x (iff_of_false hold hnew)).mem_iff

/-- The elements satisfying `gone` leave every queue for phases that hold no slot. -/
theorem dismiss (h : Tracks holds queue phase) (gone : τ → Bool)
    (hqueue : ∀ x, queue' x = (queue x).filter (fun t ↦ !gone t))
    (hgone : ∀ t x, gone t = true → ¬ holds (phase' t) x)
    (hstay : ∀ t, gone t = false → phase' t = phase t) :
    Tracks holds queue' phase' := by
  constructor
  · intro x
    rw [hqueue x]
    exact (h.nodup x).filter _
  · intro x t
    rw [hqueue x, List.mem_filter, h.mem_iff x t]
    cases hg : gone t with
    | false => simp [hstay t hg]
    | true => simp [hgone t x hg]

end Tracks

end Occupancy
