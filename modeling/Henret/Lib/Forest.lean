import Mathlib

/-!
# Forests given by parent pointers

Every node names at most one parent, and a parent is smaller than its child.
A forest grows by attaching a fresh node.  The subtree of a node does not
grow any more once nothing is attached below it.
-/

namespace Forest

/-- `t` is `root`, or following parents from `t` leads to `root`. -/
def Descends {α : Type*} (parent : α → Option α) (root : α) : α → Prop :=
  Relation.ReflTransGen (fun q t ↦ parent t = some q) root

/-- Parents are smaller than their children. -/
def Descending (parent : ℕ → Option ℕ) : Prop :=
  ∀ t q, parent t = some q → q < t

section Descends

variable {α : Type*} {parent : α → Option α} {root t q : α}

theorem Descends.refl (root : α) : Descends parent root root :=
  Relation.ReflTransGen.refl

theorem Descends.child (h : Descends parent root q) (ht : parent t = some q) :
    Descends parent root t :=
  Relation.ReflTransGen.tail h ht

theorem descends_iff :
    Descends parent root t ↔ t = root ∨ ∃ q, parent t = some q ∧ Descends parent root q := by
  constructor
  · intro h
    rcases Relation.ReflTransGen.cases_tail h with heq | ⟨q, hq, ht⟩
    · exact Or.inl heq
    · exact Or.inr ⟨q, ht, hq⟩
  · rintro (rfl | ⟨q, ht, hq⟩)
    · exact Descends.refl t
    · exact hq.child ht

end Descends

variable {parent parent' : ℕ → Option ℕ} {root t n : ℕ}

/-- The walk from a node only reads the parents of nodes up to it. -/
theorem descends_congr (hlt : Descending parent) (hagree : ∀ u, u < n → parent' u = parent u)
    (ht : t < n) : Descends parent' root t ↔ Descends parent root t := by
  induction t using Nat.strong_induction_on with
  | _ t ih =>
      rw [descends_iff, @descends_iff _ parent, hagree t ht]
      apply or_congr Iff.rfl
      apply exists_congr
      intro q
      apply and_congr_right
      intro hq
      exact ih q (hlt t q hq) ((hlt t q hq).trans ht)

/-- A fresh node enters the subtree of an older root exactly when its parent is there. -/
theorem descends_fresh (hlt : Descending parent) (hagree : ∀ u, u < n → parent' u = parent u)
    (hroot : root < n) (hnew : ∀ q, parent' n = some q → q < n) :
    Descends parent' root n ↔ ∃ q, parent' n = some q ∧ Descends parent root q := by
  rw [descends_iff, or_iff_right hroot.ne']
  apply exists_congr
  intro q
  apply and_congr_right
  intro hq
  exact descends_congr hlt hagree (hnew q hq)

end Forest
