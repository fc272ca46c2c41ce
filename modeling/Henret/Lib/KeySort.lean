import Henret.Lib.Outcome

/-!
# Sorting by a key that may raise

`sorted(xs, key=key)` computes every key before it compares any two.  Elements
with different keys are put in one order only, so the result does not depend on
the order in which they come.
-/

namespace KeySort

open Outcome

variable {α β ε κ : Type} [LE κ] [DecidableLE κ]

def sortByKey (key : α → Except ε κ) (xs : List α) : Except ε (List α) := do
  let keyed ← xs.mapM fun x ↦ do
    let k ← key x
    return (k, x)
  return (keyed.mergeSort fun a b ↦ a.1 ≤ b.1).map Prod.snd

def sortOn (key : α → κ) (xs : List α) : List α :=
  xs.mergeSort fun a b ↦ key a ≤ key b

@[simp] theorem sortOn_nil (key : α → κ) : sortOn key [] = [] :=
  List.mergeSort_nil

theorem sortOn_perm (key : α → κ) (xs : List α) : (sortOn key xs).Perm xs :=
  List.mergeSort_perm _ _

theorem mem_sortOn {key : α → κ} {xs : List α} {x : α} : x ∈ sortOn key xs ↔ x ∈ xs :=
  (sortOn_perm key xs).mem_iff

theorem map_sortOn (key : β → κ) (f : α → β) (xs : List α) :
    (sortOn (fun x ↦ key (f x)) xs).map f = sortOn key (xs.map f) := by
  apply List.map_mergeSort
  intro a _ b _
  rfl

theorem sortByKey_ok_iff {key : α → Except ε κ} {g : α → κ} {P : α → Prop}
    (hkey : ∀ x k, key x = .ok k ↔ P x ∧ k = g x) {xs out : List α} :
    sortByKey key xs = .ok out ↔ (∀ x ∈ xs, P x) ∧ out = sortOn g xs := by
  have hpair : ∀ (x : α) (kx : κ × α),
      (do
        let k ← key x
        return (k, x)) = .ok kx ↔ P x ∧ kx = (g x, x) := by
    intro x kx
    simp only [bind_ok_iff, pure_ok_iff, hkey]
    constructor
    · rintro ⟨k, ⟨hx, rfl⟩, rfl⟩
      exact ⟨hx, rfl⟩
    · rintro ⟨hx, rfl⟩
      exact ⟨_, ⟨hx, rfl⟩, rfl⟩
  have hsort : ∀ xs : List α,
      ((xs.map fun x ↦ (g x, x)).mergeSort fun a b ↦ a.1 ≤ b.1).map Prod.snd = sortOn g xs := by
    intro xs
    rw [sortOn, ← List.map_mergeSort (r := fun a b ↦ g a ≤ g b), List.map_map]
    · exact List.map_id _
    · intro a _ b _
      rfl
  simp only [sortByKey, bind_ok_iff, pure_ok_iff, mapM_ok_iff_map hpair]
  constructor
  · rintro ⟨keyed, ⟨hxs, rfl⟩, rfl⟩
    exact ⟨hxs, hsort xs⟩
  · rintro ⟨hxs, rfl⟩
    exact ⟨_, ⟨hxs, rfl⟩, hsort xs⟩

variable [Std.IsLinearOrder κ]

theorem sortOn_pairwise (key : α → κ) (xs : List α) :
    (sortOn key xs).Pairwise fun a b ↦ key a ≤ key b := by
  have hpairwise := @List.pairwise_mergeSort α (fun a b ↦ decide (key a ≤ key b))
    (fun a b c hab hbc ↦ by
      rw [decide_eq_true_eq] at hab hbc ⊢
      exact Std.le_trans hab hbc)
    (fun a b ↦ by
      rw [Bool.or_eq_true, decide_eq_true_eq, decide_eq_true_eq]
      exact Std.le_total) xs
  exact hpairwise.imp fun h ↦ of_decide_eq_true h

/-- Where different elements have different keys, the order of the input is lost. -/
theorem sortOn_eq_of_perm {key : α → κ} {xs ys : List α} (hperm : xs.Perm ys)
    (hinj : ∀ a ∈ xs, ∀ b ∈ xs, key a = key b → a = b) : sortOn key xs = sortOn key ys := by
  apply List.Perm.eq_of_pairwise ?_ (sortOn_pairwise key xs) (sortOn_pairwise key ys)
  · exact (sortOn_perm key xs).trans (hperm.trans (sortOn_perm key ys).symm)
  · intro a b ha hb hab hba
    apply hinj a (mem_sortOn.mp ha) b (hperm.mem_iff.mpr (mem_sortOn.mp hb))
    exact Std.le_antisymm hab hba

end KeySort
