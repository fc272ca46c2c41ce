import Mathlib

/-!
# Programs that raise

A program that may raise is an `Except` computation.  The rules take a
successful run apart into its successful steps.
-/

namespace Outcome

variable {ε α β : Type}

/-- `if c: raise e`. -/
def raiseIf (c : Prop) [Decidable c] (e : ε) : Except ε Unit :=
  if c then .error e else .ok ()

theorem bind_ok_iff {x : Except ε α} {f : α → Except ε β} {b : β} :
    (x >>= f) = .ok b ↔ ∃ a, x = .ok a ∧ f a = .ok b := by
  cases x <;> simp [bind, Except.bind]

theorem pure_ok_iff {a b : α} : (pure a : Except ε α) = .ok b ↔ a = b :=
  Except.ok.injEq a b ▸ Iff.rfl

theorem raiseIf_ok_iff {c : Prop} [Decidable c] {e : ε} {u : Unit} :
    raiseIf c e = .ok u ↔ ¬ c := by
  by_cases h : c <;> simp [raiseIf, h]

theorem exists_of_isOk {x : Except ε α} (h : x.isOk = true) : ∃ a, x = .ok a := by
  cases x with
  | ok a => exact ⟨a, rfl⟩
  | error e => cases h

/-- A step that cannot raise is passed. -/
theorem bind_of_ok {x : Except ε α} {a : α} (h : x = .ok a) (f : α → Except ε β) :
    (x >>= f) = f a := by
  rw [h]
  rfl

/-- A loop of checks passes when each of its checks does. -/
theorem forM_ok_iff {xs : List α} {f : α → Except ε Unit} {u : Unit} :
    xs.forM f = .ok u ↔ ∀ x ∈ xs, f x = .ok () := by
  induction xs with
  | nil => simp [pure, Except.pure]
  | cons x xs ih =>
      change (f x >>= fun _ ↦ xs.forM f) = .ok u ↔ _
      rw [bind_ok_iff, List.forall_mem_cons]
      constructor
      · rintro ⟨⟨⟩, hx, hxs⟩
        exact ⟨hx, ih.mp hxs⟩
      · rintro ⟨hx, hxs⟩
        exact ⟨(), hx, ih.mpr hxs⟩

theorem mapM_ok_mem {xs : List α} {f : α → Except ε β} {ys : List β} (h : xs.mapM f = .ok ys)
    {x : α} (hx : x ∈ xs) : ∃ y ∈ ys, f x = .ok y := by
  induction xs generalizing ys with
  | nil => cases hx
  | cons a xs ih =>
      rw [List.mapM_cons, bind_ok_iff] at h
      obtain ⟨y, hy, hrest⟩ := h
      obtain ⟨rest, hxs, heq⟩ := bind_ok_iff.mp hrest
      cases heq
      rcases List.mem_cons.mp hx with rfl | hx
      · exact ⟨y, by simp, hy⟩
      · obtain ⟨z, hz, hfx⟩ := ih hxs hx
        exact ⟨z, List.mem_cons_of_mem y hz, hfx⟩

theorem mapM_ok_of_forall {xs : List α} {f : α → Except ε β} (h : ∀ x ∈ xs, ∃ y, f x = .ok y) :
    ∃ ys, xs.mapM f = .ok ys := by
  induction xs with
  | nil => exact ⟨[], rfl⟩
  | cons x xs ih =>
      obtain ⟨⟨y, hy⟩, hxs⟩ := List.forall_mem_cons.mp h
      obtain ⟨ys, hys⟩ := ih hxs
      rw [List.mapM_cons, hy, hys]
      exact ⟨y :: ys, rfl⟩

/-- A loop whose body checks `P` and computes `g`. -/
theorem mapM_ok_iff_map {f : α → Except ε β} {g : α → β} {P : α → Prop}
    (hf : ∀ x y, f x = .ok y ↔ P x ∧ y = g x) {xs : List α} {ys : List β} :
    xs.mapM f = .ok ys ↔ (∀ x ∈ xs, P x) ∧ ys = xs.map g := by
  induction xs generalizing ys with
  | nil => simp [pure, Except.pure, eq_comm]
  | cons x xs ih =>
      simp only [List.mapM_cons, bind_ok_iff, pure_ok_iff, hf, ih, List.forall_mem_cons,
        List.map_cons]
      constructor
      · rintro ⟨y, ⟨hx, rfl⟩, zs, ⟨hxs, rfl⟩, rfl⟩
        exact ⟨⟨hx, hxs⟩, rfl⟩
      · rintro ⟨⟨hx, hxs⟩, rfl⟩
        exact ⟨_, ⟨hx, rfl⟩, _, ⟨hxs, rfl⟩, rfl⟩

theorem option_mapM_iff_map {f : α → Option β} {g : α → β} {P : α → Prop}
    (hf : ∀ x y, f x = some y ↔ P x ∧ y = g x) {xs : List α} {ys : List β} :
    xs.mapM f = some ys ↔ (∀ x ∈ xs, P x) ∧ ys = xs.map g := by
  induction xs generalizing ys with
  | nil => simp [eq_comm]
  | cons x xs ih =>
      simp only [List.mapM_cons, Option.bind_eq_bind, Option.pure_def, Option.bind_eq_some_iff,
        Option.some.injEq, hf, ih, List.forall_mem_cons, List.map_cons]
      constructor
      · rintro ⟨y, ⟨hx, rfl⟩, zs, ⟨hxs, rfl⟩, rfl⟩
        exact ⟨⟨hx, hxs⟩, rfl⟩
      · rintro ⟨⟨hx, hxs⟩, rfl⟩
        exact ⟨_, ⟨hx, rfl⟩, _, ⟨hxs, rfl⟩, rfl⟩

theorem mapError_ok_iff {ε' : Type} {f : ε → ε'} {x : Except ε α} {a : α} :
    x.mapError f = .ok a ↔ x = .ok a := by
  cases x <;> simp [Except.mapError]

end Outcome
