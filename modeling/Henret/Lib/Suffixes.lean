import Mathlib

/-!
# The least failing suffix of a list

For a Bool test on lists, a list with a failing suffix has exactly one failing
suffix all of whose proper suffixes pass.
-/

namespace Suffixes

variable {α : Type*} {p : List α → Bool} {l m : List α}

structure LeastFailing (p : List α → Bool) (l m : List α) : Prop where
  suffix : m <:+ l
  fails : p m = false
  least : ∀ m', m' <:+ m → p m' = false → m' = m

namespace LeastFailing

theorem exists_of_suffix (h : ∃ m, m <:+ l ∧ p m = false) : ∃ m, LeastFailing p l m := by
  induction l with
  | nil =>
      obtain ⟨m, hm, hfail⟩ := h
      exact ⟨m, hm, hfail, fun m' hm' _ ↦ by
        rw [List.suffix_nil.mp hm, List.suffix_nil] at hm'
        rw [hm', List.suffix_nil.mp hm]⟩
  | cons x l ih =>
      by_cases htail : ∃ m, m <:+ l ∧ p m = false
      · obtain ⟨m, hm⟩ := ih htail
        exact ⟨m, hm.suffix.trans (List.suffix_cons x l), hm.fails, hm.least⟩
      · obtain ⟨m, hm, hfail⟩ := h
        refine ⟨m, hm, hfail, fun m' hm' hfail' ↦ ?_⟩
        rcases List.suffix_cons_iff.mp (hm'.trans hm) with rfl | hin
        · exact hm'.eq_of_length_le hm.length_le
        · exact absurd ⟨m', hin, hfail'⟩ htail

theorem exists_of_fails (h : p l = false) : ∃ m, LeastFailing p l m :=
  exists_of_suffix ⟨l, List.suffix_refl l, h⟩

theorem unique {m' : List α} (h : LeastFailing p l m) (h' : LeastFailing p l m') : m = m' := by
  rcases List.suffix_or_suffix_of_suffix h.suffix h'.suffix with hle | hle
  · exact h'.least m hle h.fails
  · exact (h.least m' hle h'.fails).symm

/-- The least failing suffix of a list is that of every list it is a suffix of. -/
theorem of_suffix {l' : List α} (h : LeastFailing p l m) (hm : m <:+ l') : LeastFailing p l' m :=
  ⟨hm, h.fails, h.least⟩

theorem passes_of_cons_suffix (h : LeastFailing p l m) {x : α} {m' : List α}
    (hm' : x :: m' <:+ m) : p m' = true := by
  rw [← Bool.not_eq_false]
  intro hfail
  have heq := h.least m' ((List.suffix_cons x m').trans hm') hfail
  have hlen := hm'.length_le
  simp [heq] at hlen

end LeastFailing

end Suffixes
