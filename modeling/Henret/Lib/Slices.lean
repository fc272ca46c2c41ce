import Mathlib

/-!
# Reading and writing fixed-width fields

A record is a list of elements in which a writer assigns slices and a reader
takes them out again by position.
-/

namespace Slices

variable {α : Type*} {l v v' : List α} {i j start width : ℕ}

theorem drop_eq_cons {x : α} {k : ℕ} (h : l[k]? = some x) : l.drop k = x :: l.drop (k + 1) := by
  obtain ⟨hlt, hget⟩ := List.getElem?_eq_some_iff.mp h
  rw [← hget, List.getElem_cons_drop]

theorem eq_take_cons_drop {x : α} {k : ℕ} (h : l[k]? = some x) :
    l = l.take k ++ x :: l.drop (k + 1) := by
  rw [← drop_eq_cons h, List.take_append_drop]

/-- The field of `width` elements at `start`. -/
def slice (l : List α) (start width : ℕ) : List α :=
  (l.drop start).take width

/-- Replace the elements from `i` up to `j` by `v`. -/
def setSlice (l : List α) (i j : ℕ) (v : List α) : List α :=
  l.take i ++ v ++ l.drop j

theorem length_setSlice (hv : i + v.length = j) (hj : j ≤ l.length) :
    (setSlice l i j v).length = l.length := by
  simp only [setSlice, List.length_append, List.length_take, List.length_drop]
  omega

theorem slice_eq_of_getElem? (l' : List α)
    (h : ∀ k, start ≤ k → k < start + width → l[k]? = l'[k]?) :
    slice l start width = slice l' start width := by
  apply List.ext_getElem?
  intro k
  simp only [slice, List.getElem?_take, List.getElem?_drop]
  split
  · exact h (start + k) (by omega) (by omega)
  · rfl

theorem getElem?_setSlice_of_lt (hi : i ≤ l.length) {k : ℕ} (hk : k < i) :
    (setSlice l i j v)[k]? = l[k]? := by
  rw [setSlice, List.append_assoc, List.getElem?_append_left (by simp; omega),
    List.getElem?_take, if_pos hk]

theorem getElem?_setSlice_of_ge (hv : i + v.length = j) (hj : j ≤ l.length) {k : ℕ} (hk : j ≤ k) :
    (setSlice l i j v)[k]? = l[k]? := by
  have hlen : (l.take i ++ v).length = j := by
    simp only [List.length_append, List.length_take]
    omega
  rw [setSlice, List.getElem?_append_right (by omega), hlen, List.getElem?_drop]
  congr 1
  omega

/-- Writing elsewhere does not change a field. -/
theorem slice_setSlice_of_disjoint (hv : i + v.length = j) (hj : j ≤ l.length)
    (h : start + width ≤ i ∨ j ≤ start) :
    slice (setSlice l i j v) start width = slice l start width := by
  apply slice_eq_of_getElem?
  intro k hlow hhigh
  rcases h with hbefore | hafter
  · exact getElem?_setSlice_of_lt (by omega) (by omega)
  · exact getElem?_setSlice_of_ge hv hj (by omega)

/-- A field starts with what was written at its start; behind it stands what was there. -/
theorem slice_setSlice_self (hv : i + v.length = j) (hj : j ≤ l.length) (hw : v.length ≤ width) :
    slice (setSlice l i j v) i width = v ++ slice l j (width - v.length) := by
  have hlen : (l.take i).length = i := by
    simp only [List.length_take]
    omega
  rw [slice, setSlice, List.append_assoc, List.drop_append_of_le_length (by omega),
    List.drop_of_length_le (by omega), List.nil_append, List.take_append,
    List.take_of_length_le hw, slice]

theorem setSlice_setSlice (hv : i + v.length = j) (hj : j ≤ l.length) :
    setSlice (setSlice l i j v) i j v' = setSlice l i j v' := by
  have hlen : (l.take i ++ v).length = j := by
    simp only [List.length_append, List.length_take]
    omega
  have htake : (setSlice l i j v).take i = l.take i := by
    rw [setSlice, List.append_assoc, List.take_append_of_le_length (by simp; omega),
      List.take_take, Nat.min_self]
  have hdrop : (setSlice l i j v).drop j = l.drop j := by
    rw [setSlice, List.drop_append_of_le_length (by omega), List.drop_of_length_le (by omega),
      List.nil_append]
  rw [setSlice, htake, hdrop, setSlice]

theorem slice_replicate {a : α} {n : ℕ} (h : start + width ≤ n) :
    slice (List.replicate n a) start width = List.replicate width a := by
  rw [slice, List.drop_replicate, List.take_replicate]
  congr 1
  omega

theorem setSlice_slice (hij : i ≤ j) : setSlice l i j (slice l i (j - i)) = l := by
  have hdrop : l.drop j = (l.drop i).drop (j - i) := by
    rw [List.drop_drop, Nat.add_sub_cancel' hij]
  rw [setSlice, slice, hdrop, List.append_assoc, List.take_append_drop, List.take_append_drop]

/-- Reading back a string that was padded to the width of its field. -/
theorem takeWhile_padded [DecidableEq α] {a : α} {n : ℕ} (hv : a ∉ v) :
    (v ++ List.replicate n a).takeWhile (fun x ↦ x ≠ a) = v := by
  have hne : ∀ x ∈ v, decide (x ≠ a) = true := by
    intro x hx
    exact decide_eq_true fun heq ↦ hv (heq ▸ hx)
  rw [List.takeWhile_append_of_pos hne]
  cases n <;> simp [List.replicate_succ]

/-! ## A sequence of writes -/

/-- Write each value at its start, in order. -/
def writeAll (l : List α) (ws : List (ℕ × List α)) : List α :=
  ws.foldl (fun l w ↦ setSlice l w.1 (w.1 + w.2.length) w.2) l

/-- Every write stays inside a record of `n` elements. -/
def Fits (n : ℕ) (ws : List (ℕ × List α)) : Prop :=
  ∀ w ∈ ws, w.1 + w.2.length ≤ n

/-- Every write avoids the field of `width` elements at `start`. -/
def Avoids (start width : ℕ) (ws : List (ℕ × List α)) : Prop :=
  ∀ w ∈ ws, start + width ≤ w.1 ∨ w.1 + w.2.length ≤ start

variable {ws ws₁ ws₂ : List (ℕ × List α)}

theorem length_writeAll (h : Fits l.length ws) : (writeAll l ws).length = l.length := by
  induction ws generalizing l with
  | nil => rfl
  | cons w ws ih =>
      have hlen : (setSlice l w.1 (w.1 + w.2.length) w.2).length = l.length :=
        length_setSlice rfl (h w (by simp))
      rw [writeAll, List.foldl_cons, ← writeAll, ih, hlen]
      intro w' hw'
      rw [hlen]
      exact h w' (by simp [hw'])

theorem slice_writeAll_of_avoids (hfits : Fits l.length ws) (h : Avoids start width ws) :
    slice (writeAll l ws) start width = slice l start width := by
  induction ws generalizing l with
  | nil => rfl
  | cons w ws ih =>
      have hin := hfits w (by simp)
      have hlen : (setSlice l w.1 (w.1 + w.2.length) w.2).length = l.length :=
        length_setSlice rfl hin
      rw [writeAll, List.foldl_cons, ← writeAll, ih]
      · exact slice_setSlice_of_disjoint rfl hin (h w (by simp))
      · intro w' hw'
        rw [hlen]
        exact hfits w' (by simp [hw'])
      · exact fun w' hw' ↦ h w' (by simp [hw'])

/-- A field that one write fills reads as its value, padded with the fill element. -/
theorem slice_writeAll {n : ℕ} {a : α} (hfits : Fits n (ws₁ ++ (start, v) :: ws₂))
    (hv : v.length ≤ width) (hin : start + width ≤ n) (h₁ : Avoids start width ws₁)
    (h₂ : Avoids start width ws₂) :
    slice (writeAll (List.replicate n a) (ws₁ ++ (start, v) :: ws₂)) start width =
      v ++ List.replicate (width - v.length) a := by
  have hfits₁ : Fits (List.replicate n a).length ws₁ := by
    intro w hw
    rw [List.length_replicate]
    exact hfits w (by simp [hw])
  have hlen := length_writeAll hfits₁
  rw [List.length_replicate] at hlen
  have hstart : start + v.length ≤ (writeAll (List.replicate n a) ws₁).length := by
    rw [hlen]
    exact hfits (start, v) (by simp)
  rw [writeAll, List.foldl_append, List.foldl_cons, ← writeAll, ← writeAll,
    slice_writeAll_of_avoids _ h₂, slice_setSlice_self rfl hstart hv,
    slice_writeAll_of_avoids hfits₁, slice_replicate (by omega)]
  · intro w hw
    rcases h₁ w hw with hbefore | hafter
    · exact Or.inl (by omega)
    · exact Or.inr (by omega)
  · intro w hw
    rw [length_setSlice rfl hstart, hlen]
    exact hfits w (by simp [hw])

/-! ## Layouts -/

/-- A layout lists the fields of a record, by start and width, from left to right. -/
def Ordered (layout : List (ℕ × ℕ)) : Prop :=
  layout.Pairwise fun r r' ↦ r.1 + r.2 ≤ r'.1

instance (layout : List (ℕ × ℕ)) : Decidable (Ordered layout) :=
  inferInstanceAs (Decidable (List.Pairwise _ _))

/-- The writes fill the fields of the layout one by one. -/
def Fills (layout : List (ℕ × ℕ)) (ws : List (ℕ × List α)) : Prop :=
  List.Forall₂ (fun w r ↦ w.1 = r.1 ∧ w.2.length ≤ r.2) ws layout

variable {layout : List (ℕ × ℕ)} {n : ℕ}

theorem Fills.fits (h : Fills layout ws) (hin : ∀ r ∈ layout, r.1 + r.2 ≤ n) : Fits n ws := by
  induction h with
  | nil => intro w hw; simp at hw
  | cons hwr _ ih =>
      intro w hw
      rcases List.mem_cons.mp hw with rfl | hw
      · have hr := hin _ (List.mem_cons_self)
        omega
      · exact ih (fun r hr ↦ hin r (by simp [hr])) w hw

theorem Fills.exists_field (h : Fills layout ws) {w : ℕ × List α} (hw : w ∈ ws) :
    ∃ r ∈ layout, w.1 = r.1 ∧ w.2.length ≤ r.2 := by
  induction h with
  | nil => simp at hw
  | cons hwr _ ih =>
      rcases List.mem_cons.mp hw with rfl | hw
      · exact ⟨_, List.mem_cons_self, hwr⟩
      · obtain ⟨r, hr, hfits⟩ := ih hw
        exact ⟨r, List.mem_cons_of_mem _ hr, hfits⟩

/-- Each field of a filled layout reads as its value, padded with the fill element. -/
theorem slice_writeAll_of_fills {a : α} {k : ℕ} (hordered : Ordered layout)
    (hin : ∀ r ∈ layout, r.1 + r.2 ≤ n) (hfills : Fills layout ws)
    (hw : ws[k]? = some (start, v)) (hr : layout[k]? = some (start, width)) :
    slice (writeAll (List.replicate n a) ws) start width =
      v ++ List.replicate (width - v.length) a := by
  have hws := eq_take_cons_drop hw
  have hlayout := eq_take_cons_drop hr
  rw [hlayout, Ordered, List.pairwise_append] at hordered
  obtain ⟨-, hright, hcross⟩ := hordered
  have htake : Fills (layout.take k) (ws.take k) := List.forall₂_take k hfills
  have hdrop : Fills (layout.drop k) (ws.drop k) := List.forall₂_drop k hfills
  rw [drop_eq_cons hw, drop_eq_cons hr] at hdrop
  obtain ⟨⟨-, hv⟩, hrest⟩ := List.forall₂_cons.mp hdrop
  have hfits := hfills.fits hin
  rw [hws] at hfits ⊢
  refine slice_writeAll hfits hv (hin _ (List.mem_of_getElem? hr)) ?_ ?_
  · intro w hmem
    obtain ⟨r, hrmem, hstart, hlen⟩ := Fills.exists_field htake hmem
    have hle := hcross r hrmem (start, width) (by simp)
    exact Or.inr (by simp only at hle; omega)
  · intro w hmem
    obtain ⟨r, hrmem, hstart, hlen⟩ := Fills.exists_field hrest hmem
    have hle := (List.pairwise_cons.mp hright).1 r hrmem
    exact Or.inl (by simp only at hle; omega)

end Slices
