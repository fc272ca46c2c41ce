import Henret.Bridge.Grammar
import Henret.Runtime.Scheduling

/-!
# Bounded overtaking of ready tasks

The ready queue is first in, first out: between two dispatches of other tasks a
waiting task moves up one place.  A ready task that is not retired before its
turn is therefore dispatched before more schedules succeed than tasks were
queued in front of it.  Nothing makes a run schedule at all, so progress is conditional
on the schedules that it performs.
-/

namespace Henret.Progress

open Bridge

/-- The state after the first `i` operations. -/
def stateAt (s : RuntimeState) (ops : List RuntimeOp) (i : ℕ) : RuntimeState :=
  run s (ops.take i)

def runnableAtStep (s : RuntimeState) (ops : List RuntimeOp) (i : ℕ) (t : TaskId) : Prop :=
  t ∈ (stateAt s ops i).readyQ

def scheduledAtStep (s : RuntimeState) (ops : List RuntimeOp) (i : ℕ) (t : TaskId) : Prop :=
  ∃ op, ops[i]? = some op ∧ (step (stateAt s ops i) op).2 = .scheduled t

/-- Every ready task is scheduled within `k` further steps. -/
def BoundedReadyFair (k : ℕ) (s : RuntimeState) (ops : List RuntimeOp) : Prop :=
  ∀ i t, runnableAtStep s ops i t → ∃ j, i ≤ j ∧ j ≤ i + k ∧ scheduledAtStep s ops j t

/-! ## One step -/

theorem idxOf_filter_le {t : TaskId} (q : List TaskId) (f : TaskId → Bool) (ht : f t = true) :
    (q.filter f).idxOf t ≤ q.idxOf t := by
  induction q with
  | nil => exact Nat.le_refl _
  | cons u q ih =>
      by_cases hut : u = t
      · subst hut
        simp [ht]
      · rw [List.idxOf_cons_ne _ hut]
        cases hu : f u with
        | true =>
            rw [List.filter_cons_of_pos hu, List.idxOf_cons_ne _ hut]
            exact Nat.succ_le_succ ih
        | false =>
            rw [List.filter_cons_of_neg (by simp [hu])]
            exact ih.trans (Nat.le_succ _)

/-- A task that stays queued does not fall back. -/
theorem idxOf_le_of_queueStep {q q' : List TaskId} {batch : List QOp} {t : TaskId}
    (h : QueueStep q q' batch) (hnodup : q.Nodup) (ht : t ∈ q) (ht' : t ∈ q') :
    q'.idxOf t ≤ q.idxOf t := by
  cases h with
  | push ts => rw [List.idxOf_append_of_mem ht]
  | pop u ts hq =>
      rw [hq, List.nodup_cons] at hnodup
      have hut : u ≠ t := by
        rintro rfl
        exact hnodup.1 ht'
      rw [hq, List.idxOf_cons_ne _ hut]
      exact Nat.le_succ _
  | filter ts => exact idxOf_filter_le q _ (List.mem_filter.mp ht').2

section Step

variable {s : RuntimeState} {p : TaskId → Phase} {op : RuntimeOp} {t : TaskId}

/-- A ready task stays ready until it is dispatched or retired. -/
theorem stays_ready (h : Located s p) (ht : t ∈ s.readyQ) (hop : op ≠ .schedule)
    (hkept : ¬ Retires s op t) : t ∈ (step s op).1.readyQ := by
  obtain ⟨p', h', hadv⟩ := h.step op
  have hqueued : p t = .queued := h.phase_queued ht
  have hlive : p' t ≠ .finished := by
    rw [ne_eq, hadv.finishes t, hqueued]
    rintro (hf | hr)
    · simp at hf
    · exact hkept hr
  have hidle : p' t ≠ .running := by
    intro hrunning
    have hmem : t ∈ queueOf (step s op).1 .running := h'.tracks.mem (by simp [hrunning, Phase.Holds])
    have hrun' : (step s op).1.running = some t := by simpa [queueOf] using hmem
    rcases (step_of_ne_schedule s hop).1 with hnone | hsame
    · simp [hnone] at hrun'
    · have hrunning' := h.phase_running (hsame ▸ hrun')
      simp [hqueued] at hrunning'
  have hqueued' : p' t = .queued := by
    rcases hadv.edge t with hsame | hedge
    · rw [hsame, hqueued]
    · rw [hqueued] at hedge
      cases hp : p' t <;> rw [hp] at hedge hlive hidle <;> cases hedge
      · exact absurd rfl hidle
      · exact absurd rfl hlive
  have hmem : t ∈ queueOf (step s op).1 .ready := h'.tracks.mem (by simp [hqueued', Phase.Holds])
  exact hmem

def isScheduled : StepResult → Bool
  | .scheduled _ => true
  | _ => false

/-- One step dispatches a ready task, retires it or keeps it; a dispatch of
another task brings it one place forward. -/
theorem step_overtaking (h : Located s p) (ht : t ∈ s.readyQ) (hkept : ¬ Retires s op t) :
    (step s op).2 = .scheduled t ∨ (t ∈ (step s op).1.readyQ ∧
      (step s op).1.readyQ.idxOf t + (isScheduled (step s op).2).toNat ≤ s.readyQ.idxOf t) := by
  by_cases hop : op = .schedule
  · subst hop
    obtain ⟨u, q, hrun, hready, hready', hresult⟩ | hstep := step_schedule_cases s
    · rw [hresult, hready', hready]
      by_cases hut : u = t
      · exact Or.inl (congrArg _ hut)
      · right
        rw [List.idxOf_cons_ne _ hut]
        rw [hready, List.mem_cons] at ht
        exact ⟨ht.resolve_left (Ne.symm hut), Nat.le_refl _⟩
    · right
      rw [hstep]
      exact ⟨ht, Nat.le_refl _⟩
  · right
    have ht' := stays_ready h ht hop hkept
    refine ⟨ht', ?_⟩
    have hresult : isScheduled (step s op).2 = false := by
      cases hr : (step s op).2 with
      | scheduled u => exact absurd hr ((step_of_ne_schedule s hop).2 u)
      | _ => rfl
    rw [hresult]
    exact idxOf_le_of_queueStep (step_queue s op) h.readyQ_nodup ht ht'

end Step

/-! ## Runs -/

section Run

variable {s : RuntimeState} {p : TaskId → Phase} {t : TaskId}

/-- The schedules that succeed in a run. -/
def schedules (s : RuntimeState) (ops : List RuntimeOp) : ℕ :=
  (runTrace s ops).2.countP isScheduled

/-- No step of the run brings `t` to a terminal state before its turn. -/
def Kept (t : TaskId) (s : RuntimeState) : List RuntimeOp → Prop
  | [] => True
  | op :: ops =>
      ¬ Retires s op t ∧ ((step s op).2 = .scheduled t ∨ Kept t (step s op).1 ops)

theorem run_overtaking (h : Located s p) (ht : t ∈ s.readyQ) (ops : List RuntimeOp)
    (hkept : Kept t s ops) :
    .scheduled t ∈ (runTrace s ops).2 ∨
      (run s ops).readyQ.idxOf t + schedules s ops ≤ s.readyQ.idxOf t := by
  induction ops generalizing s p with
  | nil => exact Or.inr (Nat.le_refl _)
  | cons op ops ih =>
      rw [runTrace_cons_snd, run_cons, schedules, runTrace_cons_snd, List.mem_cons]
      obtain ⟨hstays, hkept⟩ := hkept
      by_cases hnow : (step s op).2 = .scheduled t
      · exact Or.inl (Or.inl hnow.symm)
      · obtain ⟨ht', hidx⟩ := (step_overtaking h ht hstays).resolve_left hnow
        obtain ⟨p', h', -⟩ := h.step op
        rcases ih h' ht' (hkept.resolve_left hnow) with hlater | hrest
        · exact Or.inl (Or.inr hlater)
        · right
          rw [schedules] at hrest
          rw [List.countP_cons]
          cases hr : isScheduled (step s op).2 <;> simp [hr] at hidx ⊢ <;> omega

/-- A ready task that is kept until its turn is dispatched before more schedules
succeed than tasks were queued in front of it. -/
theorem reachable_overtaking (ops ops' : List RuntimeOp)
    (ht : t ∈ (run RuntimeState.init ops).readyQ)
    (hkept : Kept t (run RuntimeState.init ops) ops')
    (hbusy : (run RuntimeState.init ops).readyQ.idxOf t <
      schedules (run RuntimeState.init ops) ops') :
    .scheduled t ∈ (runTrace (run RuntimeState.init ops) ops').2 := by
  obtain ⟨p, h⟩ := reachable_located ops
  rcases run_overtaking h ht ops' hkept with hdone | hle
  · exact hdone
  · omega

/-! ## Bounded fairness -/

theorem exists_step_of_mem_runTrace {r : StepResult} {ops : List RuntimeOp}
    (h : r ∈ (runTrace s ops).2) :
    ∃ j op, ops[j]? = some op ∧ (step (stateAt s ops j) op).2 = r := by
  induction ops generalizing s with
  | nil => simp at h
  | cons op ops ih =>
      rw [runTrace_cons_snd, List.mem_cons] at h
      rcases h with rfl | h
      · exact ⟨0, op, rfl, rfl⟩
      · obtain ⟨j, op', hop', hr⟩ := ih h
        exact ⟨j + 1, op', hop', hr⟩

/-- The operations of the `k + 1` steps from step `i` on. -/
def window (k : ℕ) (ops : List RuntimeOp) (i : ℕ) : List RuntimeOp := (ops.drop i).take (k + 1)

theorem stateAt_window (s : RuntimeState) (k : ℕ) (ops : List RuntimeOp) {i j : ℕ}
    (hj : j < k + 1) :
    stateAt (stateAt s ops i) (window k ops i) j = stateAt s ops (i + j) := by
  rw [stateAt, stateAt, stateAt, window, List.take_take, Nat.min_eq_left hj.le, ← run_append,
    List.take_add]

/-- A run that retires no ready task before its turn is fair as far as it
schedules: it is enough that every window dispatches more tasks than wait in
front. -/
theorem boundedReadyFair_of_busy {k : ℕ} {ops : List RuntimeOp}
    (hbusy : ∀ i t, runnableAtStep RuntimeState.init ops i t →
      Kept t (stateAt RuntimeState.init ops i) (window k ops i) ∧
        (stateAt RuntimeState.init ops i).readyQ.idxOf t <
          schedules (stateAt RuntimeState.init ops i) (window k ops i)) :
    BoundedReadyFair k RuntimeState.init ops := by
  intro i t ht
  obtain ⟨hkept, hlt⟩ := hbusy i t ht
  have hdone := reachable_overtaking (ops.take i) (window k ops i) ht hkept hlt
  obtain ⟨j, op, hop, hr⟩ := exists_step_of_mem_runTrace hdone
  have hj : j < k + 1 := by
    by_contra hge
    rw [window, List.getElem?_eq_none] at hop
    · simp at hop
    · exact (List.length_take_le _ _).trans (Nat.le_of_not_lt hge)
  refine ⟨i + j, Nat.le_add_right i j, by omega, op, ?_, ?_⟩
  · rw [window, List.getElem?_take_of_lt hj, List.getElem?_drop] at hop
    exact hop
  · rw [← stateAt_window RuntimeState.init k ops hj]
    exact hr

/-- Two tasks take their turns and complete. -/
def turnsRun : List RuntimeOp :=
  [.spawn 7, .spawn 8, .schedule, .complete 0, .schedule, .complete 1]

theorem boundedReadyFair_of_busy_turns : BoundedReadyFair 2 RuntimeState.init turnsRun := by
  apply boundedReadyFair_of_busy
  intro i t ht
  obtain _ | _ | _ | _ | _ | i := i
  · cases ht
  · obtain rfl : t = 0 := List.mem_singleton.mp ht
    exact ⟨⟨by simp [Retires], Or.inr ⟨by simp [Retires], Or.inl rfl⟩⟩, by decide⟩
  · obtain rfl | rfl : t = 0 ∨ t = 1 := List.mem_pair.mp ht
    · exact ⟨⟨by simp [Retires], Or.inl rfl⟩, by decide⟩
    · refine ⟨⟨by simp [Retires], Or.inr ⟨?_, Or.inr ⟨by simp [Retires], Or.inl rfl⟩⟩⟩, by decide⟩
      simp [Retires]
  · obtain rfl : t = 1 := List.mem_singleton.mp ht
    exact ⟨⟨by simp [Retires], Or.inr ⟨by simp [Retires], Or.inl rfl⟩⟩, by decide⟩
  · obtain rfl : t = 1 := List.mem_singleton.mp ht
    exact ⟨⟨by simp [Retires], Or.inl rfl⟩, by decide⟩
  · have hqueue : (stateAt RuntimeState.init turnsRun (i + 5)).readyQ = [] := by
      obtain _ | i := i
      · decide
      · simp only [stateAt, turnsRun, List.take_succ_cons, List.take_nil]
        decide
    rw [runnableAtStep, hqueue] at ht
    cases ht

end Run

end Henret.Progress
