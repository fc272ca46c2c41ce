import Henret.Lib.Runs
import Henret.Runtime.Messages

/-!
# Timers over whole runs

A timer entry belongs to a task that sleeps or waits with a deadline.  It is
kept until something rouses its task: a tick at or after the deadline, a direct
wake of a sleeper, a message for a timed waiter at the head of its queue, or a
cancellation.  No task wakes early, and a due tick wakes every due task.
-/

namespace Henret

open Runs

/-- The actor to which an operation delivers a message. -/
def deliversTo (s : RuntimeState) (op : RuntimeOp) : Option ActorId :=
  match op with
  | .send _ b _ | .inject b _ => if (step s op).2 = .ok then some b else none
  | _ => none

/-- The task that a delivery to `b` wakes. -/
def headWaiter (s : RuntimeState) (b : ActorId) : Option TaskId :=
  (s.mailboxWaiters b ++ s.timedMailboxWaiters b).head?

/-- What takes the task of a timer entry out of its sleep or timed wait. -/
inductive Rouses (s : RuntimeState) (e : TimerEntry) : RuntimeOp → Prop where
  | retire {op : RuntimeOp} (h : Retires s op e.task) : Rouses s e op
  | wake (h : s.taskState e.task = some .sleeping) : Rouses s e (.wake e.task)
  | tick {now : ℕ} (hnow : s.now ≤ now) (hdue : e.deadline ≤ now) : Rouses s e (.tick now)
  | message {op : RuntimeOp} {b : ActorId} (hto : deliversTo s op = some b)
      (hhead : headWaiter s b = some e.task) : Rouses s e op

/-! ## The timer queue -/

theorem insertSorted_eq_orderedInsert (e : TimerEntry) (l : List TimerEntry) :
    Timer.insertSorted e l = l.orderedInsert (fun a b ↦ a.deadline ≤ b.deadline) e := by
  induction l with
  | nil => rfl
  | cons x xs ih => rw [Timer.insertSorted, List.orderedInsert_cons, ih]

def TimersSorted (s : RuntimeState) : Prop :=
  s.timers.Pairwise fun a b ↦ a.deadline ≤ b.deadline

theorem sorted_insertSorted {l : List TimerEntry} (e : TimerEntry)
    (h : l.Pairwise fun a b ↦ a.deadline ≤ b.deadline) :
    (Timer.insertSorted e l).Pairwise fun a b ↦ a.deadline ≤ b.deadline := by
  have htotal : Std.Total fun a b : TimerEntry ↦ a.deadline ≤ b.deadline :=
    ⟨fun a b ↦ le_total a.deadline b.deadline⟩
  have htrans : IsTrans TimerEntry fun a b ↦ a.deadline ≤ b.deadline :=
    ⟨fun _ _ _ hab hbc ↦ hab.trans hbc⟩
  rw [insertSorted_eq_orderedInsert]
  exact h.orderedInsert e l

section Step

variable {s : RuntimeState} {p p' : TaskId → Phase} {e : TimerEntry}

theorem mem_insertSorted {e' : TimerEntry} {l : List TimerEntry} :
    e ∈ Timer.insertSorted e' l ↔ e = e' ∨ e ∈ l := by
  rw [(Timer.insertSorted_perm e' l).mem_iff, List.mem_cons]

/-- A delivery drops the entry of the task it wakes and no other. -/
theorem deliver_timers (s : RuntimeState) (b : ActorId) (mb : Mailbox) (env : Envelope) :
    (deliver s b mb env).timers =
      s.timers.filter fun e ↦ headWaiter s b ≠ some e.task := by
  unfold deliver
  split
  · next w ws hw => simp [headWaiter, hw, eq_comm]
  · next hw =>
      split
      · next w ws hts => simp [headWaiter, hw, hts, eq_comm]
      · next hts => simp [headWaiter, hw, hts]

theorem rouses_iff {op : RuntimeOp} : Rouses s e op ↔ Retires s op e.task ∨
    (op = .wake e.task ∧ s.taskState e.task = some .sleeping) ∨
    (∃ now, op = .tick now ∧ s.now ≤ now ∧ e.deadline ≤ now) ∨
    ∃ b, deliversTo s op = some b ∧ headWaiter s b = some e.task := by
  constructor
  · rintro (h | h | ⟨hnow, hdue⟩ | ⟨hto, hhead⟩)
    · exact Or.inl h
    · exact Or.inr (Or.inl ⟨rfl, h⟩)
    · exact Or.inr (Or.inr (Or.inl ⟨_, rfl, hnow, hdue⟩))
    · exact Or.inr (Or.inr (Or.inr ⟨_, hto, hhead⟩))
  · rintro (h | ⟨rfl, h⟩ | ⟨now, rfl, hnow, hdue⟩ | ⟨b, hto, hhead⟩)
    · exact .retire h
    · exact .wake h
    · exact .tick hnow hdue
    · exact .message hto hhead

/-- A task with a timer entry is neither running nor terminal. -/
theorem Located.timer_parked (h : Located s p) (he : e ∈ s.timers) :
    p e.task ≠ .running ∧ p e.task ≠ .finished := by
  rcases h.phase_timer he with hp | ⟨a, hp⟩ <;> simp [hp]

/-- The operations that leave every timer entry in place. -/
def TimerFree : RuntimeOp → Bool
  | .cancel _ | .fail _ | .cancelTree _ | .wake _ | .tick _ | .send _ _ _ | .inject _ _ => false
  | _ => true

theorem mem_timers_of_timerFree (he : e ∈ s.timers) {op : RuntimeOp} (hop : TimerFree op = true) :
    e ∈ (step s op).1.timers := by
  have hreceive : ∀ t dequeue, e ∈ (receiveWith s t dequeue).1.timers := by
    intro t dequeue
    unfold receiveWith
    repeat' split
    all_goals exact he
  cases op with
  | cancel _ | fail _ | cancelTree _ | wake _ | tick _ | send _ _ _ | inject _ _ =>
      simp [TimerFree] at hop
  | receive t => exact hreceive t _
  | receiveByOccurrence t occ => exact hreceive t _
  | receiveFrom t src => exact hreceive t _
  | shutdown => exact he
  | _ =>
      simp only [step]
      repeat' split
      all_goals first
        | exact he
        | exact mem_insertSorted.mpr (Or.inr he)

theorem not_rouses_of_timerFree (h : Located s p) (he : e ∈ s.timers) {op : RuntimeOp}
    (hop : TimerFree op = true) : ¬ Rouses s e op := by
  rw [rouses_iff]
  cases op with
  | cancel _ | fail _ | cancelTree _ | wake _ | tick _ | send _ _ _ | inject _ _ =>
      simp [TimerFree] at hop
  | complete t =>
      have hidle : ¬ (e.task = t ∧ s.running = some t) := by
        rintro ⟨heq, hrun⟩
        exact (h.timer_parked he).1 (heq ▸ h.phase_running hrun)
      simp only [Retires, deliversTo, reduceCtorEq, false_and, exists_false, or_false]
      exact fun hretire ↦ hidle ⟨hretire.1, hretire.2.1⟩
  | _ => simp [Retires, deliversTo]

/-- One operation keeps a timer entry exactly when it does not rouse its task. -/
theorem timer_kept_iff (h : Located s p) (he : e ∈ s.timers) (op : RuntimeOp) :
    e ∈ (step s op).1.timers ↔ ¬ Rouses s e op := by
  cases hop : TimerFree op with
  | true => exact iff_of_true (mem_timers_of_timerFree he hop) (not_rouses_of_timerFree h he hop)
  | false =>
      rw [rouses_iff]
      cases op with
      | cancel t | fail t =>
          simp only [step]
          split
          · next st hst =>
              cases hterm : st.isTerminal <;> simp [Retires, deliversTo, terminate, he, hst, hterm]
          · next hst => simp [Retires, deliversTo, he, hst]
      | cancelTree root => simp [step, applyCancelTree, Retires, deliversTo, he]
      | wake t =>
          simp only [step]
          split
          · next hst =>
              have hwake : t = e.task ∧ s.taskState e.task = some .sleeping ↔ e.task = t := by
                rw [eq_comm, and_iff_left_iff_imp]
                exact fun heq ↦ heq ▸ hst
              simp [Retires, deliversTo, he, hwake]
          · next hst =>
              have hawake : ¬ (t = e.task ∧ s.taskState e.task = some .sleeping) := by
                rintro ⟨rfl, hsleep⟩
                exact hst hsleep
              simp [Retires, deliversTo, he, hawake]
      | tick now =>
          simp only [step]
          split
          · next hnow => simp [Retires, deliversTo, wakeExpired, Timer.remaining, he, hnow]
          · next hnow => simp [Retires, deliversTo, he, hnow]
      | send t b m =>
          obtain ⟨mb, -, -, -, hstep⟩ | ⟨hstep, hr⟩ := step_send_cases s t b m
          · simp [Retires, deliversTo, hstep, he, deliver_timers]
          · simp [Retires, deliversTo, hstep, hr, he]
      | inject b m =>
          obtain ⟨mb, -, -, -, hstep⟩ | ⟨hstep, hr⟩ := step_inject_cases s b m
          · simp [Retires, deliversTo, hstep, he, deliver_timers]
          · simp [Retires, deliversTo, hstep, hr, he]
      | _ => simp [TimerFree] at hop

/-- While its entry is kept, a task stays in its phase: no edge leads from one
timed phase to another. -/
theorem timer_kept_state {K : TaskId → Prop} {s' : RuntimeState} (h : Located s p)
    (h' : Located s' p') (hadvances : Advances p p' K) (he : e ∈ s.timers) (he' : e ∈ s'.timers) :
    s'.taskState e.task = s.taskState e.task := by
  have hphase : p' e.task = p e.task := by
    rcases hadvances.edge e.task with hsame | hedge
    · exact hsame
    · rcases h.phase_timer he with hp | ⟨a, hp⟩ <;>
        rcases h'.phase_timer he' with hp' | ⟨a', hp'⟩ <;>
        rw [hp, hp'] at hedge <;> cases hedge
  rcases h.phase_timer he with hp | ⟨a, hp⟩
  · rw [(Phase.shows_sleeping_iff (h.shows_phase _)).mpr hp]
    exact (Phase.shows_sleeping_iff (h'.shows_phase _)).mpr (hphase.trans hp)
  · rw [(Phase.shows_waitingTimed_iff (h.shows_phase _)).mpr ⟨a, hp⟩]
    exact (Phase.shows_waitingTimed_iff (h'.shows_phase _)).mpr ⟨a, hphase.trans hp⟩

/-! ## Ticks -/

theorem TimersSorted.step (hs : TimersSorted s) (op : RuntimeOp) :
    TimersSorted (Henret.step s op).1 := by
  have hdeliver : ∀ b mb env, TimersSorted (deliver s b mb env) := by
    intro b mb env
    rw [TimersSorted, deliver_timers]
    exact hs.filter _
  have hreceive : ∀ t dequeue, TimersSorted (receiveWith s t dequeue).1 := by
    intro t dequeue
    unfold receiveWith
    repeat' split
    all_goals exact hs
  cases op with
  | receive t => exact hreceive t _
  | receiveByOccurrence t occ => exact hreceive t _
  | receiveFrom t src => exact hreceive t _
  | shutdown => exact hs
  | cancelTree root => exact hs.filter _
  | _ =>
      simp only [Henret.step]
      repeat' split
      all_goals first
        | exact hs
        | exact hdeliver _ _ _
        | exact hs.filter _
        | exact sorted_insertSorted _ hs

theorem reachable_timersSorted (ops : List RuntimeOp) :
    TimersSorted (run RuntimeState.init ops) :=
  run_preserves (fun _ op h ↦ h.step op) _ ops List.Pairwise.nil

/-- The entries that a tick to `now` fires for tasks in state `st`. -/
def firing (s : RuntimeState) (now : ℕ) (st : TaskState) : List TimerEntry :=
  s.timers.filter fun e ↦ e.deadline ≤ now ∧ s.taskState e.task = some st

theorem woken_eq_firing (s : RuntimeState) (now : ℕ) :
    woken s now =
      (firing s now .sleeping ++ firing s now .waitingTimed).map TimerEntry.task := by
  simp [woken, wokenSleeping, wokenTimed, Timer.expired, firing, List.filter_map, Bool.and_comm,
    Function.comp_def]

/-- Every due entry fires once. -/
theorem Located.firing_perm (h : Located s p) (now : ℕ) :
    (firing s now .sleeping ++ firing s now .waitingTimed).Perm
      (s.timers.filter fun e ↦ e.deadline ≤ now) := by
  have hsplit : ∀ e ∈ s.timers, decide (s.taskState e.task = some .waitingTimed) =
      !decide (s.taskState e.task = some .sleeping) := by
    intro e he
    rcases h.phase_timer he with hp | ⟨a, hp⟩
    · rw [(Phase.shows_sleeping_iff (h.shows_phase _)).mpr hp]
      rfl
    · rw [(Phase.shows_waitingTimed_iff (h.shows_phase _)).mpr ⟨a, hp⟩]
      rfl
  have hdue : ∀ st, firing s now st = (s.timers.filter fun e ↦ e.deadline ≤ now).filter
      fun e ↦ s.taskState e.task = some st := by
    intro st
    simp [firing, List.filter_filter, Bool.and_comm]
  have hrest : firing s now .waitingTimed = (s.timers.filter fun e ↦ e.deadline ≤ now).filter
      fun e ↦ !decide (s.taskState e.task = some .sleeping) := by
    rw [hdue]
    exact List.filter_congr fun e he ↦ hsplit e (List.mem_of_mem_filter he)
  rw [hdue, hrest]
  exact List.filter_append_perm _ _

end Step

/-! ## Whole runs -/

/-- From every reachable state, a timer entry stays pending, and its task in
its sleep or timed wait, exactly as long as no step rouses the task. -/
theorem reachable_timer (ops later : List RuntimeOp) (e : TimerEntry)
    (he : e ∈ (run RuntimeState.init ops).timers) :
    Throughout (fun s op ↦ (step s op).1)
        (fun s ↦ e ∈ s.timers ∧
          s.taskState e.task = (run RuntimeState.init ops).taskState e.task)
        (run RuntimeState.init ops) later ↔
      EachStep (fun s op ↦ (step s op).1) (fun s op ↦ ¬ Rouses s e op)
        (run RuntimeState.init ops) later := by
  apply throughout_iff_eachStep (I := fun s ↦ ∃ p, Located s p)
  · rintro s op ⟨p, h⟩
    obtain ⟨p', h', -⟩ := h.step op
    exact ⟨p', h'⟩
  · rintro s op ⟨p, h⟩ ⟨hmem, hstate⟩
    rw [← timer_kept_iff h hmem op, and_iff_left_iff_imp]
    intro hmem'
    obtain ⟨p', h', hadvances⟩ := h.step op
    rw [timer_kept_state h h' hadvances hmem hmem', hstate]
  · exact reachable_located ops
  · exact ⟨he, rfl⟩

/-- Task 0 sleeps until 5, and task 1 waits for mail until 3. -/
def napRun : List RuntimeOp :=
  [.spawn 7, .schedule, .sleep 0 5, .spawn 8, .schedule, .receiveUntil 1 3]

theorem reachable_timer_nap :
    Throughout (fun s op ↦ (step s op).1)
      (fun s ↦ ⟨5, 0⟩ ∈ s.timers ∧ s.taskState 0 = (run RuntimeState.init napRun).taskState 0)
      (run RuntimeState.init napRun) [.tick 2, .inject 8 ⟨1, 1⟩, .tick 4] := by
  refine (reachable_timer napRun _ ⟨5, 0⟩ (by decide)).mpr ⟨?_, ?_, ?_, trivial⟩
  · simp [rouses_iff, Retires, deliversTo]
  · have hhead : headWaiter (step (run RuntimeState.init napRun) (.tick 2)).1 8 = some 1 := by
      decide
    simp [rouses_iff, Retires, deliversTo, hhead]
  · simp [rouses_iff, Retires, deliversTo]

/-- A tick of a reachable runtime fires exactly the due entries, each once: it
reports and queues their tasks, the sleepers first and each group in deadline
order, makes these and no other task ready, and leaves the entries that are not
due. -/
theorem reachable_tick (ops : List RuntimeOp) (now : ℕ)
    (hnow : (run RuntimeState.init ops).now ≤ now) :
    let s := run RuntimeState.init ops
    let s' := (step s (.tick now)).1
    ∃ sleepers timed : List TimerEntry,
      (sleepers ++ timed).Perm (s.timers.filter fun e ↦ e.deadline ≤ now) ∧
      ((sleepers ++ timed).map TimerEntry.task).Nodup ∧
      (sleepers.Pairwise fun a b ↦ a.deadline ≤ b.deadline) ∧
      (timed.Pairwise fun a b ↦ a.deadline ≤ b.deadline) ∧
      (∀ e ∈ sleepers, s.taskState e.task = some .sleeping) ∧
      (∀ e ∈ timed, s.taskState e.task = some .waitingTimed) ∧
      (step s (.tick now)).2 = .woke ((sleepers ++ timed).map TimerEntry.task) ∧
      s'.readyQ = s.readyQ ++ (sleepers ++ timed).map TimerEntry.task ∧
      (∀ t, s'.taskState t = if t ∈ (sleepers ++ timed).map TimerEntry.task then some .ready
        else s.taskState t) ∧
      (s'.timers = s.timers.filter fun e ↦ now < e.deadline) ∧ s'.now = now := by
  obtain ⟨p, h⟩ := reachable_located ops
  have hsorted := reachable_timersSorted ops
  intro s s'
  have hstep : step s (.tick now) = (wakeExpired s now, .woke (woken s now)) := if_pos hnow
  have hs' : s' = wakeExpired s now := congrArg Prod.fst hstep
  refine ⟨firing s now .sleeping, firing s now .waitingTimed, h.firing_perm now, ?_,
    hsorted.filter _, hsorted.filter _, fun e he ↦ ?_, fun e he ↦ ?_, ?_, ?_, fun t ↦ ?_, ?_, ?_⟩
  · rw [← woken_eq_firing]
    exact h.woken_nodup
  · exact (of_decide_eq_true (List.mem_filter.mp he).2).2
  · exact (of_decide_eq_true (List.mem_filter.mp he).2).2
  · rw [hstep, woken_eq_firing]
  · rw [hs', ← woken_eq_firing]
    rfl
  · rw [hs', ← woken_eq_firing]
    refine (wakeMany_apply _ _ _).trans ?_
    by_cases ht : t ∈ woken s now
    · rw [if_pos ⟨ht, h.state_woken ht⟩, if_pos ht]
    · rw [if_neg fun hwoken ↦ ht hwoken.1, if_neg ht]
  · rw [hs']
    simp [wakeExpired, Timer.remaining]
  · rw [hs']
    rfl

theorem reachable_tick_nap :
    ∃ sleepers timed : List TimerEntry, (sleepers ++ timed).Perm [⟨3, 1⟩, ⟨5, 0⟩] ∧
      (∀ e ∈ sleepers, (run RuntimeState.init napRun).taskState e.task = some .sleeping) ∧
      (∀ e ∈ timed, (run RuntimeState.init napRun).taskState e.task = some .waitingTimed) ∧
      (step (run RuntimeState.init napRun) (.tick 5)).2 =
        .woke ((sleepers ++ timed).map TimerEntry.task) ∧
      (step (run RuntimeState.init napRun) (.tick 5)).1.timers = [] := by
  obtain ⟨sleepers, timed, hperm, -, -, -, hsleepers, htimed, hresult, -, -, htimers, -⟩ :=
    reachable_tick napRun 5 (by decide)
  exact ⟨sleepers, timed, hperm, hsleepers, htimed, hresult, htimers⟩

end Henret
