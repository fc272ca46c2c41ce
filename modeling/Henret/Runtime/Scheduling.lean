import Henret.Runtime.Lifecycle

/-!
# Scheduling policies and the drain driver

A policy moves one ready task to the head of the queue before the unchanged
`schedule` runs.  Whatever policies a run mixes in, its states stay located.
The metadata policies select the first maximal or minimal task of the queue
under a linear order.  `drain` states the purpose of the round-robin driver
`driveOps`, which reaches the same state through operations.
-/

namespace Henret

/-! ## Dispatch -/

/-- A schedule dispatches the head of the queue or changes nothing. -/
theorem step_schedule_cases (s : RuntimeState) :
    (∃ t q, s.running = none ∧ s.readyQ = t :: q ∧ (step s .schedule).1.readyQ = q ∧
      (step s .schedule).2 = .scheduled t) ∨ step s .schedule = (s, .invalid) := by
  simp only [step]
  split
  · next t q hrun hready =>
      split
      · exact Or.inl ⟨t, q, hrun, hready, rfl, rfl⟩
      · exact Or.inr rfl
  · exact Or.inr rfl

/-- Only a schedule dispatches a task. -/
theorem step_of_ne_schedule (s : RuntimeState) {op : RuntimeOp} (hop : op ≠ .schedule) :
    ((step s op).1.running = none ∨ (step s op).1.running = s.running) ∧
      ∀ t, (step s op).2 ≠ .scheduled t := by
  have hdeliver : ∀ b mb env, (deliver s b mb env).running = s.running := by
    intro b mb env
    unfold deliver
    split
    · rfl
    · split <;> rfl
  have hreceive : ∀ t dequeue,
      ((receiveWith s t dequeue).1.running = none ∨
        (receiveWith s t dequeue).1.running = s.running) ∧
      ∀ u, (receiveWith s t dequeue).2 ≠ .scheduled u := by
    intro t dequeue
    unfold receiveWith
    repeat' split
    all_goals first
      | exact ⟨Or.inr rfl, fun u ↦ by simp⟩
      | exact ⟨Or.inl rfl, fun u ↦ by simp⟩
  have hterminate : ∀ t st, (terminate s t st).running = none ∨
      (terminate s t st).running = s.running := by
    intro t st
    simp only [terminate]
    split
    · exact Or.inl rfl
    · exact Or.inr rfl
  cases op with
  | schedule => exact absurd rfl hop
  | receive t => exact hreceive t _
  | receiveByOccurrence t occ => exact hreceive t _
  | receiveFrom t src => exact hreceive t _
  | cancelTree root =>
      refine ⟨?_, fun u ↦ by simp [step]⟩
      simp only [step, applyCancelTree]
      split
      · exact Or.inl rfl
      · exact Or.inr rfl
  | shutdown => exact ⟨Or.inr rfl, fun u ↦ by simp [step]⟩
  | _ =>
      simp only [step]
      repeat' split
      all_goals first
        | exact ⟨Or.inr rfl, fun u ↦ by simp⟩
        | exact ⟨Or.inl rfl, fun u ↦ by simp⟩
        | exact ⟨Or.inr (hdeliver _ _ _), fun u ↦ by simp⟩
        | exact ⟨hterminate _ _, fun u ↦ by simp⟩

/-- A dispatched task was queued. -/
theorem mem_readyQ_of_scheduled {s : RuntimeState} {op : RuntimeOp} {t : TaskId}
    (h : (step s op).2 = .scheduled t) : t ∈ s.readyQ := by
  by_cases hop : op = .schedule
  · subst hop
    obtain ⟨u, q, -, hready, -, hresult⟩ | hstep := step_schedule_cases s
    · rw [hresult, StepResult.scheduled.injEq] at h
      simp [hready, h]
    · simp [hstep] at h
  · exact absurd h ((step_of_ne_schedule s hop).2 t)

/-! ## Policies -/

/-- A chooser over the ready queue; `none` abstains. -/
structure SchedulingPolicy where
  choose : RuntimeState → Option TaskId
  choose_sound : ∀ s t, choose s = some t → t ∈ s.readyQ

/-- The chosen task moves to the head of the ready queue. -/
def SchedulingPolicy.reorder (p : SchedulingPolicy) (s : RuntimeState) : RuntimeState :=
  match p.choose s with
  | some t => { s with readyQ := t :: s.readyQ.erase t }
  | none => s

def policyStep (p : SchedulingPolicy) (s : RuntimeState) : RuntimeState × StepResult :=
  step (p.reorder s) .schedule

def fifoPolicy : SchedulingPolicy where
  choose := fun s ↦ s.readyQ.head?
  choose_sound := fun _ _ h ↦ List.mem_of_mem_head? h

def lifoPolicy : SchedulingPolicy where
  choose := fun s ↦ s.readyQ.getLast?
  choose_sound := fun _ _ h ↦ List.mem_of_mem_getLast? h

/-! ## Selection by metadata -/

/-- The best element of a list, the earliest one among equals. -/
def pickBy (better : TaskId → TaskId → Bool) : List TaskId → Option TaskId
  | [] => none
  | t :: ts => some (ts.foldl (fun b u ↦ if better b u then u else b) t)

/-- A comparison by keys picks the first task with the greatest key. -/
theorem pickBy_eq_argmax {κ : Type} [LinearOrder κ] {key : TaskId → κ}
    {better : TaskId → TaskId → Bool}
    (hbetter : ∀ b u, better b u = true ↔ key b < key u) (l : List TaskId) :
    pickBy better l = l.argmax key := by
  have hfold : ∀ (l : List TaskId) (t : TaskId),
      some (l.foldl (fun b u ↦ if better b u then u else b) t) =
        l.foldl (List.argAux fun b c ↦ key c < key b) (some t) := by
    intro l
    induction l with
    | nil => exact fun t ↦ rfl
    | cons u l ih =>
        intro t
        by_cases htu : key t < key u
        · simpa [List.argAux, htu, (hbetter t u).mpr htu] using ih u
        · have hworse : better t u = false := by
            rw [← Bool.not_eq_true, hbetter]
            exact htu
          simpa [List.argAux, htu, hworse] using ih t
  cases l with
  | nil => rfl
  | cons t ts => exact hfold ts t

def priorityOf (s : RuntimeState) (t : TaskId) : ℕ :=
  ((s.taskMeta t).getD defaultMeta).priority

def deadlineOf (s : RuntimeState) (t : TaskId) : Option ℕ :=
  ((s.taskMeta t).getD defaultMeta).deadline

/-- A present deadline beats a missing one. -/
def deadlineLt : Option ℕ → Option ℕ → Bool
  | some x, some y => x < y
  | some _, none => true
  | none, _ => false

/-- Deadlines with the missing one as the greatest. -/
def urgency (s : RuntimeState) (t : TaskId) : WithTop ℕ :=
  match deadlineOf s t with
  | some d => (d : WithTop ℕ)
  | none => ⊤

theorem deadlineLt_iff (s : RuntimeState) (t u : TaskId) :
    deadlineLt (deadlineOf s t) (deadlineOf s u) = true ↔ urgency s t < urgency s u := by
  unfold urgency
  cases deadlineOf s t <;> cases deadlineOf s u <;> simp [deadlineLt]

/-- Higher priority first, the earlier deadline among equal priorities. -/
def precedence (s : RuntimeState) (t : TaskId) : ℕ ×ₗ (WithTop ℕ)ᵒᵈ :=
  toLex (priorityOf s t, OrderDual.toDual (urgency s t))

theorem pickBy_priority (s : RuntimeState) :
    pickBy (fun b u ↦ priorityOf s b < priorityOf s u) s.readyQ =
      s.readyQ.argmax (priorityOf s) :=
  pickBy_eq_argmax (fun b u ↦ by simp) s.readyQ

theorem pickBy_deadline (s : RuntimeState) :
    pickBy (fun b u ↦ deadlineLt (deadlineOf s u) (deadlineOf s b)) s.readyQ =
      s.readyQ.argmin (urgency s) := by
  have hkey : ∀ b u, deadlineLt (deadlineOf s u) (deadlineOf s b) = true ↔
      OrderDual.toDual (urgency s b) < OrderDual.toDual (urgency s u) :=
    fun b u ↦ deadlineLt_iff s u b
  exact pickBy_eq_argmax hkey s.readyQ

theorem pickBy_hybrid (s : RuntimeState) :
    pickBy (fun b u ↦ priorityOf s b < priorityOf s u ||
        (priorityOf s b == priorityOf s u && deadlineLt (deadlineOf s u) (deadlineOf s b)))
      s.readyQ = s.readyQ.argmax (precedence s) := by
  apply pickBy_eq_argmax
  intro b u
  rw [Bool.or_eq_true, Bool.and_eq_true, decide_eq_true_iff, beq_iff_eq, deadlineLt_iff]
  simp [precedence, Prod.Lex.toLex_lt_toLex]

def priorityPolicy : SchedulingPolicy where
  choose := fun s ↦ pickBy (fun b u ↦ priorityOf s b < priorityOf s u) s.readyQ
  choose_sound := fun s _ h ↦ List.argmax_mem (h ▸ (pickBy_priority s).symm)

def edfPolicy : SchedulingPolicy where
  choose := fun s ↦ pickBy (fun b u ↦ deadlineLt (deadlineOf s u) (deadlineOf s b)) s.readyQ
  choose_sound := fun s _ h ↦ List.argmin_mem (h ▸ (pickBy_deadline s).symm)

def hybridPolicy : SchedulingPolicy where
  choose := fun s ↦ pickBy (fun b u ↦ priorityOf s b < priorityOf s u ||
    (priorityOf s b == priorityOf s u && deadlineLt (deadlineOf s u) (deadlineOf s b))) s.readyQ
  choose_sound := fun s _ h ↦ List.argmax_mem (h ▸ (pickBy_hybrid s).symm)

/-- The hybrid policy takes the first task of the greatest precedence. -/
theorem hybridPolicy_choose_iff (s : RuntimeState) (t : TaskId) :
    hybridPolicy.choose s = some t ↔
      t ∈ s.readyQ ∧ (∀ u ∈ s.readyQ, precedence s u ≤ precedence s t) ∧
        ∀ u ∈ s.readyQ, precedence s t ≤ precedence s u →
          s.readyQ.idxOf t ≤ s.readyQ.idxOf u := by
  rw [← List.argmax_eq_some_iff, ← pickBy_hybrid]
  exact Iff.rfl

theorem priorityPolicy_choose_iff (s : RuntimeState) (t : TaskId) :
    priorityPolicy.choose s = some t ↔
      t ∈ s.readyQ ∧ (∀ u ∈ s.readyQ, priorityOf s u ≤ priorityOf s t) ∧
        ∀ u ∈ s.readyQ, priorityOf s t ≤ priorityOf s u →
          s.readyQ.idxOf t ≤ s.readyQ.idxOf u := by
  rw [← List.argmax_eq_some_iff, ← pickBy_priority]
  exact Iff.rfl

theorem edfPolicy_choose_iff (s : RuntimeState) (t : TaskId) :
    edfPolicy.choose s = some t ↔
      t ∈ s.readyQ ∧ (∀ u ∈ s.readyQ, urgency s t ≤ urgency s u) ∧
        ∀ u ∈ s.readyQ, urgency s u ≤ urgency s t →
          s.readyQ.idxOf t ≤ s.readyQ.idxOf u := by
  rw [← List.argmin_eq_some_iff, ← pickBy_deadline]
  exact Iff.rfl

/-! ## Policies over whole runs -/

section Policies

variable {s : RuntimeState} {p : TaskId → Phase} {pol : SchedulingPolicy} {t : TaskId}

theorem Located.reorder (h : Located s p) (pol : SchedulingPolicy) :
    Located (pol.reorder s) p := by
  unfold SchedulingPolicy.reorder
  split
  · next t ht =>
      have hperm : (t :: s.readyQ.erase t).Perm s.readyQ :=
        (List.perm_cons_erase (pol.choose_sound s t ht)).symm
      refine ⟨h.tracks.congr_perm ?_, h.shows_phase, h.waits_on_own, h.fresh_above⟩
      intro x
      cases x with
      | ready => exact hperm
      | _ => exact List.Perm.refl _
  · exact h

/-- The chosen task is dispatched. -/
theorem policyStep_chosen (h : Located s p) (hrun : s.running = none)
    (ht : pol.choose s = some t) :
    policyStep pol s =
      ({ s with
          taskState := upd s.taskState t (some .running)
          readyQ := s.readyQ.erase t
          running := some t }, .scheduled t) := by
  have hrunnable : (s.taskState t).any TaskState.isRunnable = true := by
    rw [Phase.shows_runnable_iff (h.shows_phase t)]
    exact h.phase_queued (pol.choose_sound s t ht)
  simp [policyStep, SchedulingPolicy.reorder, ht, step, hrun, hrunnable]

theorem policyStep_abstains (ht : pol.choose s = none) :
    policyStep pol s = step s .schedule := by
  simp [policyStep, SchedulingPolicy.reorder, ht]

theorem fifoPolicy_step (s : RuntimeState) : policyStep fifoPolicy s = step s .schedule := by
  cases hready : s.readyQ with
  | nil => exact policyStep_abstains (by simp [fifoPolicy, hready])
  | cons t q =>
      have hreorder : fifoPolicy.reorder s = s := by
        simp only [SchedulingPolicy.reorder, fifoPolicy, hready, List.head?_cons,
          List.erase_cons_head]
        rw [← hready]
      rw [policyStep, hreorder]

/-- An operation, or a policy-directed schedule. -/
inductive SchedAct where
  | op (op : RuntimeOp)
  | choose (pol : SchedulingPolicy)

def actStep (s : RuntimeState) : SchedAct → RuntimeState × StepResult
  | .op op => step s op
  | .choose pol => policyStep pol s

def actRun (s : RuntimeState) (acts : List SchedAct) : RuntimeState :=
  acts.foldl (fun s act ↦ (actStep s act).1) s

/-- Policies change the order only: their runs keep every task in one place. -/
theorem Located.actRun (h : Located s p) (acts : List SchedAct) :
    ∃ p', Located (actRun s acts) p' := by
  induction acts generalizing s p with
  | nil => exact ⟨p, h⟩
  | cons act acts ih =>
      cases act with
      | op op =>
          obtain ⟨p', h', -⟩ := h.step op
          exact ih h'
      | choose pol =>
          obtain ⟨p', h', -⟩ := (h.reorder pol).step .schedule
          exact ih h'

/-- No policy gets stuck: an idle runtime with a ready task dispatches one of
the ready tasks, the chosen one if there is one and else the head of the queue.
The task runs, it has left the queue, and nothing else is changed. -/
theorem reachable_policyStep (acts : List SchedAct) (pol : SchedulingPolicy)
    (hrun : (actRun RuntimeState.init acts).running = none)
    (hready : (actRun RuntimeState.init acts).readyQ ≠ []) :
    let s := actRun RuntimeState.init acts
    ∃ t ∈ s.readyQ, t ∉ s.readyQ.erase t ∧
      policyStep pol s =
        ({ s with
            taskState := upd s.taskState t (some .running)
            readyQ := s.readyQ.erase t
            running := some t }, .scheduled t) ∧
      (∀ u, pol.choose s = some u → u = t) ∧
      (pol.choose s = none → s.readyQ.head? = some t) := by
  obtain ⟨p, h⟩ := located_init.actRun acts
  intro s
  have hgone : ∀ t, t ∉ s.readyQ.erase t := fun t ↦ h.readyQ_nodup.not_mem_erase
  cases hchoose : pol.choose s with
  | some t =>
      refine ⟨t, pol.choose_sound _ t hchoose, hgone t, policyStep_chosen h hrun hchoose,
        fun u hu ↦ Option.some.inj hu.symm, fun hnone ↦ ?_⟩
      cases hnone
  | none =>
      obtain ⟨t, hhead⟩ : ∃ t, s.readyQ.head? = some t :=
        Option.ne_none_iff_exists'.mp fun hnone ↦ hready (List.head?_eq_none_iff.mp hnone)
      have hfifo : fifoPolicy.choose s = some t := hhead
      refine ⟨t, List.mem_of_mem_head? hhead, hgone t, ?_, fun u hu ↦ ?_, fun _ ↦ hhead⟩
      · rw [policyStep_abstains hchoose, ← fifoPolicy_step, policyStep_chosen h hrun hfifo]
      · cases hu

theorem reachable_policyStep_lifo :
    ∃ t ∈ [0, 1], (∀ u, lifoPolicy.choose
        (actRun RuntimeState.init [.op (.spawn 7), .op (.spawn 8)]) = some u → u = t) ∧
      (policyStep lifoPolicy
        (actRun RuntimeState.init [.op (.spawn 7), .op (.spawn 8)])).1.running = some t ∧
      (policyStep lifoPolicy
        (actRun RuntimeState.init [.op (.spawn 7), .op (.spawn 8)])).1.readyQ = [0, 1].erase t := by
  obtain ⟨t, ht, -, hstep, hchosen, -⟩ :=
    reachable_policyStep [.op (.spawn 7), .op (.spawn 8)] lifoPolicy rfl (by decide)
  refine ⟨t, ht, hchosen, ?_, ?_⟩
  · rw [hstep]
  · rw [hstep]
    rfl

end Policies

/-! ## The drain driver -/

/-- Complete a runnable task, leave any other alone. -/
def completeOne (ts : TaskMap) (t : TaskId) : TaskMap :=
  match ts t with
  | some .new | some .ready | some .yielded => upd ts t (some .completed)
  | _ => ts

def completeAll (ts : TaskMap) : List TaskId → TaskMap
  | [] => ts
  | t :: r => completeAll (completeOne ts t) r

/-- Complete every queued runnable task and empty the queue. -/
def drain (s : RuntimeState) : RuntimeState :=
  { s with taskState := completeAll s.taskState s.readyQ, readyQ := [] }

/-- Schedule the head and complete it, while fuel lasts. -/
def driveOps : ℕ → RuntimeState → RuntimeState
  | 0, s => s
  | fuel + 1, s =>
      match s.readyQ with
      | [] => s
      | t :: _ =>
          let s1 := (step s .schedule).1
          let s2 := (step s1 (.complete t)).1
          driveOps fuel s2

section Driver

variable {s : RuntimeState} {p : TaskId → Phase}

/-- The state after one round of the driver. -/
def driven (s : RuntimeState) (t : TaskId) (q : List TaskId) : RuntimeState :=
  { s with
    taskState := completeOne s.taskState t
    readyQ := q
    resources := markClosingIf (· == t) s.resources }

theorem completeOne_runnable {ts : TaskMap} {t : TaskId}
    (h : (ts t).any TaskState.isRunnable = true) :
    completeOne ts t = upd ts t (some .completed) := by
  unfold completeOne
  cases hst : ts t with
  | none => simp [hst] at h
  | some st => cases st <;> simp_all [TaskState.isRunnable]

/-- One round completes the head of the queue. -/
theorem step_round (h : Located s p) (hrun : s.running = none) {t : TaskId}
    {q : List TaskId} (hready : s.readyQ = t :: q) :
    (step (step s .schedule).1 (.complete t)).1 = driven s t q := by
  have hrunnable : (s.taskState t).any TaskState.isRunnable = true := by
    rw [Phase.shows_runnable_iff (h.shows_phase t)]
    exact h.phase_queued (by simp [hready])
  have htwice : upd (upd s.taskState t (some .running)) t (some .completed) =
      upd s.taskState t (some .completed) := by
    funext u
    by_cases hu : u = t
    · simp [hu]
    · simp [upd_ne _ _ hu]
  simp [step, hrun, hready, hrunnable, driven, completeOne_runnable hrunnable, htwice]

theorem markClosingIf_nil (res : ResourceId → Option ResourceRecord) :
    markClosingIf (fun u ↦ decide (u ∈ ([] : List TaskId))) res = res := by
  funext r
  unfold markClosingIf markClosingIfOwner
  rcases hr : res r with _ | ⟨_ | _, _ | _ | _⟩ <;> simp

theorem markClosingIf_cons (t : TaskId) (q : List TaskId)
    (res : ResourceId → Option ResourceRecord) :
    markClosingIf (fun u ↦ decide (u ∈ q)) (markClosingIf (· == t) res) =
      markClosingIf (fun u ↦ decide (u ∈ t :: q)) res := by
  funext r
  unfold markClosingIf markClosingIfOwner
  rcases hr : res r with _ | ⟨u | a, _ | _ | _⟩
  case some.task.allocated =>
    by_cases hut : u = t
    · simp [hut]
    · simp [hut]
  all_goals simp

/-- What `drain` leaves out: completed tasks close their resources. -/
def drained (s : RuntimeState) : RuntimeState :=
  { drain s with resources := markClosingIf (fun t ↦ decide (t ∈ s.readyQ)) s.resources }

theorem drained_of_empty (hready : s.readyQ = []) : drained s = s := by
  rw [drained, drain, hready, markClosingIf_nil, completeAll, ← hready]

theorem drained_driven {t : TaskId} {q : List TaskId} (hready : s.readyQ = t :: q) :
    drained (driven s t q) = drained s := by
  simp only [drained, drain, driven, hready, completeAll]
  congr 1
  exact markClosingIf_cons t q s.resources

/-- With enough fuel an idle driver drains. -/
theorem driveOps_eq_drained (h : Located s p) (hrun : s.running = none) {fuel : ℕ}
    (hfuel : s.readyQ.length ≤ fuel) : driveOps fuel s = drained s := by
  induction fuel generalizing s p with
  | zero =>
      rw [driveOps, drained_of_empty]
      exact List.eq_nil_of_length_eq_zero (Nat.le_zero.mp hfuel)
  | succ fuel ih =>
      cases hready : s.readyQ with
      | nil =>
          rw [drained_of_empty hready]
          simp [driveOps, hready]
      | cons t q =>
          have hround := step_round h hrun hready
          obtain ⟨p₁, h₁, -⟩ := h.step .schedule
          obtain ⟨p₂, h₂, -⟩ := h₁.step (.complete t)
          rw [hround] at h₂
          have hq : q.length ≤ fuel := by simpa [hready] using hfuel
          calc driveOps (fuel + 1) s
              = driveOps fuel (driven s t q) := by
                rw [driveOps, hready]
                exact congrArg (driveOps fuel) hround
            _ = drained (driven s t q) := ih h₂ hrun hq
            _ = drained s := drained_driven hready

theorem completeAll_apply {ts : TaskMap} {l : List TaskId} (hnodup : l.Nodup)
    (hl : ∀ t ∈ l, (ts t).any TaskState.isRunnable = true) (u : TaskId) :
    completeAll ts l u = if u ∈ l then some .completed else ts u := by
  induction l generalizing ts with
  | nil => rfl
  | cons t l ih =>
      obtain ⟨ht, hnodup⟩ := List.nodup_cons.mp hnodup
      have hone := completeOne_runnable (hl t List.mem_cons_self)
      have hrest : ∀ v ∈ l, (completeOne ts t v).any TaskState.isRunnable = true := by
        intro v hv
        have hne : v ≠ t := fun hvt ↦ ht (hvt ▸ hv)
        rw [hone, upd_ne _ _ hne]
        exact hl v (List.mem_cons_of_mem t hv)
      rw [completeAll, ih hnodup hrest, hone]
      by_cases hut : u = t
      · simp [hut]
      · simp [hut, upd_ne _ _ hut]

/-- From every reachable idle state, fuel for the length of the queue lets the
driver complete exactly the queued tasks. -/
theorem reachable_driveOps (ops : List RuntimeOp) {fuel : ℕ}
    (hrun : (run RuntimeState.init ops).running = none)
    (hfuel : (run RuntimeState.init ops).readyQ.length ≤ fuel) :
    (driveOps fuel (run RuntimeState.init ops)).readyQ = [] ∧
      ∀ t, (driveOps fuel (run RuntimeState.init ops)).taskState t =
        if t ∈ (run RuntimeState.init ops).readyQ then some .completed
        else (run RuntimeState.init ops).taskState t := by
  obtain ⟨p, h⟩ := reachable_located ops
  rw [driveOps_eq_drained h hrun hfuel]
  refine ⟨rfl, completeAll_apply h.readyQ_nodup fun t ht ↦ ?_⟩
  rw [Phase.shows_runnable_iff (h.shows_phase t)]
  exact h.phase_queued ht

theorem reachable_driveOps_pair :
    (driveOps 2 (run RuntimeState.init [.spawn 7, .spawn 8])).readyQ = [] ∧
      ∀ t, (driveOps 2 (run RuntimeState.init [.spawn 7, .spawn 8])).taskState t =
        if t ∈ [0, 1] then some .completed
        else (run RuntimeState.init [.spawn 7, .spawn 8]).taskState t :=
  reachable_driveOps [.spawn 7, .spawn 8] rfl (by decide)

/-- The driver waits forever for a task that runs already. -/
theorem driveOps_stalls {t : TaskId} (hrun : s.running = some t) (hready : t ∉ s.readyQ)
    (fuel : ℕ) : driveOps fuel s = s := by
  induction fuel with
  | zero => rfl
  | succ fuel ih =>
      cases hq : s.readyQ with
      | nil => simp [driveOps, hq]
      | cons u q =>
          have hut : t ≠ u := by
            rintro rfl
            exact hready (by simp [hq])
          simpa [driveOps, hq, step, hrun, hut] using ih

end Driver

end Henret
