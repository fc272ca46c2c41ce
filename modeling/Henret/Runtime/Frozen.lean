import Henret.Runtime.CleanStop

/-!
# The runtime after a clean stop

A drained stop leaves a frozen runtime: nothing runs, nothing is queued, no
timer is pending and no resource is open.  Whatever is asked of a frozen
runtime, it stays frozen and keeps its records: no task is spawned or
dispatched, no message moves and no handle is opened.  A task that is parked on
its mailbox may still be cancelled or failed, and nothing else becomes of it.
-/

namespace Henret

/-- The results that a frozen runtime gives. -/
def QuietResult : StepResult → Prop
  | .ok | .invalid => True
  | .woke ts => ts = []
  | _ => False

/-- The part of the state that no operation on a frozen runtime changes. -/
def records (s : RuntimeState) :=
  (s.nextId, s.taskOwner, s.taskParent, s.restartOf, s.mailboxes, s.nextMsgId, s.resources,
    s.nextResourceId)

/-- A frozen runtime keeps its records for good, and loses at most parked tasks. -/
structure Rests (s s' : RuntimeState) : Prop where
  frozen : Frozen s'
  records : records s' = records s
  settles : ∀ t, s'.taskState t = s.taskState t ∨ s.taskState t = some .waiting ∧
    (s'.taskState t = some .cancelled ∨ s'.taskState t = some .failed)

section Step

variable {s s' : RuntimeState} {p : TaskId → Phase}

theorem Rests.trans {s'' : RuntimeState} (h : Rests s s') (h' : Rests s' s'') : Rests s s'' where
  frozen := h'.frozen
  records := h'.records.trans h.records
  settles := by
    intro t
    rcases h.settles t with hsame | ⟨hparked, hsettled⟩
    · rw [← hsame]
      exact h'.settles t
    · refine Or.inr ⟨hparked, ?_⟩
      rcases h'.settles t with hsame' | ⟨hparked', -⟩
      · rwa [hsame']
      · rw [hparked'] at hsettled
        simp at hsettled

/-- With every resource released there is nothing left to close. -/
theorem Drained.mark_eq (hd : Drained s) (q : ResourceOwner → Bool) :
    markClosingIfOwner q s.resources = s.resources := by
  funext r
  cases hr : s.resources r with
  | none => simp [markClosingIfOwner, hr]
  | some rr =>
      obtain ⟨o, st⟩ := rr
      obtain rfl : st = .released := hd r _ hr
      rw [markClosingIfOwner_apply q _ r hr]
      rfl

/-- A frozen runtime has no task asleep: its timer would be pending. -/
theorem Frozen.not_sleeping (hf : Frozen s) (h : Located s p) (t : TaskId) :
    s.taskState t ≠ some .sleeping := by
  intro hsleep
  have hphase := (Phase.shows_sleeping_iff (h.shows_phase t)).mp hsleep
  have hmem : t ∈ queueOf s .timer := (h.tracks.mem_iff _ _).mpr (by rw [hphase]; trivial)
  simp [queueOf, hf.2.2.1] at hmem

/-- The live tasks of a frozen runtime are parked on their mailboxes. -/
theorem Frozen.parked (hf : Frozen s) (h : Located s p) {t : TaskId} {st : TaskState}
    (ht : s.taskState t = some st) (hlive : st.isTerminal = false) : st = .waiting := by
  obtain ⟨hrun, hready, htimers, -⟩ := hf
  have hslot : ∀ x, queueOf s x = [] → ¬ (p t).Holds x := by
    intro x hx hholds
    have hmem := (h.tracks.mem_iff x t).mpr hholds
    rw [hx] at hmem
    cases hmem
  have hshows := h.shows_phase t
  rw [ht] at hshows
  cases hp : p t with
  | fresh => simp [hp, Phase.Shows] at hshows
  | queued => exact absurd (hp ▸ trivial) (hslot .ready (by simp [queueOf, hready]))
  | running => exact absurd (hp ▸ trivial) (hslot .running (by simp [queueOf, hrun]))
  | sleeping => exact absurd (hp ▸ trivial) (hslot .timer (by simp [queueOf, htimers]))
  | timed a => exact absurd (hp ▸ trivial) (hslot .timer (by simp [queueOf, htimers]))
  | waiting a => simpa [hp, Phase.Shows] using hshows
  | finished => simp [hp, Phase.Shows, hlive] at hshows

theorem Drained.of_same (hd : Drained s) (h : s'.resources = s.resources) : Drained s' :=
  fun r rr hr ↦ hd r rr (h ▸ hr)

/-- A task that is retired was parked. -/
theorem Frozen.terminate (hf : Frozen s) (h : Located s p) {t : TaskId} {st st' : TaskState}
    (ht : s.taskState t = some st) (hlive : st.isTerminal = false)
    (hst' : st' = .cancelled ∨ st' = .failed) : Rests s (terminate s t st') := by
  have hparked := hf.parked h ht hlive
  obtain ⟨hrun, hready, htimers, hstatus, hdrained⟩ := hf
  refine ⟨⟨?_, ?_, ?_, hstatus, hdrained.of_same (hdrained.mark_eq _)⟩, ?_, fun u ↦ ?_⟩
  · simp [Henret.terminate, hrun]
  · simp [Henret.terminate, hready]
  · simp [Henret.terminate, htimers]
  · simp [records, Henret.terminate, markClosingIf, hdrained.mark_eq]
  · by_cases hu : u = t
    · subst hu
      exact Or.inr ⟨hparked ▸ ht, by simpa [Henret.terminate] using hst'⟩
    · exact Or.inl (upd_ne _ _ hu)

theorem Frozen.cancelTree (hf : Frozen s) (h : Located s p) (ts : List TaskId) :
    Rests s (applyCancelTree s ts) := by
  have hparked : ∀ {t : TaskId} {st : TaskState}, s.taskState t = some st →
      st.isTerminal = false → st = .waiting := hf.parked h
  obtain ⟨hrun, hready, htimers, hstatus, hdrained⟩ := hf
  refine ⟨⟨?_, ?_, ?_, hstatus, hdrained.of_same (hdrained.mark_eq _)⟩, ?_, fun t ↦ ?_⟩
  · simp [applyCancelTree, hrun]
  · simp [applyCancelTree, hready]
  · simp [applyCancelTree, htimers]
  · simp [records, applyCancelTree, markClosingIf, hdrained.mark_eq]
  · simp only [applyCancelTree]
    split
    · cases ht : s.taskState t with
      | none => exact Or.inl rfl
      | some st =>
          cases hlive : st.isTerminal with
          | true => simp [hlive]
          | false => exact Or.inr ⟨congrArg some (hparked ht hlive), by simp [hlive]⟩
    · exact Or.inl rfl

/-- One operation on a frozen runtime. -/
theorem Frozen.step (hf : Frozen s) (h : Located s p) (op : RuntimeOp) :
    Rests s (step s op).1 ∧ QuietResult (step s op).2 := by
  obtain ⟨hrun, hready, htimers, hstatus, hdrained⟩ := id hf
  have hrests : ∀ s' : RuntimeState, Frozen s' → records s' = records s →
      s'.taskState = s.taskState → Rests s s' := fun s' hf' hrecords hsame ↦
    ⟨hf', hrecords, fun t ↦ Or.inl (congrFun hsame t)⟩
  have hself := hrests s hf rfl rfl
  have hstatus' : s.runtimeStatus = .running ↔ False := iff_false_intro hstatus
  have hreceive : ∀ t dequeue, receiveWith s t dequeue = (s, .invalid) := by
    intro t dequeue
    simp [receiveWith, hrun]
  cases op with
  | schedule => simpa [Henret.step, hrun, hready, QuietResult] using hself
  | receive t => simpa [Henret.step, hreceive, QuietResult] using hself
  | receiveByOccurrence t occ => simpa [Henret.step, hreceive, QuietResult] using hself
  | receiveFrom t src => simpa [Henret.step, hreceive, QuietResult] using hself
  | cancel t | fail t =>
      simp only [Henret.step]
      split
      · rename_i st ht
        split
        · exact ⟨hself, trivial⟩
        · rename_i hlive
          exact ⟨hf.terminate h ht (Bool.not_eq_true _ ▸ hlive) (by simp), trivial⟩
      · exact ⟨hself, trivial⟩
  | tick now =>
      have hwoken : woken s now = [] := by
        simp [woken, wokenSleeping, wokenTimed, Timer.expired, htimers]
      simp only [Henret.step]
      split
      · refine ⟨hrests _ ⟨hrun, ?_, ?_, hstatus, hdrained⟩ rfl ?_, hwoken⟩
        · simp [wakeExpired, hready, hwoken]
        · simp [wakeExpired, Timer.remaining, htimers]
        · simp [wakeExpired, hwoken, wakeMany]
      · exact ⟨hself, trivial⟩
  | wake t =>
      simp only [Henret.step]
      split
      · exact absurd (by assumption) (hf.not_sleeping h t)
      · exact ⟨hself, trivial⟩
  | cancelTree root => exact ⟨hf.cancelTree h _, trivial⟩
  | closeActor a =>
      simp only [Henret.step]
      split
      · have hmark := hdrained.mark_eq
        refine ⟨hrests _ ⟨hrun, hready, htimers, hstatus, hdrained.of_same (hmark _)⟩ ?_ rfl, trivial⟩
        simp [records, markActorResourcesClosing, hmark]
      · exact ⟨hself, trivial⟩
  | finalize r =>
      simp only [Henret.step]
      split
      · next o hr => cases hdrained r _ hr
      · exact ⟨hself, trivial⟩
  | shutdown =>
      have hclosing : RuntimeStatus.shuttingDown ≠ .running := by simp
      exact ⟨hrests _ ⟨hrun, hready, htimers, hclosing, hdrained⟩ rfl rfl, trivial⟩
  | stopWhenIdle | stopWhenDrained =>
      simp only [Henret.step]
      split
      · exact ⟨hrests _ ⟨hrun, hready, htimers, by simp, hdrained⟩ rfl rfl, trivial⟩
      · exact ⟨hself, trivial⟩
  | setPriority t n | setDeadline t n =>
      simp only [Henret.step]
      split
      · exact ⟨hrests _ ⟨hrun, hready, htimers, hstatus, hdrained⟩ rfl rfl, trivial⟩
      · exact ⟨hself, trivial⟩
  | _ => simpa [Henret.step, hrun, hstatus', QuietResult] using hself

/-- A frozen runtime rests for good. -/
theorem Frozen.run (hf : Frozen s) (h : Located s p) (ops : List RuntimeOp) :
    Rests s (run s ops) ∧ ∀ r ∈ (runTrace s ops).2, QuietResult r := by
  induction ops generalizing s p with
  | nil => exact ⟨⟨hf, rfl, fun _ ↦ Or.inl rfl⟩, fun r hr ↦ absurd hr List.not_mem_nil⟩
  | cons op ops ih =>
      obtain ⟨hrests, hquiet⟩ := hf.step h op
      obtain ⟨p', h', -⟩ := h.step op
      obtain ⟨hrests', hquiet'⟩ := ih hrests.frozen h'
      refine ⟨hrests.trans hrests', fun r hr ↦ ?_⟩
      rw [runTrace_cons_snd, List.mem_cons] at hr
      rcases hr with rfl | hr
      · exact hquiet
      · exact hquiet' r hr

end Step

/-- Once a reachable runtime accepts `stopWhenDrained`, every continuation
leaves it frozen with its records as they are, changes the state of no task but
a parked one, and none spawns, dispatches or wakes a task, delivers or hands
over a message, or acquires a resource. -/
theorem reachable_rests (ops later : List RuntimeOp)
    (hstop : (step (run RuntimeState.init ops) .stopWhenDrained).2 = .ok) :
    let s := run RuntimeState.init ops
    Rests s (run s (.stopWhenDrained :: later)) ∧
      ∀ r ∈ (runTrace s (.stopWhenDrained :: later)).2, QuietResult r := by
  obtain ⟨p, h⟩ := reachable_located ops
  have hl := reachable_ledgerSound ops
  intro s
  by_cases hguard : s.running = none ∧ s.readyQ = [] ∧ s.timers = [] ∧ s.resourceDrained = true
  · have hstep : step s .stopWhenDrained = ({ s with runtimeStatus := .stopped }, .ok) :=
      if_pos hguard
    obtain ⟨hrun, hready, htimers, hcheck⟩ := hguard
    have hrests : Rests s (step s .stopWhenDrained).1 := by
      rw [hstep]
      exact ⟨⟨hrun, hready, htimers, by simp, hl.drained_iff.mp hcheck⟩, rfl, fun _ ↦ Or.inl rfl⟩
    obtain ⟨p', h', -⟩ := h.step .stopWhenDrained
    obtain ⟨hrests', hquiet⟩ := hrests.frozen.run h' later
    refine ⟨hrests.trans hrests', fun r hr ↦ ?_⟩
    rw [runTrace_cons_snd, List.mem_cons] at hr
    rcases hr with rfl | hr
    · rw [hstop]
      trivial
    · exact hquiet r hr
  · have hstep : step s .stopWhenDrained = (s, .invalid) := if_neg hguard
    rw [hstep] at hstop
    cases hstop

/-- A task that parked on its mailbox outlives the stop. -/
def parkedRun : List RuntimeOp :=
  [.spawn 7, .schedule, .receive 0]

theorem reachable_rests_parked :
    Rests (run RuntimeState.init parkedRun)
      (run (run RuntimeState.init parkedRun)
        [.stopWhenDrained, .inject 7 ⟨1, 1⟩, .schedule, .cancel 0]) :=
  (reachable_rests parkedRun [.inject 7 ⟨1, 1⟩, .schedule, .cancel 0] (by decide)).1

end Henret
