import Henret.Runtime.Resources

/-!
# A clean stop is always possible

From any reachable state the drain program cancels every task that is still
live, closes the actors that own resources, finalizes what these closed and
stops.  Each of its operations succeeds, in whatever order the tasks, actors
and resources are listed, and the runtime ends quiescent with a drained ledger.
-/

namespace Henret

/-- No resource is still `allocated` or `closing`. -/
def Drained (s : RuntimeState) : Prop :=
  ∀ r rr, s.resources r = some rr → rr.state = .released

def Frozen (s : RuntimeState) : Prop :=
  s.running = none ∧ s.readyQ = [] ∧ s.timers = [] ∧
    s.runtimeStatus ≠ .running ∧ Drained s

def Stopped (s : RuntimeState) : Prop :=
  s.runtimeStatus = .stopped

def CleanStopped (s : RuntimeState) : Prop :=
  Stopped s ∧ Frozen s

/-! ## Idle phases -/

section Idle

variable {s : RuntimeState} {p : TaskId → Phase}

/-- With every task fresh or finished no location lists a task. -/
theorem Located.queueOf_eq_nil (h : Located s p)
    (hidle : ∀ t, p t = .fresh ∨ p t = .finished) (x : Slot) : queueOf s x = [] := by
  apply List.eq_nil_iff_forall_not_mem.mpr
  intro t ht
  have hholds := (h.tracks.mem_iff x t).mp ht
  rcases hidle t with hp | hp <;> simp [hp, Phase.Holds] at hholds

theorem Located.quiescent (h : Located s p)
    (hidle : ∀ t, p t = .fresh ∨ p t = .finished) : RuntimeQuiescent s := by
  have hrun := h.queueOf_eq_nil hidle .running
  have htimers := h.queueOf_eq_nil hidle .timer
  exact ⟨by simpa [queueOf] using hrun, h.queueOf_eq_nil hidle .ready,
    by simpa [queueOf] using htimers⟩

theorem Located.idle_of_no_live (h : Located s p)
    (hdead : ∀ t, ¬ OwnerLive s (.task t)) (t : TaskId) : p t = .fresh ∨ p t = .finished := by
  by_contra hp
  rw [not_or] at hp
  exact hdead t ((h.ownerLive_iff t).mpr hp)

end Idle

theorem LedgerSound.lt_next {s : RuntimeState} (hl : LedgerSound s) {r : ResourceId}
    {rr : ResourceRecord} (hr : s.resources r = some rr) : r < s.nextResourceId := by
  by_contra hge
  simp [hl.fresh_above r (Nat.le_of_not_lt hge)] at hr

/-- The bounded ledger check sees every resource that was ever recorded. -/
theorem LedgerSound.drained_iff {s : RuntimeState} (hl : LedgerSound s) :
    s.resourceDrained = true ↔ Drained s := by
  simp only [RuntimeState.resourceDrained, List.all_eq_true, List.mem_range]
  constructor
  · intro hall r rr hr
    simpa [hr] using hall r (hl.lt_next hr)
  · intro hd r _
    cases hr : s.resources r with
    | none => rfl
    | some rr => simpa using hd r rr hr

theorem step_stopWhenDrained {s : RuntimeState} (hl : LedgerSound s)
    (hquiet : RuntimeQuiescent s) (hdr : Drained s) :
    step s .stopWhenDrained = ({ s with runtimeStatus := .stopped }, .ok) := by
  obtain ⟨hrun, hready, htimers⟩ := hquiet
  have hcheck := hl.drained_iff.mpr hdr
  simp [step, hrun, hready, htimers, hcheck]

/-! ## The phases of the drain program -/

/-- `s'` arises from `s` by closing resources: the id counter and the actors
are as before, and a slot that changed went from `allocated` to `closing`. -/
structure Closes (s s' : RuntimeState) : Prop where
  mailboxes : s'.mailboxes = s.mailboxes
  nextResourceId : s'.nextResourceId = s.nextResourceId
  slot : ∀ r, s'.resources r = s.resources r ∨
    ∃ o, s.resources r = some ⟨o, .allocated⟩ ∧ s'.resources r = some ⟨o, .closing⟩

namespace Closes

variable {s s' s'' : RuntimeState}

theorem refl (s : RuntimeState) : Closes s s :=
  ⟨rfl, rfl, fun _ ↦ Or.inl rfl⟩

theorem trans (h : Closes s s') (h' : Closes s' s'') : Closes s s'' := by
  refine ⟨h'.mailboxes.trans h.mailboxes, h'.nextResourceId.trans h.nextResourceId, fun r ↦ ?_⟩
  rcases h.slot r with heq | ⟨o, hall, hclo⟩
  · rw [← heq]
    exact h'.slot r
  · rcases h'.slot r with heq' | ⟨o', hall', -⟩
    · exact Or.inr ⟨o, hall, heq'.trans hclo⟩
    · simp [hclo] at hall'

theorem of_mark {q : ResourceOwner → Bool} (hmail : s'.mailboxes = s.mailboxes)
    (hnext : s'.nextResourceId = s.nextResourceId)
    (hres : s'.resources = markClosingIfOwner q s.resources) : Closes s s' := by
  refine ⟨hmail, hnext, fun r ↦ ?_⟩
  rw [hres]
  cases hr : s.resources r with
  | none => exact Or.inl (markClosingIfOwner_none q _ r hr)
  | some rr =>
      obtain ⟨o, st⟩ := rr
      rw [markClosingIfOwner_apply q _ r hr]
      by_cases hq : st = .allocated ∧ q o = true
      · exact Or.inr ⟨o, by rw [hq.1], by simp [hq]⟩
      · exact Or.inl (by simp [hq])

theorem allocated (h : Closes s s') {r : ResourceId} {o : ResourceOwner}
    (hr : s'.resources r = some ⟨o, .allocated⟩) : s.resources r = some ⟨o, .allocated⟩ := by
  rcases h.slot r with heq | ⟨o', -, hclo⟩
  · rwa [heq] at hr
  · simp [hclo] at hr

theorem released_iff (h : Closes s s') (r : ResourceId) :
    s'.ResourceReleased r ↔ s.ResourceReleased r := by
  unfold RuntimeState.ResourceReleased
  rcases h.slot r with heq | ⟨o, hall, hclo⟩
  · rw [heq]
  · simp [hall, hclo]

end Closes

/-- Cancelling live tasks one after the other succeeds and leaves each cancelled. -/
theorem cancel_all (T : List TaskId) (s : RuntimeState) (hnodup : T.Nodup)
    (hlive : ∀ t ∈ T, OwnerLive s (.task t)) :
    (∀ res ∈ (runTrace s (T.map .cancel)).2, res = .ok) ∧
      (∀ t, (run s (T.map .cancel)).taskState t =
        if t ∈ T then some .cancelled else s.taskState t) ∧
      Closes s (run s (T.map .cancel)) := by
  induction T generalizing s with
  | nil => exact ⟨by simp, by simp, Closes.refl s⟩
  | cons t ts ih =>
      obtain ⟨hnot, hnodup'⟩ := List.nodup_cons.mp hnodup
      obtain ⟨st, hst, hterm⟩ := hlive t (by simp)
      have hstep : step s (.cancel t) = (terminate s t .cancelled, .ok) := by
        simp [step, hst, hterm]
      have hlive' : ∀ u ∈ ts, OwnerLive (terminate s t .cancelled) (.task u) := by
        intro u hu
        have hut : u ≠ t := fun heq ↦ hnot (heq ▸ hu)
        simpa [OwnerLive, terminate, upd_ne _ _ hut] using hlive u (by simp [hu])
      have hfirst : Closes s (terminate s t .cancelled) := Closes.of_mark rfl rfl rfl
      obtain ⟨hok, hstate, hcloses⟩ := ih _ hnodup' hlive'
      simp only [List.map_cons, run_cons, runTrace_cons_snd, hstep]
      refine ⟨by simpa using hok, fun u ↦ ?_, hfirst.trans hcloses⟩
      rw [hstate]
      by_cases hut : u = t
      · subst hut
        simp [hnot, terminate]
      · simp [hut, terminate, upd_ne _ _ hut]

/-- Closing existing actors succeeds and leaves each closed. -/
theorem close_all (A : List ActorId) (s : RuntimeState) (hex : ∀ a ∈ A, ActorExists s a) :
    (∀ res ∈ (runTrace s (A.map .closeActor)).2, res = .ok) ∧
      (run s (A.map .closeActor)).taskState = s.taskState ∧
      (∀ a, (run s (A.map .closeActor)).actorStatus a =
        if a ∈ A then .closed else s.actorStatus a) ∧
      Closes s (run s (A.map .closeActor)) := by
  induction A generalizing s with
  | nil => exact ⟨by simp, rfl, by simp, Closes.refl s⟩
  | cons a as ih =>
      have hstep := step_closeActor (hex a (by simp))
      have hfirst : Closes s (step s (.closeActor a)).1 := by
        rw [hstep]
        exact Closes.of_mark rfl rfl rfl
      obtain ⟨hok, hstate, hstatus, hcloses⟩ := ih (step s (.closeActor a)).1
        fun b hb ↦ actorExists_step (hex b (by simp [hb])) _
      rw [List.map_cons, run_cons, runTrace_cons_snd]
      refine ⟨by simpa [hstep] using hok, by rw [hstate, hstep], fun b ↦ ?_,
        hfirst.trans hcloses⟩
      rw [hstatus, hstep]
      by_cases hba : b = a
      · subst hba
        simp
      · simp [hba, upd_ne _ _ hba]

/-- Finalizing distinct closing resources succeeds and releases each of them. -/
theorem finalize_all (R : List ResourceId) (s : RuntimeState) (hnodup : R.Nodup)
    (hclosing : ∀ r ∈ R, ∃ o, s.resources r = some ⟨o, .closing⟩) :
    (∀ res ∈ (runTrace s (R.map .finalize)).2, res = .ok) ∧
      (∀ r ∈ R, (run s (R.map .finalize)).ResourceReleased r) ∧
      (∀ r, r ∉ R → (run s (R.map .finalize)).resources r = s.resources r) ∧
      (RuntimeQuiescent s → RuntimeQuiescent (run s (R.map .finalize))) := by
  induction R generalizing s with
  | nil => exact ⟨by simp, by simp, by simp, fun hq ↦ hq⟩
  | cons r rs ih =>
      obtain ⟨hnot, hnodup'⟩ := List.nodup_cons.mp hnodup
      obtain ⟨o, hr⟩ := hclosing r (by simp)
      have hstep : step s (.finalize r) =
          ({ s with resources := upd s.resources r (some ⟨o, .released⟩) }, .ok) := by
        simp [step, hr]
      have hne : ∀ r' ∈ rs, r' ≠ r := fun r' hr' heq ↦ hnot (heq ▸ hr')
      obtain ⟨hok, hreleased, hframe, hquiet⟩ := ih
        { s with resources := upd s.resources r (some ⟨o, .released⟩) } hnodup'
        (fun r' hr' ↦ by simpa [upd_ne _ _ (hne r' hr')] using hclosing r' (by simp [hr']))
      simp only [List.map_cons, run_cons, runTrace_cons_snd, hstep]
      refine ⟨by simpa using hok, fun r' hr' ↦ ?_, fun r' hr' ↦ ?_, fun hq ↦ hquiet hq⟩
      · rcases List.mem_cons.mp hr' with rfl | hmem
        · exact ⟨⟨o, .released⟩, by rw [hframe r' hnot]; simp, rfl⟩
        · exact hreleased r' hmem
      · rw [List.mem_cons, not_or] at hr'
        rw [hframe r' hr'.2]
        exact upd_ne _ _ hr'.1

/-! ## The whole drain -/

def drainProgram (T : List TaskId) (A : List ActorId) (R : List ResourceId) : List RuntimeOp :=
  T.map .cancel ++ A.map .closeActor ++ R.map .finalize ++ [.stopWhenDrained]

/-- What a drain program of `s` must list: each live task once, existing actors
among which are all that own an allocated resource, and each resource that is
not released once. -/
structure DrainPlan (s : RuntimeState) (T : List TaskId) (A : List ActorId)
    (R : List ResourceId) : Prop where
  tasks_nodup : T.Nodup
  mem_tasks : ∀ t, t ∈ T ↔ ∃ st, s.taskState t = some st ∧ st.isTerminal = false
  actors_exist : ∀ a ∈ A, ActorExists s a
  actors_cover : ∀ r a, s.resources r = some ⟨.actor a, .allocated⟩ → a ∈ A
  resources_nodup : R.Nodup
  mem_resources : ∀ r, r ∈ R ↔ r < s.nextResourceId ∧ ¬ s.ResourceReleased r

section Drain

variable {s : RuntimeState} {p : TaskId → Phase} {T : List TaskId} {A : List ActorId}
  {R : List ResourceId}

/-- After the tasks are cancelled and the actors closed, no task is live and
no resource is allocated: the resources of `R` are exactly the closing ones. -/
theorem drain_closes (h : Located s p) (hl : LedgerSound s) (hplan : DrainPlan s T A R) :
    (∀ res ∈ (runTrace s (T.map .cancel ++ A.map .closeActor)).2, res = .ok) ∧
      RuntimeQuiescent (run s (T.map .cancel ++ A.map .closeActor)) ∧
      Closes s (run s (T.map .cancel ++ A.map .closeActor)) ∧
      ∀ r o, (run s (T.map .cancel ++ A.map .closeActor)).resources r ≠
        some ⟨o, .allocated⟩ := by
  obtain ⟨hok₁, hstate₁, hcloses₁⟩ := cancel_all T s hplan.tasks_nodup
    fun t ht ↦ (hplan.mem_tasks t).mp ht
  have hex : ∀ a ∈ A, ActorExists (run s (T.map .cancel)) a := by
    intro a ha
    rw [ActorExists, hcloses₁.mailboxes]
    exact hplan.actors_exist a ha
  obtain ⟨hok₂, hstate₂, hstatus₂, hcloses₂⟩ := close_all A _ hex
  have hcloses := hcloses₁.trans hcloses₂
  obtain ⟨⟨p', h'⟩, hl'⟩ := h.run_sound hl (T.map .cancel ++ A.map .closeActor)
  rw [run_append] at h' hl' ⊢
  have hdead : ∀ t, ¬ OwnerLive (run (run s (T.map .cancel)) (A.map .closeActor)) (.task t) := by
    rintro t ⟨st, hst, hterm⟩
    rw [hstate₂, hstate₁] at hst
    by_cases ht : t ∈ T
    · rw [if_pos ht, Option.some.injEq] at hst
      simp [← hst, TaskState.isTerminal] at hterm
    · rw [if_neg ht] at hst
      exact ht ((hplan.mem_tasks t).mpr ⟨st, hst, hterm⟩)
  refine ⟨fun res hres ↦ ?_, h'.quiescent (h'.idle_of_no_live hdead), hcloses, fun r o hr ↦ ?_⟩
  · rw [runTrace_append_snd] at hres
    rcases List.mem_append.mp hres with hmem | hmem
    · exact hok₁ res hmem
    · exact hok₂ res hmem
  · have hlive := hl'.allocated_live r o hr
    cases o with
    | task t => exact hdead t hlive
    | actor a =>
        have hmem : a ∈ A := hplan.actors_cover r a (hcloses.allocated hr)
        exact hlive.2 (by rw [hstatus₂, if_pos hmem])

/-- Finalizing `R` then drains the ledger. -/
theorem drain_finalizes (h : Located s p) (hl : LedgerSound s) (hplan : DrainPlan s T A R) :
    (∀ res ∈ (runTrace s (T.map .cancel ++ A.map .closeActor ++ R.map .finalize)).2, res = .ok) ∧
      RuntimeQuiescent (run s (T.map .cancel ++ A.map .closeActor ++ R.map .finalize)) ∧
      Drained (run s (T.map .cancel ++ A.map .closeActor ++ R.map .finalize)) := by
  obtain ⟨hok, hquiet, hcloses, hnone⟩ := drain_closes h hl hplan
  have hl' := (h.run_sound hl (T.map .cancel ++ A.map .closeActor)).2
  rw [runTrace_append_snd, run_append _ _ (R.map .finalize)]
  generalize run s (T.map .cancel ++ A.map .closeActor) = s' at hquiet hcloses hnone hl' ⊢
  have hlisted : ∀ r, (∃ o, s'.resources r = some ⟨o, .closing⟩) ↔ r ∈ R := by
    intro r
    rw [hplan.mem_resources, ← hcloses.released_iff, ← hcloses.nextResourceId]
    constructor
    · rintro ⟨o, hr⟩
      exact ⟨hl'.lt_next hr, by simp [RuntimeState.ResourceReleased, hr]⟩
    · rintro ⟨hlt, hnr⟩
      obtain ⟨⟨o, st⟩, hr⟩ := hl'.recorded_below r hlt
      cases st with
      | allocated => exact absurd hr (hnone r o)
      | closing => exact ⟨o, hr⟩
      | released => exact absurd ⟨_, hr, rfl⟩ hnr
  obtain ⟨hok', hreleased, hframe, hquiet'⟩ :=
    finalize_all R s' hplan.resources_nodup fun r hr ↦ (hlisted r).mpr hr
  refine ⟨fun res hres ↦ ?_, hquiet' hquiet, fun r rr hr ↦ ?_⟩
  · rcases List.mem_append.mp hres with hmem | hmem
    · exact hok res hmem
    · exact hok' res hmem
  · by_cases hmem : r ∈ R
    · obtain ⟨rr', hrr', hst⟩ := hreleased r hmem
      rw [hrr', Option.some.injEq] at hr
      rwa [← hr]
    · rw [hframe r hmem] at hr
      obtain ⟨o, st⟩ := rr
      cases st with
      | allocated => exact absurd hr (hnone r o)
      | closing => exact absurd ((hlisted r).mp ⟨o, hr⟩) hmem
      | released => rfl

theorem drain_clean (h : Located s p) (hl : LedgerSound s) (hplan : DrainPlan s T A R) :
    (∀ res ∈ (runTrace s (drainProgram T A R)).2, res = .ok) ∧
      CleanStopped (run s (drainProgram T A R)) := by
  obtain ⟨hok, hquiet, hdr⟩ := drain_finalizes h hl hplan
  have hl' := (h.run_sound hl (T.map .cancel ++ A.map .closeActor ++ R.map .finalize)).2
  rw [drainProgram, runTrace_append_snd, run_append _ _ [.stopWhenDrained]]
  generalize run s (T.map .cancel ++ A.map .closeActor ++ R.map .finalize) = s' at hquiet hdr hl' ⊢
  obtain ⟨hrun, hready, htimers⟩ := hquiet
  rw [run_cons, runTrace_cons_snd, step_stopWhenDrained hl' ⟨hrun, hready, htimers⟩ hdr]
  refine ⟨fun res hres ↦ ?_, rfl, hrun, hready, htimers, by simp, hdr⟩
  rcases List.mem_append.mp hres with hmem | hmem
  · exact hok res hmem
  · simpa using hmem

end Drain

/-- The actor that owns `r` while it is allocated. -/
def allocatedActor (s : RuntimeState) (r : ResourceId) : Option ActorId :=
  match s.resources r with
  | some ⟨.actor a, .allocated⟩ => some a
  | _ => none

/-- Every reachable state has a drain plan. -/
theorem exists_drainPlan (ops : List RuntimeOp) :
    ∃ T A R, DrainPlan (run RuntimeState.init ops) T A R := by
  obtain ⟨p, h⟩ := reachable_located ops
  have hl := reachable_ledgerSound ops
  generalize run RuntimeState.init ops = s at h hl
  have hspawned : ∀ t st, s.taskState t = some st → t < s.nextId := by
    intro t st hst
    apply h.lt_nextId
    rw [ne_eq, ← Phase.shows_none_iff (h.shows_phase t), hst]
    simp
  have howner : ∀ r a, s.resources r = some ⟨.actor a, .allocated⟩ →
      a ∈ (List.range s.nextResourceId).filterMap (allocatedActor s) := by
    intro r a hr
    exact List.mem_filterMap.mpr ⟨r, List.mem_range.mpr (hl.lt_next hr), by simp [allocatedActor, hr]⟩
  refine ⟨(List.range s.nextId).filter fun t ↦ (s.taskState t).any fun st ↦ !st.isTerminal,
    (List.range s.nextResourceId).filterMap (allocatedActor s),
    (List.range s.nextResourceId).filter fun r ↦
      !(s.resources r).any fun rr ↦ rr.state = .released,
    List.nodup_range.filter _, fun t ↦ ?_, fun a ha ↦ ?_, howner, List.nodup_range.filter _,
    fun r ↦ ?_⟩
  · rw [List.mem_filter, List.mem_range]
    refine ⟨fun ht ↦ by simpa [Option.any_eq_true] using ht.2, ?_⟩
    rintro ⟨st, hst, hterm⟩
    exact ⟨hspawned t st hst, by simp [hst, hterm]⟩
  · obtain ⟨r, -, hr⟩ := List.mem_filterMap.mp ha
    have hrr : s.resources r = some ⟨.actor a, .allocated⟩ := by
      revert hr
      unfold allocatedActor
      split <;> simp_all
    exact (hl.allocated_live r _ hrr).1
  · rw [List.mem_filter, List.mem_range]
    cases hr : s.resources r <;> simp [RuntimeState.ResourceReleased, hr]

/-- From every reachable state there is a drain plan, and every drain plan
runs without a failing operation into a clean stop. -/
theorem reachable_clean_stop (ops : List RuntimeOp) :
    (∃ T A R, DrainPlan (run RuntimeState.init ops) T A R) ∧
      ∀ T A R, DrainPlan (run RuntimeState.init ops) T A R →
        (∀ res ∈ (runTrace (run RuntimeState.init ops) (drainProgram T A R)).2, res = .ok) ∧
          CleanStopped (run (run RuntimeState.init ops) (drainProgram T A R)) := by
  obtain ⟨p, h⟩ := reachable_located ops
  exact ⟨exists_drainPlan ops, fun T A R hplan ↦ drain_clean h (reachable_ledgerSound ops) hplan⟩

/-- Two live tasks, one running with a resource of its own, and an actor that owns another. -/
def busyRun : List RuntimeOp :=
  [.spawn 7, .acquireActor 7, .schedule, .acquire 0, .spawn 8]

theorem busyRun_drainPlan : DrainPlan (run RuntimeState.init busyRun) [1, 0] [7] [0, 1] where
  tasks_nodup := by decide
  mem_tasks := by
    intro t
    match t with
    | 0 => exact iff_of_true (by simp) ⟨.running, rfl, rfl⟩
    | 1 => exact iff_of_true (by simp) ⟨.new, rfl, rfl⟩
    | t + 2 => exact iff_of_false (by simp) (by rintro ⟨st, hst, -⟩; cases hst)
  actors_exist := by
    intro a ha
    obtain rfl : a = 7 := by simpa using ha
    exact ⟨Mailbox.empty, rfl⟩
  actors_cover := by
    intro r a hr
    match r with
    | 0 => cases hr; simp
    | 1 => cases hr
    | r + 2 => cases hr
  resources_nodup := by decide
  mem_resources := by
    intro r
    match r with
    | 0 => exact iff_of_true (by simp) ⟨by decide, by rintro ⟨rr, hrr, hst⟩; cases hrr; cases hst⟩
    | 1 => exact iff_of_true (by simp) ⟨by decide, by rintro ⟨rr, hrr, hst⟩; cases hrr; cases hst⟩
    | r + 2 => exact iff_of_false (by simp) fun hr ↦ absurd hr.1 (Nat.not_lt.mpr (Nat.le_add_left 2 r))

theorem busyRun_clean_stop :
    CleanStopped (run (run RuntimeState.init busyRun) (drainProgram [1, 0] [7] [0, 1])) :=
  ((reachable_clean_stop busyRun).2 _ _ _ busyRun_drainPlan).2

end Henret
