import Henret.Runtime.Placement

/-!
# Every operation follows the lifecycle automaton

One lemma for each way an operation rearranges the queues, then one theorem
over all operations: a located state steps to a located state along edges of
the automaton, and the tasks that finish are exactly the retired ones.
-/

namespace Henret

open Occupancy

theorem map_task_filter (l : List TimerEntry) (t : TaskId) :
    (l.filter (fun e ↦ e.task ≠ t)).map TimerEntry.task =
      (l.map TimerEntry.task).filter (fun u ↦ u ≠ t) := by
  rw [List.filter_map]
  rfl

theorem map_task_insertSorted (d : ℕ) (t : TaskId) (l : List TimerEntry) :
    ((Timer.insertSorted ⟨d, t⟩ l).map TimerEntry.task).Perm
      (t :: l.map TimerEntry.task) := by
  simpa using (Timer.insertSorted_perm ⟨d, t⟩ l).map TimerEntry.task

namespace Located

variable {s s' : RuntimeState} {p : TaskId → Phase}

theorem lt_nextId (h : Located s p) {t : TaskId} (ht : p t ≠ .fresh) : t < s.nextId := by
  by_contra hlt
  exact ht (h.fresh_above t (Nat.le_of_not_lt hlt))

/-- One existing task changes phase. -/
theorem move (h : Located s p) {t : TaskId} {a b : Phase} {st : TaskState}
    (hp : p t = a) (ha : a ≠ .fresh)
    (hkeep : ∀ x, (a.Holds x ↔ b.Holds x) → (queueOf s' x).Perm (queueOf s x))
    (hleave : ∀ x, a.Holds x → ¬ b.Holds x →
      (queueOf s' x).Perm ((queueOf s x).filter (fun u ↦ u ≠ t)))
    (henter : ∀ x, ¬ a.Holds x → b.Holds x → (queueOf s' x).Perm (t :: queueOf s x))
    (hstate : s'.taskState = upd s.taskState t (some st)) (hshows : b.Shows (some st))
    (howner : s'.taskOwner = s.taskOwner) (hnext : s'.nextId = s.nextId)
    (hwaits : ∀ a, b = .waiting a → s.taskOwner t = some a) :
    Located s' (Function.update p t b) := by
  subst hp
  refine ⟨h.tracks.move t b hkeep hleave henter, fun u ↦ ?_, fun u a hu ↦ ?_, fun u hu ↦ ?_⟩
  · rw [hstate]
    by_cases hut : u = t
    · subst hut
      simpa using hshows
    · rw [Function.update_of_ne hut, upd_ne _ _ hut]
      exact h.shows_phase u
  · rw [howner]
    by_cases hut : u = t
    · subst hut
      exact hwaits a (by simpa using hu)
    · rw [Function.update_of_ne hut] at hu
      exact h.waits_on_own u a hu
  · rw [hnext] at hu
    have hut : u ≠ t := ne_of_gt (lt_of_lt_of_le (h.lt_nextId ha) hu)
    rw [Function.update_of_ne hut]
    exact h.fresh_above u hu

theorem spawnFresh (h : Located s p) (a : ActorId) :
    Located (spawnFresh s a) (Function.update p s.nextId .queued) := by
  have hp := h.fresh_nextId
  refine ⟨h.tracks.move s.nextId .queued ?_ ?_ ?_, fun u ↦ ?_, fun u b hu ↦ ?_, fun u hu ↦ ?_⟩
  · rintro x hx
    cases x <;> simp_all [Phase.Holds, queueOf, Henret.spawnFresh]
  · rintro x hx
    simp [hp, Phase.Holds] at hx
  · rintro x - hx
    cases x <;> simp_all [Phase.Holds, queueOf, Henret.spawnFresh]
  · by_cases hut : u = s.nextId
    · subst hut
      simp [Henret.spawnFresh, Phase.Shows, TaskState.isRunnable]
    · rw [Function.update_of_ne hut]
      simpa [Henret.spawnFresh, upd_ne _ _ hut] using h.shows_phase u
  · by_cases hut : u = s.nextId
    · subst hut
      simp at hu
    · rw [Function.update_of_ne hut] at hu
      simpa [Henret.spawnFresh, upd_ne _ _ hut] using h.waits_on_own u b hu
  · have hle : s.nextId + 1 ≤ u := hu
    rw [Function.update_of_ne (ne_of_gt (Nat.lt_of_succ_le hle))]
    exact h.fresh_above u (Nat.le_of_succ_le hle)

/-- `schedule` moves the head of the ready queue to the running slot. -/
theorem dispatch (h : Located s p) {t : TaskId} {q : List TaskId}
    (hrun : s.running = none) (hready : s.readyQ = t :: q) :
    Located { s with
      taskState := upd s.taskState t (some .running)
      readyQ := q
      running := some t } (Function.update p t .running) := by
  have hp : p t = .queued := h.phase_queued (by simp [hready])
  have hnodup : (t :: q).Nodup := hready ▸ h.readyQ_nodup
  refine h.move hp (by simp) ?_ ?_ ?_ rfl (by simp [Phase.Shows]) rfl rfl (by simp)
  · intro x hx
    cases x <;> simp_all [Phase.Holds, queueOf]
  · intro x hold hnew
    cases x with
    | ready =>
        simp only [queueOf, hready]
        rw [filter_ne_head hnodup]
    | _ => simp [Phase.Holds] at hold
  · intro x hold hnew
    cases x <;> simp_all [Phase.Holds, queueOf]

/-- The running task is queued again. -/
theorem requeue (h : Located s p) {t : TaskId} (hrun : s.running = some t) :
    Located { s with
      taskState := upd s.taskState t (some .yielded)
      readyQ := s.readyQ ++ [t]
      running := none } (Function.update p t .queued) := by
  have hp := h.phase_running hrun
  refine h.move hp (by simp) ?_ ?_ ?_ rfl
    (by simp [Phase.Shows, TaskState.isRunnable]) rfl rfl (by simp)
  · intro x hx
    cases x <;> simp_all [Phase.Holds, queueOf]
  · intro x hold hnew
    cases x <;> simp_all [Phase.Holds, queueOf]
  · intro x hold hnew
    cases x <;> simp_all [Phase.Holds, queueOf]

theorem complete (h : Located s p) {t : TaskId} (hrun : s.running = some t) :
    Located { s with
      taskState := upd s.taskState t (some .completed)
      running := none
      resources := markClosingIf (· == t) s.resources }
      (Function.update p t .finished) := by
  have hp := h.phase_running hrun
  refine h.move hp (by simp) ?_ ?_ ?_ rfl
    (by simp [Phase.Shows, TaskState.isTerminal]) rfl rfl (by simp)
  · intro x hx
    cases x <;> simp_all [Phase.Holds, queueOf]
  · intro x hold hnew
    cases x <;> simp_all [Phase.Holds, queueOf]
  · intro x hold hnew
    simp [Phase.Holds] at hnew

theorem sleep (h : Located s p) {t : TaskId} (hrun : s.running = some t) (deadline : ℕ) :
    Located { s with
      taskState := upd s.taskState t (some .sleeping)
      running := none
      timers := Timer.insertSorted ⟨deadline, t⟩ s.timers }
      (Function.update p t .sleeping) := by
  have hp := h.phase_running hrun
  refine h.move hp (by simp) ?_ ?_ ?_ rfl (by simp [Phase.Shows]) rfl rfl (by simp)
  · intro x hx
    cases x <;> simp_all [Phase.Holds, queueOf]
  · intro x hold hnew
    cases x <;> simp_all [Phase.Holds, queueOf]
  · intro x hold hnew
    cases x <;> simp_all [Phase.Holds, queueOf, map_task_insertSorted]

theorem park (h : Located s p) {t : TaskId} {a : ActorId} (hrun : s.running = some t)
    (howner : s.taskOwner t = some a) :
    Located (park s t a) (Function.update p t (.waiting a)) := by
  have hp := h.phase_running hrun
  refine h.move hp (by simp) ?_ ?_ ?_ rfl (by simp [Phase.Shows]) rfl rfl ?_
  · intro x hx
    cases x <;> simp_all [Phase.Holds, queueOf, Henret.park]
  · intro x hold hnew
    cases x <;> simp_all [Phase.Holds, queueOf, Henret.park]
  · intro x hold hnew
    cases x <;> simp_all [Phase.Holds, queueOf, Henret.park]
  · intro b hb
    cases hb
    exact howner

theorem parkUntil (h : Located s p) {t : TaskId} {a : ActorId} (hrun : s.running = some t)
    (deadline : ℕ) :
    Located (parkUntil s t a deadline) (Function.update p t (.timed a)) := by
  have hp := h.phase_running hrun
  refine h.move hp (by simp) ?_ ?_ ?_ rfl (by simp [Phase.Shows]) rfl rfl (by simp)
  · intro x hx
    cases x <;> simp_all [Phase.Holds, queueOf, Henret.parkUntil]
  · intro x hold hnew
    cases x <;> simp_all [Phase.Holds, queueOf, Henret.parkUntil]
  · intro x hold hnew
    cases x <;> simp_all [Phase.Holds, queueOf, Henret.parkUntil, map_task_insertSorted]

/-- A set of spawned tasks leaves every queue and turns terminal. -/
theorem dismiss (h : Located s p) (K : TaskId → Bool)
    (hspawned : ∀ t, K t = true → p t ≠ .fresh)
    (hqueue : ∀ x, queueOf s' x = (queueOf s x).filter (fun t ↦ !K t))
    (hgone : ∀ t, K t = true → (s'.taskState t).any TaskState.isTerminal = true)
    (hstay : ∀ t, K t = false → s'.taskState t = s.taskState t)
    (howner : s'.taskOwner = s.taskOwner) (hnext : s'.nextId = s.nextId) :
    Located s' (fun t ↦ if K t then .finished else p t) := by
  refine ⟨h.tracks.dismiss K hqueue ?_ ?_, fun t ↦ ?_, fun t a ht ↦ ?_, fun t ht ↦ ?_⟩
  · intro t x hK
    simp [hK, Phase.Holds]
  · intro t hK
    simp [hK]
  · cases hK : K t with
    | true => simpa [Phase.Shows] using hgone t hK
    | false => simpa [hstay t hK] using h.shows_phase t
  · rw [howner]
    cases hK : K t with
    | true => simp [hK] at ht
    | false => exact h.waits_on_own t a (by simpa [hK] using ht)
  · rw [hnext] at ht
    have hfresh := h.fresh_above t ht
    cases hK : K t with
    | true => exact absurd hfresh (hspawned t hK)
    | false => simpa using hfresh

theorem terminate (h : Located s p) {t : TaskId} {st : TaskState} (hp : p t ≠ .fresh)
    (hst : st.isTerminal = true) :
    Located (terminate s t st) (fun u ↦ if u == t then .finished else p u) := by
  refine h.dismiss (· == t) ?_ ?_ ?_ ?_ rfl rfl
  · intro u hu
    have hut : u = t := by simpa using hu
    rwa [hut]
  · have hfilter : ∀ l : List TaskId,
        l.filter (fun u ↦ u ≠ t) = l.filter (fun u ↦ !(u == t)) := by
      intro l
      apply List.filter_congr
      intro u _
      by_cases hu : u = t <;> simp [hu]
    intro x
    cases x with
    | ready => exact hfilter _
    | running =>
        simp only [queueOf, Henret.terminate]
        cases hrun : s.running with
        | none => simp
        | some u => by_cases hu : u = t <;> simp [hu]
    | timer =>
        simp only [queueOf, Henret.terminate]
        rw [map_task_filter]
        exact hfilter _
    | waiters a =>
        simp only [queueOf, Henret.terminate]
        rw [← hfilter]
        cases howner : s.taskOwner t with
        | none =>
            refine (h.tracks.filter_ne_eq_self (x := .waiters a) fun hx ↦ ?_).symm
            have hown := h.waits_on_own t a (h.phase_waiting (h.tracks.mem hx))
            simp [howner] at hown
        | some b =>
            by_cases hab : a = b
            · simp [hab]
            · simp only [hab, if_false]
              refine (h.tracks.filter_ne_eq_self (x := .waiters a) fun hx ↦ ?_).symm
              have hown := h.waits_on_own t a (h.phase_waiting (h.tracks.mem hx))
              exact hab (Option.some.inj (hown.symm.trans howner))
    | timedWaiters a => exact hfilter _
  · intro u hu
    have hut : u = t := by simpa using hu
    simp [Henret.terminate, hut, hst]
  · intro u hu
    have hut : u ≠ t := by simpa using hu
    exact upd_ne _ _ hut

theorem cancelTree (h : Located s p) (root : TaskId) :
    Located (applyCancelTree s (descendantsOf s root))
      (fun t ↦ if decide (t ∈ descendantsOf s root) then .finished else p t) := by
  have hspawned : ∀ t ∈ descendantsOf s root, s.taskState t ≠ none := by
    intro t ht
    have hmem := (List.mem_filter.mp ht).2
    simp only [Bool.and_eq_true, bne_iff_ne] at hmem
    exact hmem.1
  refine h.dismiss (fun t ↦ decide (t ∈ descendantsOf s root)) ?_ ?_ ?_ ?_ rfl rfl
  · intro t ht hfresh
    exact hspawned t (by simpa using ht) ((Phase.shows_none_iff (h.shows_phase t)).mpr hfresh)
  · intro x
    cases x with
    | running =>
        simp only [queueOf, applyCancelTree]
        cases hrun : s.running with
        | none => simp
        | some u => by_cases hu : u ∈ descendantsOf s root <;> simp [hu]
    | timer =>
        simp only [queueOf, applyCancelTree, List.filter_map]
        simp [Function.comp_def]
    | _ => simp [queueOf, applyCancelTree]
  · intro t ht
    have hmem : t ∈ descendantsOf s root := by simpa using ht
    cases hst : s.taskState t with
    | none => exact absurd hst (hspawned t hmem)
    | some st =>
        cases hterm : st.isTerminal with
        | true => simp [applyCancelTree, hmem, hst, hterm]
        | false =>
            simp only [applyCancelTree, hmem, if_true, hst, hterm, Bool.false_eq_true, if_false]
            rfl
  · intro t ht
    have hmem : t ∉ descendantsOf s root := by simpa using ht
    simp [applyCancelTree, hmem]

theorem wake (h : Located s p) {t : TaskId} (hst : s.taskState t = some .sleeping) :
    Located { s with
      taskState := upd s.taskState t (some .ready)
      readyQ := s.readyQ ++ [t]
      timers := s.timers.filter (fun e ↦ e.task ≠ t) } (Function.update p t .queued) := by
  have hp : p t = .sleeping := (Phase.shows_sleeping_iff (h.shows_phase t)).mp hst
  refine h.move hp (by simp) ?_ ?_ ?_ rfl
    (by simp [Phase.Shows, TaskState.isRunnable]) rfl rfl (by simp)
  · intro x hx
    cases x <;> simp_all [Phase.Holds, queueOf]
  · intro x hold hnew
    cases x with
    | timer =>
        simp only [queueOf]
        rw [map_task_filter]
    | _ => simp [Phase.Holds] at hold
  · intro x hold hnew
    cases x <;> simp_all [Phase.Holds, queueOf]

/-- A delivery wakes at most the head waiter of the target actor. -/
theorem deliver (h : Located s p) (b : ActorId) (mb : Mailbox) (env : Envelope) :
    ∃ p', Located (deliver s b mb env) p' ∧ Advances p p' (fun _ ↦ False) := by
  cases hws : s.mailboxWaiters b with
  | cons w ws =>
      have hp : p w = .waiting b := h.phase_waiting (by simp [hws])
      have hnodup : (w :: ws).Nodup := hws ▸ h.tracks.nodup (.waiters b)
      have hedge : Phase.Edge (p w) .queued := by
        rw [hp]
        exact .wakeWaiting b
      refine ⟨Function.update p w .queued, ?_, Advances.move hedge (by simp)⟩
      have hdeliver : Henret.deliver s b mb env = { s with
          mailboxes := upd s.mailboxes b (some (mb.enqueue env))
          nextMsgId := s.nextMsgId + 1
          taskState := upd s.taskState w (some .ready)
          readyQ := s.readyQ ++ [w]
          mailboxWaiters := fun ac ↦ if ac = b then ws else s.mailboxWaiters ac
          timers := s.timers.filter (fun e ↦ e.task ≠ w)
          waitDeadline := fun u ↦ if u = w then none else s.waitDeadline u } := by
        simp [Henret.deliver, hws]
      rw [hdeliver]
      refine h.move hp (by simp) ?_ ?_ ?_ rfl
        (by simp [Phase.Shows, TaskState.isRunnable]) rfl rfl (by simp)
      · intro x hx
        cases x with
        | timer =>
            simp only [queueOf]
            rw [map_task_filter]
            have hfilter := h.tracks.filter_ne_eq_self (t := w) (x := .timer)
              (by simp [hp, Phase.Holds])
            simp only [queueOf] at hfilter
            rw [hfilter]
        | waiters a =>
            have hab : a ≠ b := by
              simpa [Phase.Holds] using hx
            simp [queueOf, hab]
        | ready => simp [Phase.Holds] at hx
        | _ => simp [queueOf]
      · intro x hold hnew
        cases x with
        | waiters a =>
            have hab : a = b := hold
            subst hab
            simp only [queueOf, if_true, hws]
            rw [filter_ne_head hnodup]
        | _ => simp [Phase.Holds] at hold
      · intro x hold hnew
        cases x <;> simp_all [Phase.Holds, queueOf]
  | nil =>
      cases hts : s.timedMailboxWaiters b with
      | cons w ws =>
          have hp : p w = .timed b := h.phase_timed (by simp [hts])
          have hnodup : (w :: ws).Nodup := hts ▸ h.tracks.nodup (.timedWaiters b)
          have hedge : Phase.Edge (p w) .queued := by
            rw [hp]
            exact .wakeTimed b
          refine ⟨Function.update p w .queued, ?_, Advances.move hedge (by simp)⟩
          have hdeliver : Henret.deliver s b mb env = { s with
              mailboxes := upd s.mailboxes b (some (mb.enqueue env))
              nextMsgId := s.nextMsgId + 1
              taskState := upd s.taskState w (some .ready)
              readyQ := s.readyQ ++ [w]
              timedMailboxWaiters := fun ac ↦ if ac = b then ws else s.timedMailboxWaiters ac
              timers := s.timers.filter (fun e ↦ e.task ≠ w)
              waitDeadline := fun u ↦ if u = w then none else s.waitDeadline u } := by
            simp [Henret.deliver, hws, hts]
          rw [hdeliver]
          refine h.move hp (by simp) ?_ ?_ ?_ rfl
            (by simp [Phase.Shows, TaskState.isRunnable]) rfl rfl (by simp)
          · intro x hx
            cases x with
            | timedWaiters a =>
                have hab : a ≠ b := by
                  simpa [Phase.Holds] using hx
                simp [queueOf, hab]
            | ready => simp [Phase.Holds] at hx
            | timer => simp [Phase.Holds] at hx
            | _ => simp [queueOf]
          · intro x hold hnew
            cases x with
            | timer =>
                simp only [queueOf]
                rw [map_task_filter]
            | timedWaiters a =>
                have hab : a = b := hold
                subst hab
                simp only [queueOf, if_true, hts]
                rw [filter_ne_head hnodup]
            | _ => simp [Phase.Holds] at hold
          · intro x hold hnew
            cases x <;> simp_all [Phase.Holds, queueOf]
      | nil =>
          have hdeliver : Henret.deliver s b mb env = { s with
              mailboxes := upd s.mailboxes b (some (mb.enqueue env))
              nextMsgId := s.nextMsgId + 1 } := by
            simp [Henret.deliver, hws, hts]
          rw [hdeliver]
          exact ⟨p, h.congr (fun x ↦ by cases x <;> rfl) rfl rfl rfl, Advances.refl p⟩

end Located

theorem wakeOne_apply (ts : TaskMap) (t u : TaskId) :
    wakeOne ts t u =
      if u = t ∧ (ts u = some .sleeping ∨ ts u = some .waitingTimed) then some .ready
      else ts u := by
  unfold wakeOne
  by_cases hut : u = t
  · subst hut
    rcases hst : ts u with _ | st
    · simp [hst]
    · cases st <;> simp [hst]
  · rcases hst : ts t with _ | st
    · simp [hut]
    · cases st <;> simp [hut, upd_ne]

theorem wakeMany_apply (ts : TaskMap) (l : List TaskId) (u : TaskId) :
    wakeMany ts l u =
      if u ∈ l ∧ (ts u = some .sleeping ∨ ts u = some .waitingTimed) then some .ready
      else ts u := by
  induction l generalizing ts with
  | nil => simp [wakeMany]
  | cons t r ih =>
      rw [wakeMany, ih, wakeOne_apply]
      by_cases hsl : ts u = some .sleeping ∨ ts u = some .waitingTimed
      · by_cases hut : u = t
        · subst hut
          simp [hsl]
        · simp [hut, hsl]
      · simp only [hsl, and_false, if_false]

section Tick

variable {s : RuntimeState} {p : TaskId → Phase} {now : ℕ}

theorem mem_wokenSleeping {u : TaskId} :
    u ∈ wokenSleeping s now ↔
      (∃ e ∈ s.timers, e.deadline ≤ now ∧ e.task = u) ∧ s.taskState u = some .sleeping := by
  simp [wokenSleeping, Timer.expired, List.mem_filter, and_assoc]

theorem mem_wokenTimed {u : TaskId} :
    u ∈ wokenTimed s now ↔
      (∃ e ∈ s.timers, e.deadline ≤ now ∧ e.task = u) ∧ s.taskState u = some .waitingTimed := by
  simp [wokenTimed, Timer.expired, List.mem_filter, and_assoc]

namespace Located

/-- A task with a timer entry is asleep or waits with a deadline. -/
theorem phase_timer (h : Located s p) {e : TimerEntry} (he : e ∈ s.timers) :
    p e.task = .sleeping ∨ ∃ a, p e.task = .timed a := by
  have hmem : e.task ∈ queueOf s .timer := List.mem_map_of_mem he
  have hholds := (h.tracks.mem_iff _ _).mp hmem
  cases hp : p e.task <;> simp_all [Phase.Holds]

theorem mem_woken (h : Located s p) {u : TaskId} :
    u ∈ woken s now ↔ ∃ e ∈ s.timers, e.deadline ≤ now ∧ e.task = u := by
  rw [woken, List.mem_append, mem_wokenSleeping, mem_wokenTimed, ← and_or_left,
    and_iff_left_iff_imp]
  rintro ⟨e, he, -, rfl⟩
  rw [Phase.shows_sleeping_iff (h.shows_phase _), Phase.shows_waitingTimed_iff (h.shows_phase _)]
  exact h.phase_timer he

theorem phase_woken (h : Located s p) {u : TaskId} (hu : u ∈ woken s now) :
    p u = .sleeping ∨ ∃ a, p u = .timed a := by
  obtain ⟨e, he, -, rfl⟩ := h.mem_woken.mp hu
  exact h.phase_timer he

theorem state_woken (h : Located s p) {u : TaskId} (hu : u ∈ woken s now) :
    s.taskState u = some .sleeping ∨ s.taskState u = some .waitingTimed := by
  rw [Phase.shows_sleeping_iff (h.shows_phase u), Phase.shows_waitingTimed_iff (h.shows_phase u)]
  exact h.phase_woken hu

theorem woken_nodup (h : Located s p) : (woken s now).Nodup := by
  have hexpired : ((Timer.expired s.timers now).map TimerEntry.task).Nodup :=
    (h.tracks.nodup .timer).sublist (List.filter_sublist.map _)
  refine List.Nodup.append (hexpired.filter _) (hexpired.filter _) ?_
  intro u hs ht
  have hsleep := (mem_wokenSleeping.mp hs).2
  rw [(mem_wokenTimed.mp ht).2] at hsleep
  cases hsleep

theorem tick_nodup (h : Located s p) (now : ℕ) (x : Slot) :
    (queueOf (wakeExpired s now) x).Nodup := by
  cases x with
  | ready =>
      refine List.Nodup.append h.readyQ_nodup h.woken_nodup ?_
      intro u hready hwoken
      have hq := h.phase_queued hready
      rcases h.phase_woken hwoken with hp | ⟨a, hp⟩ <;> simp [hp] at hq
  | timer => exact (h.tracks.nodup .timer).sublist (List.filter_sublist.map _)
  | timedWaiters a => exact (h.tracks.nodup (.timedWaiters a)).filter _
  | running => exact h.tracks.nodup .running
  | waiters a => exact h.tracks.nodup (.waiters a)

/-- A woken task is in the ready queue and nowhere else. -/
theorem tick_mem_of_woken (h : Located s p) {u : TaskId} (hu : u ∈ woken s now) (x : Slot) :
    u ∈ queueOf (wakeExpired s now) x ↔ Phase.queued.Holds x := by
  have hgone : ∀ y, u ∈ queueOf s y → y = .timer ∨ ∃ a, y = .timedWaiters a := by
    intro y hy
    have hholds := (h.tracks.mem_iff y u).mp hy
    rcases h.phase_woken hu with hp | ⟨a, hp⟩ <;> cases y <;> simp_all [Phase.Holds]
  cases x with
  | ready => exact iff_of_true (List.mem_append_right _ hu) trivial
  | running =>
      refine iff_of_false (fun hx ↦ ?_) not_false
      simpa using hgone .running hx
  | waiters a =>
      refine iff_of_false (fun hx ↦ ?_) not_false
      simpa using hgone (.waiters a) hx
  | timer =>
      refine iff_of_false (fun hx ↦ ?_) not_false
      obtain ⟨e, he, hd, het⟩ := h.mem_woken.mp hu
      obtain ⟨e', he', het'⟩ := List.mem_map.mp hx
      obtain ⟨hmem', hlate⟩ := List.mem_filter.mp he'
      have heq : e = e' :=
        List.inj_on_of_nodup_map (h.tracks.nodup .timer) he hmem' (het.trans het'.symm)
      subst heq
      have hlate : now < e.deadline := by simpa using hlate
      omega
  | timedWaiters a =>
      refine iff_of_false (fun hx ↦ ?_) not_false
      obtain ⟨hmem, hkept⟩ := List.mem_filter.mp hx
      have hst := (Phase.shows_waitingTimed_iff (h.shows_phase u)).mpr ⟨a, h.phase_timed hmem⟩
      have hwoken : u ∈ wokenTimed s now := mem_wokenTimed.mpr ⟨h.mem_woken.mp hu, hst⟩
      simp [hwoken] at hkept

/-- A task that is not woken stays in its queues. -/
theorem tick_mem_of_notWoken (h : Located s p) {u : TaskId} (hu : u ∉ woken s now) (x : Slot) :
    u ∈ queueOf (wakeExpired s now) x ↔ u ∈ queueOf s x := by
  have hut : u ∉ wokenTimed s now := fun hut ↦ hu (List.mem_append_right _ hut)
  cases x with
  | ready => simp [queueOf, wakeExpired, hu]
  | timer =>
      simp only [queueOf, wakeExpired, List.mem_map]
      constructor
      · rintro ⟨e, he, het⟩
        exact ⟨e, (List.mem_filter.mp he).1, het⟩
      · rintro ⟨e, he, het⟩
        refine ⟨e, List.mem_filter.mpr ⟨he, ?_⟩, het⟩
        have hlate : ¬ e.deadline ≤ now := fun hd ↦ hu (h.mem_woken.mpr ⟨e, he, hd, het⟩)
        simpa using hlate
  | timedWaiters a => simp [queueOf, wakeExpired, hut]
  | running => rfl
  | waiters a => rfl

theorem tick (h : Located s p) (now : ℕ) :
    Located (wakeExpired s now) (fun u ↦ if u ∈ woken s now then .queued else p u) := by
  refine ⟨⟨h.tick_nodup now, fun x u ↦ ?_⟩, fun u ↦ ?_, fun u a hu ↦ ?_, fun u hu ↦ ?_⟩
  · by_cases hw : u ∈ woken s now
    · rw [if_pos hw, h.tick_mem_of_woken hw]
    · rw [if_neg hw, h.tick_mem_of_notWoken hw, h.tracks.mem_iff]
  · change Phase.Shows _ (wakeMany s.taskState (woken s now) u)
    rw [wakeMany_apply]
    by_cases hw : u ∈ woken s now
    · rw [if_pos hw, if_pos ⟨hw, h.state_woken hw⟩]
      rfl
    · rw [if_neg hw, if_neg (fun hh ↦ hw hh.1)]
      exact h.shows_phase u
  · by_cases hw : u ∈ woken s now
    · simp [hw] at hu
    · exact h.waits_on_own u a (by simpa [hw] using hu)
  · have hfresh := h.fresh_above u hu
    have hw : u ∉ woken s now := by
      intro hw
      rcases h.phase_woken hw with hp | ⟨a, hp⟩ <;> simp [hp] at hfresh
    simpa [hw] using hfresh

theorem tick_advances (h : Located s p) (now : ℕ) :
    Advances p (fun u ↦ if u ∈ woken s now then .queued else p u) (fun _ ↦ False) := by
  refine ⟨fun u ↦ ?_, fun u ↦ ?_⟩ <;> by_cases hw : u ∈ woken s now
  · right
    rw [if_pos hw]
    rcases h.phase_woken hw with hp | ⟨a, hp⟩ <;> rw [hp]
    · exact .wakeSleeping
    · exact .wakeTimed a
  · exact Or.inl (if_neg hw)
  · rcases h.phase_woken hw with hp | ⟨a, hp⟩ <;> simp [hw, hp]
  · simp [hw]

end Located

end Tick

/-! ## All operations -/

/-- The tasks an operation brings to a terminal state. -/
def Retires (s : RuntimeState) : RuntimeOp → TaskId → Prop
  | .complete u, t => t = u ∧ s.running = some u ∧ s.taskState u = some .running
  | .cancel u, t => t = u ∧ ∃ st, s.taskState u = some st ∧ st.isTerminal = false
  | .fail u, t => t = u ∧ ∃ st, s.taskState u = some st ∧ st.isTerminal = false
  | .cancelTree root, t => t ∈ descendantsOf s root
  | _, _ => False

theorem Advances.congr_finishes {p p' : TaskId → Phase} {K K' : TaskId → Prop}
    (h : Advances p p' K) (hK : ∀ t, K t ↔ K' t) : Advances p p' K' where
  edge := h.edge
  finishes := fun t ↦ (h.finishes t).trans (or_congr_right (hK t))

namespace Located

variable {s : RuntimeState} {p : TaskId → Phase}

theorem receiveWith (h : Located s p) (t : TaskId)
    (dequeue : Mailbox → Option (Envelope × Mailbox)) :
    ∃ p', Located (receiveWith s t dequeue).1 p' ∧ Advances p p' (fun _ ↦ False) := by
  unfold Henret.receiveWith
  split
  · rename_i hrun
    split
    · split
      · rename_i a howner
        split
        · split
          · exact ⟨p, h.congr (fun x ↦ by cases x <;> rfl) rfl rfl rfl, Advances.refl p⟩
          · have hedge : Phase.Edge (p t) (.waiting a) := by
              rw [h.phase_running hrun]
              exact .park a
            exact ⟨_, h.park hrun howner, Advances.move hedge (by simp)⟩
        · exact ⟨p, h, Advances.refl p⟩
      · exact ⟨p, h, Advances.refl p⟩
    · exact ⟨p, h, Advances.refl p⟩
  · exact ⟨p, h, Advances.refl p⟩

/-- `cancel` and `fail` differ in the terminal state only. -/
theorem terminate_step (h : Located s p) (t : TaskId) {st' : TaskState}
    (hst' : st'.isTerminal = true) (r : StepResult) :
    ∃ p', Located (match s.taskState t with
        | some st => if st.isTerminal then (s, StepResult.invalid)
            else (Henret.terminate s t st', r)
        | none => (s, StepResult.invalid)).1 p' ∧
      Advances p p'
        (fun u ↦ u = t ∧ ∃ st, s.taskState t = some st ∧ st.isTerminal = false) := by
  cases hst : s.taskState t with
  | none => exact ⟨p, h, (Advances.refl p).congr_finishes (by simp)⟩
  | some st =>
      cases hterm : st.isTerminal with
      | true => exact ⟨p, by simpa [hterm] using h, (Advances.refl p).congr_finishes (by simp [hterm])⟩
      | false =>
          have hfresh : p t ≠ .fresh := by
            rw [ne_eq, ← Phase.shows_none_iff (h.shows_phase t), hst]
            simp
          have hspawned : ∀ u, (u == t) = true → p u ≠ .fresh := by
            intro u hu
            have hut : u = t := by simpa using hu
            rwa [hut]
          refine ⟨_, by simpa [hterm] using h.terminate hfresh hst',
            (Advances.dismiss hspawned).congr_finishes fun u ↦ ?_⟩
          simp [hterm]

theorem spawnFresh_advances (h : Located s p) :
    Advances p (Function.update p s.nextId .queued) (fun _ ↦ False) := by
  have hedge : Phase.Edge (p s.nextId) .queued := by
    rw [h.fresh_nextId]
    exact .spawn
  exact Advances.move hedge (by simp)

/-- Every operation takes a located state to a located state, along edges of
the lifecycle automaton; the tasks that finish are the retired ones. -/
theorem step (h : Located s p) (op : RuntimeOp) :
    ∃ p', Located (step s op).1 p' ∧ Advances p p' (Retires s op) := by
  have hstay : ∃ p', Located s p' ∧ Advances p p' (fun _ ↦ False) := ⟨p, h, Advances.refl p⟩
  have hframe : ∀ s', (∀ x, queueOf s' x = queueOf s x) → s'.taskState = s.taskState →
      s'.taskOwner = s.taskOwner → s'.nextId = s.nextId →
      ∃ p', Located s' p' ∧ Advances p p' (fun _ ↦ False) :=
    fun s' hqueue hstate howner hnext ↦
      ⟨p, h.congr hqueue hstate howner hnext, Advances.refl p⟩
  cases op with
  | spawn a =>
      simp only [Henret.step]
      split
      · split
        · exact ⟨_, h.spawnFresh a, h.spawnFresh_advances⟩
        · exact hstay
      · exact hstay
  | schedule =>
      simp only [Henret.step]
      split
      · rename_i t q hrun hready
        split
        · have hedge : Phase.Edge (p t) .running := by
            rw [h.phase_queued (by simp [hready])]
            exact .dispatch
          exact ⟨_, h.dispatch hrun hready, Advances.move hedge (by simp)⟩
        · exact hstay
      · exact hstay
  | yield t =>
      simp only [Henret.step]
      split
      · rename_i hrun
        split
        · have hedge : Phase.Edge (p t) .queued := by
            rw [h.phase_running hrun]
            exact .requeue
          exact ⟨_, h.requeue hrun, Advances.move hedge (by simp)⟩
        · exact hstay
      · exact hstay
  | complete t =>
      simp only [Henret.step]
      split
      · rename_i hrun
        have hp := h.phase_running hrun
        split
        · rename_i hst
          exact ⟨_, h.complete hrun, (Advances.finish (by simp [hp]) (by simp [hp])).congr_finishes
            (by simp [Retires, hrun, hst])⟩
        · rename_i hst
          exact absurd ((Phase.shows_running_iff (h.shows_phase t)).mpr hp) hst
      · rename_i hrun
        exact ⟨p, h, (Advances.refl p).congr_finishes (by simp [Retires, hrun])⟩
  | cancel t => exact h.terminate_step t rfl .ok
  | fail t => exact h.terminate_step t rfl .ok
  | send t b m =>
      simp only [Henret.step]
      repeat' split
      all_goals first
        | exact hstay
        | exact h.deliver b _ _
  | receive t => exact h.receiveWith t _
  | receiveByOccurrence t occ => exact h.receiveWith t _
  | receiveFrom t src => exact h.receiveWith t _
  | inject a m =>
      simp only [Henret.step]
      repeat' split
      all_goals first
        | exact hstay
        | exact h.deliver a _ _
  | sleep t deadline =>
      simp only [Henret.step]
      split
      · rename_i hrun
        split
        · have hedge : Phase.Edge (p t) .sleeping := by
            rw [h.phase_running hrun]
            exact .sleep
          exact ⟨_, h.sleep hrun deadline, Advances.move hedge (by simp)⟩
        · exact hstay
      · exact hstay
  | tick now =>
      simp only [Henret.step]
      split
      · exact ⟨_, h.tick now, h.tick_advances now⟩
      · exact hstay
  | spawnChild t a =>
      have hspawn := h.spawnFresh a
      simp only [Henret.step]
      repeat' split
      all_goals first
        | exact hstay
        | exact ⟨_, hspawn.congr (fun x ↦ by cases x <;> rfl) rfl rfl rfl, h.spawnFresh_advances⟩
  | restartOne parent failedChild actor =>
      have hspawn := h.spawnFresh actor
      simp only [Henret.step]
      repeat' split
      all_goals first
        | exact hstay
        | exact ⟨_, hspawn.congr (fun x ↦ by cases x <;> rfl) rfl rfl rfl, h.spawnFresh_advances⟩
  | wake t =>
      simp only [Henret.step]
      split
      · rename_i hst
        have hedge : Phase.Edge (p t) .queued := by
          rw [(Phase.shows_sleeping_iff (h.shows_phase t)).mp hst]
          exact .wakeSleeping
        exact ⟨_, h.wake hst, Advances.move hedge (by simp)⟩
      · exact hstay
  | cancelTree root =>
      refine ⟨_, h.cancelTree root, (Advances.dismiss fun t ht hfresh ↦ ?_).congr_finishes
        (by simp [Retires])⟩
      have hmem := List.mem_filter.mp (of_decide_eq_true ht)
      have hnone := (Phase.shows_none_iff (h.shows_phase t)).mpr hfresh
      simp [hnone] at hmem
  | receiveUntil t deadline =>
      simp only [Henret.step]
      split
      · rename_i hrun
        have hp := h.phase_running hrun
        split
        · split
          · rename_i a howner
            split
            · split
              · exact hframe _ (fun x ↦ by cases x <;> rfl) rfl rfl rfl
              · split
                · exact hstay
                · have hedge : Phase.Edge (p t) (.timed a) := by
                    rw [hp]
                    exact .parkUntil a
                  exact ⟨_, h.parkUntil hrun deadline, Advances.move hedge (by simp)⟩
            · exact hstay
          · exact hstay
        · exact hstay
      · exact hstay
  | shutdown => exact hframe _ (fun x ↦ by cases x <;> rfl) rfl rfl rfl
  | _ =>
      simp only [Henret.step]
      repeat' split
      all_goals first
        | exact hstay
        | exact hframe _ (fun x ↦ by cases x <;> rfl) rfl rfl rfl

theorem located_run (h : Located s p) (ops : List RuntimeOp) : ∃ p', Located (run s ops) p' := by
  induction ops generalizing s p with
  | nil => exact ⟨p, h⟩
  | cons op ops ih =>
      obtain ⟨p', h', -⟩ := h.step op
      exact ih h'

end Located

/-- Every reachable state is located. -/
theorem reachable_located (ops : List RuntimeOp) :
    ∃ p, Located (run RuntimeState.init ops) p := by
  refine run_preserves (P := fun s ↦ ∃ p, Located s p) ?_ _ ops ⟨_, located_init⟩
  rintro s op ⟨p, h⟩
  obtain ⟨p', h', -⟩ := h.step op
  exact ⟨p', h'⟩

end Henret
