import Henret.Bridge.Grammar
import Henret.Lib.Runs

/-!
# Worker queues

The bridge relates the ready queue to worker queues that the translated queue
operations drive.  With one worker the queues follow every run exactly.  With
several workers, between which steals move tasks, the translation still
addresses worker 0 only: the relation survives a run exactly when each
dispatched task heads worker 0's queue and each withdrawn task is on no other
worker.
-/

namespace Henret.Bridge

open Occupancy Runs

abbrev WorkerQueues := WorkerIdx → List TaskId

def WorkerQueues.init : WorkerQueues := fun _ ↦ []

/-- `steal` and `wake` do nothing in the single-worker bridge. -/
def applyQOp (wqs : WorkerQueues) : QOp → WorkerQueues
  | .push w t => upd wqs w (wqs w ++ [t])
  | .pop w => upd wqs w (wqs w).tail
  | .filter w t => upd wqs w ((wqs w).filter fun u ↦ u ≠ t)
  | .steal _ _ => wqs
  | .wake _ => wqs
  | .inject t => upd wqs 0 (wqs 0 ++ [t])

def applyQOps (wqs : WorkerQueues) : List QOp → WorkerQueues
  | [] => wqs
  | op :: ops => applyQOps (applyQOp wqs op) ops

/-- With several workers `steal` moves the head of `src` to the tail of `dst`. -/
def applyMQOp (wqs : WorkerQueues) : QOp → WorkerQueues
  | .push w t => upd wqs w (wqs w ++ [t])
  | .pop w => upd wqs w (wqs w).tail
  | .filter w t => upd wqs w ((wqs w).filter fun u ↦ u ≠ t)
  | .steal src dst =>
      match wqs src with
      | [] => wqs
      | t :: ts => fun w ↦ if w = src then ts else if w = dst then wqs dst ++ [t] else wqs w
  | .wake t => upd wqs 0 (wqs 0 ++ [t])
  | .inject t => upd wqs 0 (wqs 0 ++ [t])

def applyMQOps (wqs : WorkerQueues) : List QOp → WorkerQueues
  | [] => wqs
  | op :: ops => applyMQOps (applyMQOp wqs op) ops

theorem upd_upd {α : Type} (f : ℕ → α) (i : ℕ) (v w : α) : upd (upd f i v) i w = upd f i w := by
  funext j
  by_cases h : j = i <;> simp [upd, h]

theorem upd_eq_self {α : Type} (f : ℕ → α) (i : ℕ) : upd f i (f i) = f := by
  funext j
  by_cases h : j = i <;> simp [upd, h]

theorem applyMQOps_push (wqs : WorkerQueues) (ts : List TaskId) :
    applyMQOps wqs (ts.map (.push 0)) = upd wqs 0 (wqs 0 ++ ts) := by
  induction ts generalizing wqs with
  | nil => simp [applyMQOps, upd_eq_self]
  | cons t ts ih => simp [applyMQOps, applyMQOp, ih, upd_upd]

theorem applyMQOps_filter (wqs : WorkerQueues) (ts : List TaskId) :
    applyMQOps wqs (ts.map (.filter 0)) = upd wqs 0 ((wqs 0).filter fun t ↦ t ∉ ts) := by
  induction ts generalizing wqs with
  | nil => simp [applyMQOps, upd_eq_self]
  | cons t ts ih =>
      rw [List.map_cons, applyMQOps, ih]
      simp only [applyMQOp, upd_self, upd_upd, List.filter_filter]
      congr 1
      apply List.filter_congr
      intro u _
      by_cases hut : u = t <;> simp [hut]

/-! ## One worker -/

/-- The two readings of the queue operations agree on what `toQOps` emits. -/
theorem QueueStep.applyQOps_eq {q q' : List TaskId} {ops : List QOp} (h : QueueStep q q' ops)
    (wqs : WorkerQueues) : applyQOps wqs ops = applyMQOps wqs ops := by
  have hmap : ∀ (f : TaskId → QOp), (∀ wqs t, applyQOp wqs (f t) = applyMQOp wqs (f t)) →
      ∀ (ts : List TaskId) (wqs : WorkerQueues),
        applyQOps wqs (ts.map f) = applyMQOps wqs (ts.map f) := by
    intro f hf ts
    induction ts with
    | nil => exact fun wqs ↦ rfl
    | cons t ts ih =>
        intro wqs
        rw [List.map_cons, applyQOps, applyMQOps, hf, ih]
  cases h with
  | push ts => exact hmap _ (fun _ _ ↦ rfl) ts wqs
  | pop t ts hq => rfl
  | filter ts => exact hmap _ (fun _ _ ↦ rfl) ts wqs

structure BridgeState (s : RuntimeState) (wqs : WorkerQueues) : Prop where
  queue_eq : s.readyQ = wqs 0
  other_empty : ∀ w, w ≠ 0 → wqs w = []

theorem bridgeState_init : BridgeState RuntimeState.init WorkerQueues.init :=
  ⟨rfl, fun _ _ ↦ rfl⟩

/-- Every operation keeps the single-worker bridge. -/
theorem bridge_step_single_worker {s : RuntimeState} {wqs : WorkerQueues}
    (h : BridgeState s wqs) (op : RuntimeOp) :
    BridgeState (step s op).1 (applyQOps wqs (toQOps s op)) := by
  have hstep := step_queue s op
  have hkeep : ∀ q, q = (step s op).1.readyQ →
      applyMQOps wqs (toQOps s op) = upd wqs 0 q →
      BridgeState (step s op).1 (applyQOps wqs (toQOps s op)) := by
    intro q hq happly
    rw [hstep.applyQOps_eq, happly]
    refine ⟨by rw [upd_self, hq], fun w hw ↦ ?_⟩
    rw [upd_ne _ _ hw]
    exact h.other_empty w hw
  generalize (step s op).1.readyQ = q', toQOps s op = ops at hstep hkeep
  cases hstep with
  | push ts => exact hkeep _ (by rw [h.queue_eq]) (applyMQOps_push wqs ts)
  | pop t ts hq => exact hkeep _ (by rw [← h.queue_eq, hq, List.tail_cons]) rfl
  | filter ts => exact hkeep _ (by rw [h.queue_eq]) (applyMQOps_filter wqs ts)

/-- The queue operations that a whole run drives. -/
def toQOpsTrace (s : RuntimeState) : List RuntimeOp → List QOp
  | [] => []
  | op :: ops => toQOps s op ++ toQOpsTrace (step s op).1 ops

theorem applyQOps_append (wqs : WorkerQueues) (ops₁ ops₂ : List QOp) :
    applyQOps wqs (ops₁ ++ ops₂) = applyQOps (applyQOps wqs ops₁) ops₂ := by
  induction ops₁ generalizing wqs with
  | nil => rfl
  | cons op ops ih => exact ih (applyQOp wqs op)

theorem bridge_run {s : RuntimeState} {wqs : WorkerQueues} (h : BridgeState s wqs)
    (ops : List RuntimeOp) : BridgeState (run s ops) (applyQOps wqs (toQOpsTrace s ops)) := by
  induction ops generalizing s wqs with
  | nil => exact h
  | cons op ops ih =>
      rw [toQOpsTrace, applyQOps_append]
      exact ih (bridge_step_single_worker h op)

/-- Worker 0's queue is the ready queue after every run. -/
theorem bridge_run_tracks_single_worker (ops : List RuntimeOp) :
    BridgeState (run RuntimeState.init ops)
      (applyQOps WorkerQueues.init (toQOpsTrace RuntimeState.init ops)) :=
  bridge_run bridgeState_init ops

/-! ## Several workers -/

structure MultiBridgeState (s : RuntimeState) (wqs : WorkerQueues) : Prop where
  sound : ∀ t w, t ∈ wqs w → t ∈ s.readyQ
  complete : ∀ t, t ∈ s.readyQ → ∃ w, t ∈ wqs w
  worker_nodup : ∀ w, (wqs w).Nodup
  global_unique : ∀ t w₁ w₂, t ∈ wqs w₁ → t ∈ wqs w₂ → w₁ = w₂

/-- The worker queues track a placement of exactly the tasks of `q` on workers. -/
structure Placed (q : List TaskId) (wqs : WorkerQueues) (place : TaskId → Option WorkerIdx) :
    Prop where
  tracks : Tracks (fun o w ↦ o = some w) wqs place
  ready_iff : ∀ t, t ∈ q ↔ place t ≠ none

theorem multiBridgeState_iff {s : RuntimeState} {wqs : WorkerQueues} :
    MultiBridgeState s wqs ↔ ∃ place, Placed s.readyQ wqs place := by
  classical
  constructor
  · intro h
    refine ⟨fun t ↦ if hw : ∃ w, t ∈ wqs w then some hw.choose else none, ⟨h.worker_nodup, ?_⟩, ?_⟩
    · intro w t
      constructor
      · intro ht
        have hw : ∃ w, t ∈ wqs w := ⟨w, ht⟩
        rw [dif_pos hw, h.global_unique t _ _ hw.choose_spec ht]
      · intro ht
        by_cases hw : ∃ w, t ∈ wqs w
        · rw [dif_pos hw, Option.some.injEq] at ht
          exact ht ▸ hw.choose_spec
        · simp [hw] at ht
    · intro t
      have hiff : t ∈ s.readyQ ↔ ∃ w, t ∈ wqs w := ⟨h.complete t, fun ⟨w, hw⟩ ↦ h.sound t w hw⟩
      by_cases hw : ∃ w, t ∈ wqs w <;> simp [hiff, hw]
  · rintro ⟨place, htracks, hready⟩
    refine ⟨fun t w ht ↦ ?_, fun t ht ↦ ?_, htracks.nodup, fun t w₁ w₂ h₁ h₂ ↦ ?_⟩
    · simp [hready, (htracks.mem_iff w t).mp ht]
    · obtain ⟨w, hw⟩ := Option.ne_none_iff_exists'.mp ((hready t).mp ht)
      exact ⟨w, (htracks.mem_iff w t).mpr hw⟩
    · have hsome := ((htracks.mem_iff w₁ t).mp h₁).symm.trans ((htracks.mem_iff w₂ t).mp h₂)
      exact Option.some.inj hsome

namespace Placed

variable {q q' : List TaskId} {wqs : WorkerQueues} {place : TaskId → Option WorkerIdx}

/-- An element that is not queued joins worker 0. -/
theorem push (h : Placed q wqs place) {t : TaskId} (ht : t ∉ q) :
    Placed (q ++ [t]) (upd wqs 0 (wqs 0 ++ [t])) (Function.update place t (some 0)) := by
  have hnone : place t = none := by
    by_contra hne
    exact ht ((h.ready_iff t).mpr hne)
  refine ⟨h.tracks.move t (some 0) (fun w hw ↦ ?_) (fun w hw _ ↦ ?_) (fun w _ hw ↦ ?_), fun u ↦ ?_⟩
  · have hw0 : w ≠ 0 := by
      rintro rfl
      simp [hnone] at hw
    rw [upd_ne _ _ hw0]
  · simp [hnone] at hw
  · obtain rfl : 0 = w := Option.some.inj hw
    rw [upd_self]
    exact List.perm_append_singleton t _
  · by_cases hut : u = t
    · simp [hut]
    · simp [hut, h.ready_iff]

theorem push_all (h : Placed q wqs place) (ts : List TaskId) (hnodup : (q ++ ts).Nodup) :
    ∃ place', Placed (q ++ ts) (upd wqs 0 (wqs 0 ++ ts)) place' := by
  induction ts generalizing q wqs place with
  | nil => exact ⟨place, by simpa [upd_eq_self] using h⟩
  | cons t ts ih =>
      have ht : t ∉ q := by
        intro hmem
        exact (List.nodup_append.mp hnodup).2.2 t hmem t (by simp) rfl
      obtain ⟨place', h'⟩ := ih (h.push ht) (by simpa using hnodup)
      exact ⟨place', by simpa [upd_upd] using h'⟩

/-- Popping worker 0 dispatches the head `t` exactly when `t` heads its queue. -/
theorem pop_iff {t : TaskId} {ts : List TaskId} (h : Placed (t :: ts) wqs place)
    (hnodup : (t :: ts).Nodup) :
    (∃ place', Placed ts (upd wqs 0 (wqs 0).tail) place') ↔ (wqs 0).head? = some t := by
  constructor
  · rintro ⟨place', h'⟩
    have hnone : place' t = none := by
      by_contra hne
      exact (List.nodup_cons.mp hnodup).1 ((h'.ready_iff t).mpr hne)
    have hgone : ∀ w, t ∉ upd wqs 0 (wqs 0).tail w := fun w ↦ h'.tracks.notMem (by simp [hnone])
    obtain ⟨w, hw⟩ := Option.ne_none_iff_exists'.mp ((h.ready_iff t).mp (by simp))
    have hmem : t ∈ wqs w := h.tracks.mem hw
    obtain rfl : w = 0 := by
      by_contra hw0
      exact hgone w (by rwa [upd_ne _ _ hw0])
    rcases hq : wqs 0 with _ | ⟨u, us⟩
    · simp [hq] at hmem
    · have hnot := hgone 0
      rw [upd_self, hq, List.tail_cons] at hnot
      rw [hq] at hmem
      rcases List.mem_cons.mp hmem with rfl | htail
      · rfl
      · exact absurd htail hnot
  · intro hhead
    obtain ⟨us, hq⟩ : ∃ us, wqs 0 = t :: us := by
      rcases hq : wqs 0 with _ | ⟨u, us⟩
      · simp [hq] at hhead
      · obtain rfl : u = t := by simpa [hq] using hhead
        exact ⟨us, rfl⟩
    have hplace : place t = some 0 := (h.tracks.mem_iff 0 t).mp (by simp [hq])
    refine ⟨Function.update place t none, h.tracks.move t none (fun w hw ↦ ?_) (fun w hw _ ↦ ?_)
      (fun w _ hw ↦ by simp at hw), fun u ↦ ?_⟩
    · have hw0 : w ≠ 0 := by
        rintro rfl
        simp [hplace] at hw
      rw [upd_ne _ _ hw0]
    · obtain rfl : 0 = w := Option.some.inj (hplace.symm.trans hw)
      have hnd : (t :: us).Nodup := hq ▸ h.tracks.nodup 0
      rw [upd_self, hq, filter_ne_head hnd, List.tail_cons]
    · by_cases hut : u = t
      · subst hut
        simpa using (List.nodup_cons.mp hnodup).1
      · simpa [hut] using h.ready_iff u

/-- Filtering worker 0 withdraws the tasks of `ts` exactly when no other worker
queues one of them. -/
theorem filter_iff (h : Placed q wqs place) (ts : List TaskId) :
    (∃ place', Placed (q.filter fun t ↦ t ∉ ts)
      (upd wqs 0 ((wqs 0).filter fun t ↦ t ∉ ts)) place') ↔
      ∀ t ∈ ts, ∀ w, w ≠ 0 → t ∉ wqs w := by
  constructor
  · rintro ⟨place', h'⟩ t ht w hw hmem
    have hmem' : t ∈ upd wqs 0 ((wqs 0).filter fun t ↦ t ∉ ts) w := by rwa [upd_ne _ _ hw]
    have hplace := (h'.tracks.mem_iff w t).mp hmem'
    have hready := (h'.ready_iff t).mpr (by simp [hplace])
    simp [ht] at hready
  · intro hother
    refine ⟨fun t ↦ if t ∈ ts then none else place t,
      h.tracks.dismiss (fun t ↦ decide (t ∈ ts)) (fun w ↦ ?_) (fun t w ht ↦ ?_) (fun t ht ↦ ?_),
      fun t ↦ ?_⟩
    · by_cases hw : w = 0
      · subst hw
        rw [upd_self]
        exact List.filter_congr fun t _ ↦ by simp
      · rw [upd_ne _ _ hw, eq_comm, List.filter_eq_self]
        intro t hmem
        have hnot : t ∉ ts := fun ht ↦ hother t ht w hw hmem
        simpa using hnot
    · simp [of_decide_eq_true ht]
    · simp [of_decide_eq_false ht]
    · by_cases ht : t ∈ ts
      · simp [ht]
      · simp [ht, h.ready_iff]

theorem steal (h : Placed q wqs place) {src dst : WorkerIdx} (hne : src ≠ dst) :
    ∃ place', Placed q (applyMQOp wqs (.steal src dst)) place' := by
  rcases hq : wqs src with _ | ⟨t, ts⟩
  · exact ⟨place, by simpa [applyMQOp, hq] using h⟩
  · have hplace : place t = some src := (h.tracks.mem_iff src t).mp (by simp [hq])
    have hnd : (t :: ts).Nodup := hq ▸ h.tracks.nodup src
    refine ⟨Function.update place t (some dst), h.tracks.move t (some dst) (fun w hw ↦ ?_)
      (fun w hw _ ↦ ?_) (fun w hw hnew ↦ ?_), fun u ↦ ?_⟩
    · have hsrc : w ≠ src := by
        rintro rfl
        exact hne (by simpa [hplace, eq_comm] using hw)
      have hdst : w ≠ dst := by
        rintro rfl
        exact hne (by simpa [hplace] using hw)
      simp [applyMQOp, hq, hsrc, hdst]
    · obtain rfl : src = w := Option.some.inj (hplace.symm.trans hw)
      rw [hq, filter_ne_head hnd]
      simp [applyMQOp, hq]
    · obtain rfl : dst = w := Option.some.inj hnew
      simp [applyMQOp, hq, hne.symm]
    · by_cases hut : u = t
      · simp [hut, h.ready_iff, hplace]
      · simp [hut, h.ready_iff]

end Placed

/-- The queue operations `ops` find their tasks where the translation assumes
them: a dispatched task heads the popped queue, a withdrawn task is queued on
no other worker than the filtered one. -/
def InPlace (q : List TaskId) (wqs : WorkerQueues) (ops : List QOp) : Prop :=
  ∀ op ∈ ops,
    match op with
    | .pop w => (wqs w).head? = q.head?
    | .filter w t => ∀ w', w' ≠ w → t ∉ wqs w'
    | _ => True

/-- One translated operation keeps the placement exactly when it finds its tasks in place. -/
theorem QueueStep.placed_iff {q q' : List TaskId} {ops : List QOp} (h : QueueStep q q' ops)
    {wqs : WorkerQueues} (hplaced : ∃ place, Placed q wqs place) (hq : q.Nodup) (hq' : q'.Nodup) :
    (∃ place, Placed q' (applyMQOps wqs ops) place) ↔ InPlace q wqs ops := by
  obtain ⟨place, hp⟩ := hplaced
  cases h with
  | push ts =>
      rw [applyMQOps_push]
      exact iff_of_true (hp.push_all ts hq') (by simp [InPlace])
  | pop t ts heq =>
      subst heq
      simpa [InPlace, applyMQOps, applyMQOp] using hp.pop_iff hq
  | filter ts =>
      rw [applyMQOps_filter]
      simpa [InPlace] using hp.filter_iff ts

/-! ## Runs with steals -/

/-- An action of the runtime or a steal between distinct workers. -/
inductive Action where
  | op (op : RuntimeOp)
  | steal (src dst : WorkerIdx) (hne : src ≠ dst)

def actStep : RuntimeState × WorkerQueues → Action → RuntimeState × WorkerQueues
  | (s, wqs), .op o => ((step s o).1, applyMQOps wqs (toQOps s o))
  | (s, wqs), .steal src dst _ => (s, applyMQOp wqs (.steal src dst))

def Action.InPlace : RuntimeState × WorkerQueues → Action → Prop
  | (s, wqs), .op o => Bridge.InPlace s.readyQ wqs (toQOps s o)
  | _, .steal _ _ _ => True

def Tracked (x : RuntimeState × WorkerQueues) : Prop :=
  MultiBridgeState x.1 x.2

theorem tracked_step_iff (x : RuntimeState × WorkerQueues) (a : Action)
    (hloc : ∃ p, Located x.1 p) (hx : Tracked x) : Tracked (actStep x a) ↔ a.InPlace x := by
  obtain ⟨s, wqs⟩ := x
  obtain ⟨p, h⟩ := hloc
  unfold Tracked at hx ⊢
  rw [multiBridgeState_iff] at hx ⊢
  cases a with
  | op op =>
      obtain ⟨p', h', -⟩ := h.step op
      exact (step_queue s op).placed_iff hx h.readyQ_nodup h'.readyQ_nodup
  | steal src dst hne =>
      obtain ⟨place, hp⟩ := hx
      exact iff_of_true (hp.steal hne) trivial

theorem located_actStep (x : RuntimeState × WorkerQueues) (a : Action)
    (hloc : ∃ p, Located x.1 p) : ∃ p, Located (actStep x a).1 p := by
  obtain ⟨p, h⟩ := hloc
  cases a with
  | op op =>
      obtain ⟨p', h', -⟩ := h.step op
      exact ⟨p', h'⟩
  | steal src dst hne => exact ⟨p, h⟩

theorem tracked_init : Tracked (RuntimeState.init, WorkerQueues.init) := by
  refine ⟨fun t w h ↦ ?_, fun t h ↦ ?_, fun w ↦ List.nodup_nil, fun t w₁ w₂ h ↦ ?_⟩
  · simp [WorkerQueues.init] at h
  · simp [RuntimeState.init] at h
  · simp [WorkerQueues.init] at h

/-- With everything on worker 0 the translation finds every task in place. -/
theorem BridgeState.inPlace {s : RuntimeState} {wqs : WorkerQueues} (h : BridgeState s wqs)
    (op : RuntimeOp) : InPlace s.readyQ wqs (toQOps s op) := by
  have hstep := step_queue s op
  generalize (step s op).1.readyQ = q', toQOps s op = ops at hstep
  cases hstep with
  | push ts => simp [InPlace]
  | pop t ts hq => simp [InPlace, h.queue_eq]
  | filter ts =>
      intro op hop
      obtain ⟨t, -, rfl⟩ := List.mem_map.mp hop
      intro w hw
      simp [h.other_empty w hw]

theorem eachStep_inPlace {s : RuntimeState} {wqs : WorkerQueues} (h : BridgeState s wqs)
    (as : List Action) (hops : ∀ a ∈ as, ∃ op, a = .op op) :
    EachStep actStep (fun x a ↦ a.InPlace x) (s, wqs) as := by
  induction as generalizing s wqs with
  | nil => trivial
  | cons a as ih =>
      obtain ⟨op, rfl⟩ := hops a (by simp)
      have hnext := bridge_step_single_worker h op
      rw [(step_queue s op).applyQOps_eq] at hnext
      exact ⟨h.inPlace op, ih hnext fun b hb ↦ hops b (by simp [hb])⟩

/-- The multi-worker relation holds at every point of a run exactly when each
action finds its tasks in place; without steals it always does. -/
theorem multi_bridge_run_tracks (as : List Action) :
    (Throughout actStep Tracked (RuntimeState.init, WorkerQueues.init) as ↔
      EachStep actStep (fun x a ↦ a.InPlace x) (RuntimeState.init, WorkerQueues.init) as) ∧
      ((∀ a ∈ as, ∃ op, a = .op op) →
        Throughout actStep Tracked (RuntimeState.init, WorkerQueues.init) as) := by
  have hiff := throughout_iff_eachStep located_actStep tracked_step_iff
    (s := (RuntimeState.init, WorkerQueues.init)) ⟨_, located_init⟩ tracked_init as
  exact ⟨hiff, fun hops ↦ hiff.mpr (eachStep_inPlace bridgeState_init as hops)⟩

/-- A spawned task that a steal moved to worker 1 stays queued there after its dispatch. -/
def stolenDispatch : List Action :=
  [.op (.spawn 7), .steal 0 1 (by decide), .op .schedule]

theorem not_multi_bridge_run_tracks :
    ¬ ∀ as, Throughout actStep Tracked (RuntimeState.init, WorkerQueues.init) as := by
  intro h
  have hlast := throughout_iff_append.mp (h stolenDispatch) stolenDispatch [] (by simp)
  exact absurd (hlast.sound 0 1 (by decide)) (by decide)

/-- Task 1 is stolen by worker 1 and back by worker 0 before its dispatch. -/
def stolenAndBack : List Action :=
  [.op (.spawn 7), .op .schedule, .op (.spawn 8), .steal 0 1 (by decide), .op (.complete 0),
   .steal 1 0 (by decide), .op .schedule]

theorem multi_bridge_run_tracks_stolen :
    Throughout actStep Tracked (RuntimeState.init, WorkerQueues.init) stolenAndBack ∧
      Throughout actStep Tracked (RuntimeState.init, WorkerQueues.init)
        [.op (.spawn 7), .op .schedule] := by
  refine ⟨(multi_bridge_run_tracks stolenAndBack).1.mpr ?_,
    (multi_bridge_run_tracks [.op (.spawn 7), .op .schedule]).2 (by simp)⟩
  refine ⟨?_, ?_, ?_, trivial, ?_, trivial, ?_, trivial⟩
  all_goals
    intro op hop
    fin_cases hop <;> trivial

end Henret.Bridge
