import Henret.Lib.Occupancy
import Henret.Runtime.Model

/-!
# Where every task is

The abstract scheduler keeps one phase per task and knows nothing of queues.
A state is *located* when its ready queue, running slot, timers and waiter
lists track such phases and `taskState` shows them.  Every operation moves
each task along an edge of the lifecycle automaton or leaves it where it is.
-/

namespace Henret

open Occupancy

/-- The phase of a task in the abstract scheduler. -/
inductive Phase where
  | fresh
  | queued
  | running
  | sleeping
  | waiting (a : ActorId)
  | timed (a : ActorId)
  | finished
deriving DecidableEq

/-- The places of the runtime state that list tasks. -/
inductive Slot where
  | ready
  | running
  | timer
  | waiters (a : ActorId)
  | timedWaiters (a : ActorId)

namespace Phase

/-- The slots a phase occupies; a timed wait occupies two. -/
def Holds : Phase → Slot → Prop
  | .queued, .ready => True
  | .running, .running => True
  | .sleeping, .timer => True
  | .waiting a, .waiters b => b = a
  | .timed _, .timer => True
  | .timed a, .timedWaiters b => b = a
  | _, _ => False

/-- The lifecycle states that show a phase. -/
def Shows : Phase → Option TaskState → Prop
  | .fresh, st => st = none
  | .queued, st => st.any TaskState.isRunnable = true
  | .running, st => st = some .running
  | .sleeping, st => st = some .sleeping
  | .waiting _, st => st = some .waiting
  | .timed _, st => st = some .waitingTimed
  | .finished, st => st.any TaskState.isTerminal = true

/-- The lifecycle automaton. -/
inductive Edge : Phase → Phase → Prop where
  | spawn : Edge .fresh .queued
  | dispatch : Edge .queued .running
  | requeue : Edge .running .queued
  | sleep : Edge .running .sleeping
  | park (a : ActorId) : Edge .running (.waiting a)
  | parkUntil (a : ActorId) : Edge .running (.timed a)
  | wakeSleeping : Edge .sleeping .queued
  | wakeWaiting (a : ActorId) : Edge (.waiting a) .queued
  | wakeTimed (a : ActorId) : Edge (.timed a) .queued
  | finish {p : Phase} (hfresh : p ≠ .fresh) (hfinished : p ≠ .finished) : Edge p .finished

/-- A phase with an outgoing edge is not `finished`. -/
theorem Edge.source_ne_finished {p q : Phase} (h : Edge p q) : p ≠ .finished := by
  cases h with
  | finish _ hfinished => exact hfinished
  | _ => simp

theorem Edge.target_ne_fresh {p q : Phase} (h : Edge p q) : q ≠ .fresh := by
  cases h <;> simp

section Shows

variable {p : Phase} {st : Option TaskState}

theorem shows_none_iff (h : p.Shows st) : st = none ↔ p = .fresh := by
  cases p <;> cases st <;> simp_all [Shows]

theorem shows_running_iff (h : p.Shows st) : st = some .running ↔ p = .running := by
  rcases st with _ | st
  · cases p <;> simp_all [Shows]
  · cases p <;> cases st <;> simp_all [Shows, TaskState.isRunnable, TaskState.isTerminal]

theorem shows_sleeping_iff (h : p.Shows st) : st = some .sleeping ↔ p = .sleeping := by
  rcases st with _ | st
  · cases p <;> simp_all [Shows]
  · cases p <;> cases st <;> simp_all [Shows, TaskState.isRunnable, TaskState.isTerminal]

theorem shows_waitingTimed_iff (h : p.Shows st) :
    st = some .waitingTimed ↔ ∃ a, p = .timed a := by
  rcases st with _ | st
  · cases p <;> simp_all [Shows]
  · cases p <;> cases st <;> simp_all [Shows, TaskState.isRunnable, TaskState.isTerminal]

theorem shows_runnable_iff (h : p.Shows st) :
    st.any TaskState.isRunnable = true ↔ p = .queued := by
  rcases st with _ | st
  · cases p <;> simp_all [Shows]
  · cases p <;> cases st <;> simp_all [Shows, TaskState.isRunnable, TaskState.isTerminal]

theorem shows_terminal_iff (h : p.Shows st) :
    st.any TaskState.isTerminal = true ↔ p = .finished := by
  rcases st with _ | st
  · cases p <;> simp_all [Shows]
  · cases p <;> cases st <;> simp_all [Shows, TaskState.isRunnable, TaskState.isTerminal]

end Shows

end Phase

/-- The queue of each slot. -/
def queueOf (s : RuntimeState) : Slot → List TaskId
  | .ready => s.readyQ
  | .running => s.running.toList
  | .timer => s.timers.map TimerEntry.task
  | .waiters a => s.mailboxWaiters a
  | .timedWaiters a => s.timedMailboxWaiters a

/-- The queues of `s` track the phases `p`, and `taskState` shows them. -/
structure Located (s : RuntimeState) (p : TaskId → Phase) : Prop where
  tracks : Tracks Phase.Holds (queueOf s) p
  shows_phase : ∀ t, (p t).Shows (s.taskState t)
  waits_on_own : ∀ t a, p t = .waiting a → s.taskOwner t = some a
  fresh_above : ∀ t, s.nextId ≤ t → p t = .fresh

/-- Each task takes an edge of the lifecycle automaton or stays, and the
tasks in `K` are the ones that finish. -/
structure Advances (p p' : TaskId → Phase) (K : TaskId → Prop) : Prop where
  edge : ∀ t, p' t = p t ∨ Phase.Edge (p t) (p' t)
  finishes : ∀ t, p' t = .finished ↔ p t = .finished ∨ K t

theorem Advances.refl (p : TaskId → Phase) : Advances p p (fun _ ↦ False) where
  edge := fun _ ↦ Or.inl rfl
  finishes := fun t ↦ by simp

/-- One task takes an edge that does not finish it. -/
theorem Advances.move {p : TaskId → Phase} {t : TaskId} {b : Phase}
    (hedge : Phase.Edge (p t) b) (hb : b ≠ .finished) :
    Advances p (Function.update p t b) (fun _ ↦ False) := by
  constructor
  · intro u
    by_cases hu : u = t
    · subst hu
      exact Or.inr (by simpa using hedge)
    · exact Or.inl (Function.update_of_ne hu _ _)
  · intro u
    by_cases hu : u = t
    · subst hu
      simp [hb, hedge.source_ne_finished]
    · simp [Function.update_of_ne hu]

/-- One task finishes. -/
theorem Advances.finish {p : TaskId → Phase} {t : TaskId}
    (hfresh : p t ≠ .fresh) (hfinished : p t ≠ .finished) :
    Advances p (Function.update p t .finished) (fun u ↦ u = t) := by
  constructor
  · intro u
    by_cases hu : u = t
    · subst hu
      exact Or.inr (by simpa using Phase.Edge.finish hfresh hfinished)
    · exact Or.inl (Function.update_of_ne hu _ _)
  · intro u
    by_cases hu : u = t
    · subst hu
      simp
    · simp [hu]

/-- The tasks of `K` finish, whatever non-fresh phase they were in. -/
theorem Advances.dismiss {p : TaskId → Phase} {K : TaskId → Bool}
    (hspawned : ∀ t, K t = true → p t ≠ .fresh) :
    Advances p (fun t ↦ if K t then .finished else p t) (fun t ↦ K t = true) := by
  constructor
  · intro t
    by_cases hK : K t = true
    · by_cases hfin : p t = .finished
      · exact Or.inl (by simp [hK, hfin])
      · exact Or.inr (by simpa [hK] using Phase.Edge.finish (hspawned t hK) hfin)
    · exact Or.inl (by simp [hK])
  · intro t
    by_cases hK : K t = true <;> simp [hK]

theorem located_init : Located RuntimeState.init (fun _ ↦ .fresh) where
  tracks := by
    refine ⟨fun x ↦ ?_, fun x t ↦ ?_⟩ <;>
      cases x <;> simp [queueOf, RuntimeState.init, Phase.Holds]
  shows_phase := fun t ↦ rfl
  waits_on_own := fun t a h ↦ by cases h
  fresh_above := fun t _ ↦ rfl

namespace Located

variable {s s' : RuntimeState} {p : TaskId → Phase}

theorem fresh_nextId (h : Located s p) : p s.nextId = .fresh :=
  h.fresh_above s.nextId (Nat.le_refl _)

theorem phase_running (h : Located s p) {t : TaskId} (ht : s.running = some t) :
    p t = .running := by
  have hmem : t ∈ queueOf s .running := by simp [queueOf, ht]
  have hholds := (h.tracks.mem_iff _ _).mp hmem
  cases hp : p t <;> simp_all [Phase.Holds]

theorem phase_queued (h : Located s p) {t : TaskId} (ht : t ∈ s.readyQ) :
    p t = .queued := by
  have hholds := (h.tracks.mem_iff .ready t).mp ht
  cases hp : p t <;> simp_all [Phase.Holds]

theorem phase_waiting (h : Located s p) {t : TaskId} {a : ActorId}
    (ht : t ∈ s.mailboxWaiters a) : p t = .waiting a := by
  have hholds := (h.tracks.mem_iff (.waiters a) t).mp ht
  cases hp : p t <;> simp_all [Phase.Holds]

theorem phase_timed (h : Located s p) {t : TaskId} {a : ActorId}
    (ht : t ∈ s.timedMailboxWaiters a) : p t = .timed a := by
  have hholds := (h.tracks.mem_iff (.timedWaiters a) t).mp ht
  cases hp : p t <;> simp_all [Phase.Holds]

theorem readyQ_nodup (h : Located s p) : s.readyQ.Nodup :=
  h.tracks.nodup .ready

/-- Fields outside the scheduler do not matter. -/
theorem congr (h : Located s p) (hqueue : ∀ x, queueOf s' x = queueOf s x)
    (hstate : s'.taskState = s.taskState) (howner : s'.taskOwner = s.taskOwner)
    (hnext : s'.nextId = s.nextId) : Located s' p where
  tracks := by
    have hq : queueOf s' = queueOf s := funext hqueue
    rw [hq]
    exact h.tracks
  shows_phase := by
    rw [hstate]
    exact h.shows_phase
  waits_on_own := by
    rw [howner]
    exact h.waits_on_own
  fresh_above := by
    rw [hnext]
    exact h.fresh_above

end Located

end Henret
