import Henret.Runtime.Lifecycle

/-!
# The queue grammar of the bridge

`toQOps` translates an operation of the runtime to the queue operations it
drives on worker queues.  The translation knows worker 0 only: it pushes to,
pops from and filters that worker's queue.
-/

namespace Henret.Bridge

abbrev WorkerIdx := ℕ

inductive QOp where
  | push (worker : WorkerIdx) (task : TaskId)
  | pop (worker : WorkerIdx)
  | filter (worker : WorkerIdx) (task : TaskId)
  | steal (src dst : WorkerIdx)
  | wake (task : TaskId)
  | inject (task : TaskId)
deriving Repr, DecidableEq

/-- A delivery to `b` wakes its head waiter, a regular one first. -/
def wakeWaiter (s : RuntimeState) (b : ActorId) : List QOp :=
  match s.mailboxWaiters b with
  | w :: _ => [.push 0 w]
  | [] =>
      match s.timedMailboxWaiters b with
      | w :: _ => [.push 0 w]
      | [] => []

/-- `cancel` and `fail` take a non-terminal task out of the queue. -/
def filterLive (s : RuntimeState) (t : TaskId) : List QOp :=
  match s.taskState t with
  | some st => if st.isTerminal then [] else [.filter 0 t]
  | none => []

def toQOps (s : RuntimeState) : RuntimeOp → List QOp
  | .spawn _ =>
      if s.runtimeStatus = .running ∧ s.taskState s.nextId = none then [.push 0 s.nextId] else []
  | .spawnChild t _ =>
      if s.running = some t then
        match s.taskState t with
        | some .running =>
            match s.taskOwner t, s.taskState s.nextId with
            | some _, none => [.push 0 s.nextId]
            | _, _ => []
        | _ => []
      else []
  | .schedule =>
      match s.running, s.readyQ with
      | none, t :: _ => if (s.taskState t).any TaskState.isRunnable then [.pop 0] else []
      | _, _ => []
  | .yield t =>
      if s.running = some t then
        match s.taskState t with
        | some .running => [.push 0 t]
        | _ => []
      else []
  | .wake t =>
      match s.taskState t with
      | some .sleeping => [.push 0 t]
      | _ => []
  | .cancel t => filterLive s t
  | .send t b _ =>
      if s.actorStatus b = .closed then []
      else if s.running = some t then
        match s.taskState t with
        | some .running =>
            match s.taskOwner t, s.mailboxes b with
            | some _, some mb => if s.mailboxFull b mb then [] else wakeWaiter s b
            | _, _ => []
        | _ => []
      else []
  | .inject a _ =>
      if s.runtimeStatus ≠ .running ∨ s.actorStatus a = .closed then []
      else
        match s.mailboxes a with
        | some mb => if s.mailboxFull a mb then [] else wakeWaiter s a
        | none => []
  | .cancelTree root => (descendantsOf s root).map fun t ↦ .filter 0 t
  | .fail t => filterLive s t
  | .restartOne parent failedChild _ =>
      if s.running = some parent then
        match s.taskState parent with
        | some .running =>
            if s.taskParent failedChild = some parent then
              match s.taskState failedChild, s.taskState s.nextId with
              | some .failed, none => [.push 0 s.nextId]
              | _, _ => []
            else []
        | _ => []
      else []
  | .tick t => if s.now ≤ t then (woken s t).map fun u ↦ .push 0 u else []
  | .receive _ | .receiveUntil _ _ | .receiveByOccurrence _ _ | .receiveFrom _ _ => []
  | .sleep _ _ | .complete _ | .closeActor _ | .shutdown | .stopWhenIdle | .stopWhenDrained => []
  | .acquire _ | .acquireActor _ | .releaseActor _ _ | .release _ _ | .finalize _ => []
  | .setPriority _ _ | .setDeadline _ _ => []

/-! ## What the translation does to the ready queue -/

/-- The batches of queue operations that `toQOps` emits, with the effect of the
translated operation on the ready queue `q`. -/
inductive QueueStep (q : List TaskId) : List TaskId → List QOp → Prop where
  | push (ts : List TaskId) : QueueStep q (q ++ ts) (ts.map (QOp.push 0))
  | pop (t : TaskId) (ts : List TaskId) (hq : q = t :: ts) : QueueStep q ts [.pop 0]
  | filter (ts : List TaskId) :
      QueueStep q (q.filter fun t ↦ t ∉ ts) (ts.map (QOp.filter 0))

theorem QueueStep.keep (q : List TaskId) : QueueStep q q [] := by
  simpa using QueueStep.push (q := q) []

theorem QueueStep.push_one (q : List TaskId) (t : TaskId) :
    QueueStep q (q ++ [t]) [.push 0 t] :=
  .push [t]

theorem deliver_queue (s : RuntimeState) (b : ActorId) (mb : Mailbox) (env : Envelope) :
    QueueStep s.readyQ (deliver s b mb env).readyQ (wakeWaiter s b) := by
  unfold deliver wakeWaiter
  cases s.mailboxWaiters b with
  | cons w ws => exact QueueStep.push_one _ w
  | nil =>
      cases s.timedMailboxWaiters b with
      | cons w ws => exact QueueStep.push_one _ w
      | nil => exact QueueStep.keep _

theorem receiveWith_readyQ (s : RuntimeState) (t : TaskId)
    (dequeue : Mailbox → Option (Envelope × Mailbox)) :
    (receiveWith s t dequeue).1.readyQ = s.readyQ := by
  unfold receiveWith
  repeat' split
  all_goals rfl

theorem terminate_queue (s : RuntimeState) (t : TaskId) (st' : TaskState) :
    QueueStep s.readyQ
      (match s.taskState t with
        | some st => if st.isTerminal then (s, StepResult.invalid) else (terminate s t st', .ok)
        | none => (s, .invalid)).1.readyQ
      (filterLive s t) := by
  unfold filterLive
  cases s.taskState t with
  | none => exact QueueStep.keep _
  | some st =>
      cases hterm : st.isTerminal with
      | true => simpa [hterm] using QueueStep.keep s.readyQ
      | false => simpa [hterm, terminate] using QueueStep.filter (q := s.readyQ) [t]

/-- `toQOps` emits one batch, and the operation treats the ready queue the way
the batch treats a queue. -/
theorem step_queue (s : RuntimeState) (op : RuntimeOp) :
    QueueStep s.readyQ (step s op).1.readyQ (toQOps s op) := by
  cases op with
  | spawn a =>
      cases hst : s.taskState s.nextId with
      | none =>
          by_cases hrt : s.runtimeStatus = .running
          · simpa [step, toQOps, hrt, hst, spawnFresh] using QueueStep.push_one s.readyQ s.nextId
          · simpa [step, toQOps, hrt] using QueueStep.keep s.readyQ
      | some st => simpa [step, toQOps, hst] using QueueStep.keep s.readyQ
  | schedule =>
      rcases hrun : s.running with _ | t
      · rcases hready : s.readyQ with _ | ⟨t, q⟩
        · simpa [step, toQOps, hrun, hready] using QueueStep.keep []
        · by_cases hst : (s.taskState t).any TaskState.isRunnable
          · simpa [step, toQOps, hrun, hready, hst] using QueueStep.pop t q rfl
          · simpa [step, toQOps, hrun, hready, hst] using QueueStep.keep (t :: q)
      · simpa [step, toQOps, hrun] using QueueStep.keep s.readyQ
  | cancel t => exact terminate_queue s t .cancelled
  | fail t => exact terminate_queue s t .failed
  | tick now =>
      simp only [step, toQOps]
      split
      · exact QueueStep.push _
      · exact QueueStep.keep _
  | cancelTree root => exact QueueStep.filter _
  | receive t | receiveByOccurrence t occ | receiveFrom t src =>
      simpa [step, toQOps, receiveWith_readyQ] using QueueStep.keep s.readyQ
  | _ =>
      simp only [step, toQOps]
      repeat' split
      all_goals first
        | exact QueueStep.keep _
        | exact QueueStep.push_one _ _
        | exact deliver_queue _ _ _ _
        | simp_all

end Henret.Bridge
