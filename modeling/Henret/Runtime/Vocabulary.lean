import Mathlib

/-!
# The vocabulary of the runtime model

Identifiers, task lifecycle states, mailboxes, logical timers, scheduling
metadata, the resource ledger and the operation grammar.  Identifiers are
plain naturals, drawn from fresh counters of the runtime state.
-/

namespace Henret

abbrev TaskId := ℕ
abbrev ActorId := ℕ
abbrev MessageId := ℕ
abbrev ResourceId := ℕ

/-- Update a per-id map at one key; every map of the model is written through it. -/
def upd {α : Type} (f : ℕ → α) (i : ℕ) (v : α) : ℕ → α :=
  fun j ↦ if j = i then v else f j

@[simp] theorem upd_self {α : Type} (f : ℕ → α) (i : ℕ) (v : α) : upd f i v i = v := by
  simp [upd]

theorem upd_ne {α : Type} (f : ℕ → α) {i j : ℕ} (v : α) (h : j ≠ i) :
    upd f i v j = f j := by
  simp [upd, h]

/-! ## Tasks -/

inductive TaskState where
  | new
  | ready
  | running
  | yielded
  | sleeping
  | completed
  | cancelled
  | waiting
  | waitingTimed
  | failed
deriving Repr, DecidableEq, Inhabited

namespace TaskState

/-- Terminal states never transition again. -/
def isTerminal : TaskState → Bool
  | .completed => true
  | .cancelled => true
  | .failed => true
  | _ => false

/-- States from which `schedule` may select a queued task. -/
def isRunnable : TaskState → Bool
  | .new | .ready | .yielded => true
  | _ => false

end TaskState

/-- Lifecycle state per task id; `none` means the id was never spawned. -/
abbrev TaskMap := TaskId → Option TaskState

/-- Optional scheduling metadata of a task: higher priority wins, a smaller
deadline is more urgent, a missing deadline is the least urgent. -/
structure TaskMeta where
  priority : ℕ := 0
  deadline : Option ℕ := none
deriving DecidableEq, Repr, Inhabited

def defaultMeta : TaskMeta := { priority := 0, deadline := none }

/-! ## Messages and mailboxes -/

structure Message where
  id : ℕ
  payload : ℕ
deriving Repr, DecidableEq, Inhabited

/-- A delivered message, stamped with its occurrence id and the sending actor
(`none` for a message injected by the environment). -/
structure Envelope where
  occurrence : MessageId
  source : Option ActorId
  body : Message
deriving Repr, DecidableEq, Inhabited

structure Mailbox where
  messages : List Envelope
deriving Repr, DecidableEq, Inhabited

namespace Mailbox

def empty : Mailbox := ⟨[]⟩

def enqueue (mb : Mailbox) (e : Envelope) : Mailbox :=
  ⟨mb.messages ++ [e]⟩

def dequeue (mb : Mailbox) : Option (Envelope × Mailbox) :=
  match mb.messages with
  | [] => none
  | e :: es => some (e, ⟨es⟩)

/-- Remove the first envelope satisfying `p`, keeping the order of the others. -/
def listDequeueFirst (p : Envelope → Bool) :
    List Envelope → Option (Envelope × List Envelope)
  | [] => none
  | e :: es =>
      if p e then some (e, es)
      else
        match listDequeueFirst p es with
        | none => none
        | some (e', es') => some (e', e :: es')

def dequeueFirst (p : Envelope → Bool) (mb : Mailbox) : Option (Envelope × Mailbox) :=
  match listDequeueFirst p mb.messages with
  | none => none
  | some (e, es) => some (e, ⟨es⟩)

end Mailbox

/-- Mailbox capacity of an actor; `none` is unbounded. -/
structure MailboxPolicy where
  capacity : Option ℕ
deriving Repr, DecidableEq, Inhabited

def MailboxPolicy.unbounded : MailboxPolicy := { capacity := none }

/-- Mailbox per actor id; `none` means the actor does not exist. -/
abbrev ActorMap := ActorId → Option Mailbox

/-! ## Logical timers -/

structure TimerEntry where
  deadline : ℕ
  task : TaskId
deriving Repr, DecidableEq, Inhabited

namespace Timer

/-- Insert keeping the queue sorted by deadline. -/
def insertSorted (e : TimerEntry) : List TimerEntry → List TimerEntry
  | [] => [e]
  | x :: xs =>
      if e.deadline ≤ x.deadline then e :: x :: xs else x :: insertSorted e xs

def expired (l : List TimerEntry) (now : ℕ) : List TimerEntry :=
  l.filter (fun e ↦ e.deadline ≤ now)

def remaining (l : List TimerEntry) (now : ℕ) : List TimerEntry :=
  l.filter (fun e ↦ now < e.deadline)

theorem insertSorted_perm (e : TimerEntry) (l : List TimerEntry) :
    (insertSorted e l).Perm (e :: l) := by
  induction l with
  | nil => exact List.Perm.refl _
  | cons x xs ih =>
      by_cases h : e.deadline ≤ x.deadline
      · simp [insertSorted, h]
      · simp only [insertSorted, h, if_false]
        exact (ih.cons x).trans (List.Perm.swap e x xs)

end Timer

/-! ## The resource ledger -/

/-- `allocated` is live, `closing` awaits finalization, `released` is terminal. -/
inductive ResourceState where
  | allocated
  | closing
  | released
deriving Repr, DecidableEq, Inhabited

inductive ResourceOwner where
  | task : TaskId → ResourceOwner
  | actor : ActorId → ResourceOwner
deriving Repr, DecidableEq, Inhabited

structure ResourceRecord where
  owner : ResourceOwner
  state : ResourceState
deriving Repr, DecidableEq, Inhabited

/-- Mark every `allocated` resource whose owner satisfies `p` as `closing`. -/
def markClosingIfOwner (p : ResourceOwner → Bool)
    (resources : ResourceId → Option ResourceRecord) :
    ResourceId → Option ResourceRecord :=
  fun r ↦
    match resources r with
    | some ⟨o, .allocated⟩ => if p o then some ⟨o, .closing⟩ else some ⟨o, .allocated⟩
    | other => other

/-- A terminating task closes its task-owned `allocated` resources. -/
def markClosingIf (p : TaskId → Bool)
    (resources : ResourceId → Option ResourceRecord) :
    ResourceId → Option ResourceRecord :=
  markClosingIfOwner (fun o ↦ match o with | .task t => p t | .actor _ => false) resources

/-- `closeActor a` closes the `allocated` resources owned by actor `a`. -/
def markActorResourcesClosing (a : ActorId)
    (resources : ResourceId → Option ResourceRecord) :
    ResourceId → Option ResourceRecord :=
  markClosingIfOwner (fun o ↦ o == .actor a) resources

/-! ## Operations and results -/

inductive RuntimeOp where
  | spawn (a : ActorId)
  | schedule
  | yield (t : TaskId)
  | complete (t : TaskId)
  | cancel (t : TaskId)
  | send (t : TaskId) (b : ActorId) (m : Message)
  | receive (t : TaskId)
  | inject (a : ActorId) (m : Message)
  | sleep (t : TaskId) (deadline : ℕ)
  | tick (now : ℕ)
  | wake (t : TaskId)
  | spawnChild (t : TaskId) (a : ActorId)
  | cancelTree (root : TaskId)
  | receiveUntil (t : TaskId) (deadline : ℕ)
  | receiveByOccurrence (t : TaskId) (occ : MessageId)
  | receiveFrom (t : TaskId) (src : ActorId)
  | fail (t : TaskId)
  | restartOne (parent : TaskId) (failedChild : TaskId) (actor : ActorId)
  | closeActor (a : ActorId)
  | shutdown
  | stopWhenIdle
  | stopWhenDrained
  | acquire (t : TaskId)
  | acquireActor (a : ActorId)
  | releaseActor (a : ActorId) (r : ResourceId)
  | release (t : TaskId) (r : ResourceId)
  | finalize (r : ResourceId)
  | setPriority (t : TaskId) (p : ℕ)
  | setDeadline (t : TaskId) (d : ℕ)
deriving Repr, DecidableEq

/-- Result of one operation.  `invalid` and `backpressured` leave the state
unchanged; `blocked` means the task was parked. -/
inductive StepResult where
  | ok
  | spawned (t : TaskId)
  | scheduled (t : TaskId)
  | received (e : Envelope)
  | blocked
  | timedOut
  | woke (ts : List TaskId)
  | backpressured
  | acquired (r : ResourceId)
  | invalid
deriving Repr, DecidableEq

end Henret
