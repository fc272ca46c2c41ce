import Henret.Runtime.Vocabulary

/-!
# The runtime state and its transition function

`step` gives every operation explicit pre- and post-behavior; an operation
whose guard fails returns the state unchanged with `StepResult.invalid`.
The parts that several operations of the source share word for word (creating
a mailbox, waking a waiter after a delivery, parking, terminating a task) are
definitions of their own.
-/

namespace Henret

inductive ActorStatus where
  | active
  | closed
deriving DecidableEq, Repr, Inhabited

inductive RuntimeStatus where
  | running
  | shuttingDown
  | stopped
deriving DecidableEq, Repr, Inhabited

/-- Complete state of the modeled runtime. -/
structure RuntimeState where
  taskState : TaskMap
  taskOwner : TaskId → Option ActorId
  readyQ : List TaskId
  running : Option TaskId
  timers : List TimerEntry
  mailboxes : ActorMap
  mailboxWaiters : ActorId → List TaskId
  timedMailboxWaiters : ActorId → List TaskId
  waitDeadline : TaskId → Option ℕ
  now : ℕ
  taskParent : TaskId → Option TaskId
  nextId : TaskId
  nextMsgId : MessageId
  restartOf : TaskId → Option TaskId
  actorStatus : ActorId → ActorStatus
  runtimeStatus : RuntimeStatus
  mailboxPolicy : ActorId → MailboxPolicy
  resources : ResourceId → Option ResourceRecord
  nextResourceId : ℕ
  taskMeta : TaskId → Option TaskMeta

namespace RuntimeState

def init : RuntimeState where
  taskState := fun _ ↦ none
  taskOwner := fun _ ↦ none
  readyQ := []
  running := none
  timers := []
  mailboxes := fun _ ↦ none
  mailboxWaiters := fun _ ↦ []
  timedMailboxWaiters := fun _ ↦ []
  waitDeadline := fun _ ↦ none
  taskParent := fun _ ↦ none
  now := 0
  nextId := 0
  nextMsgId := 0
  restartOf := fun _ ↦ none
  actorStatus := fun _ ↦ .active
  runtimeStatus := .running
  mailboxPolicy := fun _ ↦ .unbounded
  resources := fun _ ↦ none
  nextResourceId := 0
  taskMeta := fun _ ↦ none

/-- Every resource id below `nextResourceId` is `released` (or unrecorded). -/
def resourceDrained (s : RuntimeState) : Bool :=
  (List.range s.nextResourceId).all fun r ↦
    match s.resources r with
    | some rr => decide (rr.state = .released)
    | none => true

def mailboxFull (s : RuntimeState) (b : ActorId) (mb : Mailbox) : Bool :=
  match (s.mailboxPolicy b).capacity with
  | some n => decide (n ≤ mb.messages.length)
  | none => false

def ResourceReleased (s : RuntimeState) (r : ResourceId) : Prop :=
  ∃ rr, s.resources r = some rr ∧ rr.state = .released

end RuntimeState

/-- No task is running, the ready queue is empty and no timers are pending. -/
def RuntimeQuiescent (s : RuntimeState) : Prop :=
  s.running = none ∧ s.readyQ = [] ∧ s.timers = []

instance (s : RuntimeState) : Decidable (RuntimeQuiescent s) :=
  inferInstanceAs (Decidable (_ ∧ _ ∧ _))

/-! ## Waking expired timers -/

def wakeOne (ts : TaskMap) (t : TaskId) : TaskMap :=
  match ts t with
  | some .sleeping | some .waitingTimed => upd ts t (some .ready)
  | _ => ts

def wakeMany (ts : TaskMap) : List TaskId → TaskMap
  | [] => ts
  | t :: r => wakeMany (wakeOne ts t) r

/-- Expired tasks in timer order, the sleeping ones. -/
def wokenSleeping (s : RuntimeState) (now : ℕ) : List TaskId :=
  ((Timer.expired s.timers now).map TimerEntry.task).filter
    (fun u ↦ s.taskState u = some .sleeping)

/-- Expired tasks in timer order, the ones waiting with a deadline. -/
def wokenTimed (s : RuntimeState) (now : ℕ) : List TaskId :=
  ((Timer.expired s.timers now).map TimerEntry.task).filter
    (fun u ↦ s.taskState u = some .waitingTimed)

/-- The tasks that a tick to `now` wakes. -/
def woken (s : RuntimeState) (now : ℕ) : List TaskId :=
  wokenSleeping s now ++ wokenTimed s now

def wakeExpired (s : RuntimeState) (t : ℕ) : RuntimeState :=
  { s with
    taskState := wakeMany s.taskState (woken s t)
    readyQ := s.readyQ ++ woken s t
    timers := Timer.remaining s.timers t
    timedMailboxWaiters := fun a ↦ (s.timedMailboxWaiters a).filter (· ∉ wokenTimed s t)
    waitDeadline := fun u ↦ if u ∈ wokenTimed s t then none else s.waitDeadline u
    now := t }

/-! ## Cascade cancellation -/

/-- Is `t` equal to `root` or a descendant of it?  A recorded parent that is
not strictly smaller ends the walk. -/
def isInSubtreeOf (s : RuntimeState) (root : TaskId) (t : TaskId) : Bool :=
  if t = root then true
  else
    match s.taskParent t with
    | none => false
    | some p => if _hp : p < t then isInSubtreeOf s root p else false
termination_by t
decreasing_by exact _hp

/-- Spawned tasks whose parent chain reaches `root`. -/
def descendantsOf (s : RuntimeState) (root : TaskId) : List TaskId :=
  (List.range s.nextId).filter (fun t ↦
    s.taskState t != none && isInSubtreeOf s root t)

def applyCancelTree (s : RuntimeState) (toCancel : List TaskId) : RuntimeState :=
  { s with
    taskState :=
      fun t ↦
        if t ∈ toCancel then
          match s.taskState t with
          | none => none
          | some st => if st.isTerminal then some st else some .cancelled
        else s.taskState t
    readyQ := s.readyQ.filter (· ∉ toCancel)
    running := if toCancel.any (fun t ↦ s.running = some t) then none else s.running
    timers := s.timers.filter (fun e ↦ e.task ∉ toCancel)
    mailboxWaiters := fun a ↦ (s.mailboxWaiters a).filter (· ∉ toCancel)
    timedMailboxWaiters := fun a ↦ (s.timedMailboxWaiters a).filter (· ∉ toCancel)
    waitDeadline := fun t ↦ if t ∈ toCancel then none else s.waitDeadline t
    resources := markClosingIf (· ∈ toCancel) s.resources }

/-! ## Shared parts of the operations -/

/-- The mailboxes after actor `a` is given an empty one if it has none. -/
def ensureMailbox (s : RuntimeState) (a : ActorId) : ActorMap :=
  match s.mailboxes a with
  | some _ => s.mailboxes
  | none => upd s.mailboxes a (some Mailbox.empty)

/-- A fresh task owned by `a` is recorded at `nextId` and queued. -/
def spawnFresh (s : RuntimeState) (a : ActorId) : RuntimeState :=
  { s with
    taskState := upd s.taskState s.nextId (some .new)
    taskOwner := upd s.taskOwner s.nextId (some a)
    readyQ := s.readyQ ++ [s.nextId]
    mailboxes := ensureMailbox s a
    nextId := s.nextId + 1 }

/-- Move task `t` from any non-terminal state to the terminal state `st`,
out of every queue; its allocated resources become `closing`. -/
def terminate (s : RuntimeState) (t : TaskId) (st : TaskState) : RuntimeState :=
  { s with
    taskState := upd s.taskState t (some st)
    readyQ := s.readyQ.filter (fun u ↦ u ≠ t)
    timers := s.timers.filter (fun e ↦ e.task ≠ t)
    running := if s.running = some t then none else s.running
    mailboxWaiters :=
      match s.taskOwner t with
      | some a => fun ac ↦
          if ac = a then (s.mailboxWaiters a).filter (· ≠ t) else s.mailboxWaiters ac
      | none => s.mailboxWaiters
    timedMailboxWaiters := fun ac ↦ (s.timedMailboxWaiters ac).filter (· ≠ t)
    waitDeadline := fun u ↦ if u = t then none else s.waitDeadline u
    resources := markClosingIf (· == t) s.resources }

/-- Enqueue a stamped envelope in mailbox `mb` of actor `b`, then wake the head
waiter of `b`: a regular waiter first, otherwise a timed one. -/
def deliver (s : RuntimeState) (b : ActorId) (mb : Mailbox) (env : Envelope) : RuntimeState :=
  let s' := { s with
    mailboxes := upd s.mailboxes b (some (mb.enqueue env))
    nextMsgId := s.nextMsgId + 1 }
  match s.mailboxWaiters b with
  | w :: ws =>
      { s' with
        taskState := upd s'.taskState w (some .ready)
        readyQ := s'.readyQ ++ [w]
        mailboxWaiters := fun ac ↦ if ac = b then ws else s'.mailboxWaiters ac
        timers := s'.timers.filter (fun e ↦ e.task ≠ w)
        waitDeadline := fun u ↦ if u = w then none else s'.waitDeadline u }
  | [] =>
      match s.timedMailboxWaiters b with
      | w :: ws =>
          { s' with
            taskState := upd s'.taskState w (some .ready)
            readyQ := s'.readyQ ++ [w]
            timedMailboxWaiters := fun ac ↦ if ac = b then ws else s'.timedMailboxWaiters ac
            timers := s'.timers.filter (fun e ↦ e.task ≠ w)
            waitDeadline := fun u ↦ if u = w then none else s'.waitDeadline u }
      | [] => s'

/-- The running task `t` parks on the mailbox of actor `a`. -/
def park (s : RuntimeState) (t : TaskId) (a : ActorId) : RuntimeState :=
  { s with
    taskState := upd s.taskState t (some .waiting)
    running := none
    mailboxWaiters := fun ac ↦
      if ac = a then s.mailboxWaiters a ++ [t] else s.mailboxWaiters ac }

/-- The running task `t` parks on the mailbox of actor `a` until `deadline`. -/
def parkUntil (s : RuntimeState) (t : TaskId) (a : ActorId) (deadline : ℕ) : RuntimeState :=
  { s with
    taskState := upd s.taskState t (some .waitingTimed)
    running := none
    timedMailboxWaiters := fun ac ↦
      if ac = a then s.timedMailboxWaiters a ++ [t] else s.timedMailboxWaiters ac
    timers := Timer.insertSorted ⟨deadline, t⟩ s.timers
    waitDeadline := upd s.waitDeadline t (some deadline) }

/-- The selective and plain receives differ only in how they dequeue. -/
def receiveWith (s : RuntimeState) (t : TaskId)
    (dequeue : Mailbox → Option (Envelope × Mailbox)) : RuntimeState × StepResult :=
  if s.running = some t then
    match s.taskState t with
    | some .running =>
        match s.taskOwner t with
        | some a =>
            match s.mailboxes a with
            | some mb =>
                match dequeue mb with
                | some (env, mb') =>
                    ({ s with mailboxes := upd s.mailboxes a (some mb') }, .received env)
                | none => (park s t a, .blocked)
            | none => (s, .invalid)
        | none => (s, .invalid)
    | _ => (s, .invalid)
  else (s, .invalid)

/-- One transition of the model. -/
def step (s : RuntimeState) : RuntimeOp → RuntimeState × StepResult
  | .spawn a =>
      if s.runtimeStatus = .running then
        match s.taskState s.nextId with
        | none => (spawnFresh s a, .spawned s.nextId)
        | some _ => (s, .invalid)
      else (s, .invalid)
  | .schedule =>
      match s.running, s.readyQ with
      | none, t :: q =>
          if (s.taskState t).any TaskState.isRunnable then
            ({ s with
                taskState := upd s.taskState t (some .running)
                readyQ := q
                running := some t }, .scheduled t)
          else (s, .invalid)
      | _, _ => (s, .invalid)
  | .yield t =>
      if s.running = some t then
        match s.taskState t with
        | some .running =>
            ({ s with
                taskState := upd s.taskState t (some .yielded)
                readyQ := s.readyQ ++ [t]
                running := none }, .ok)
        | _ => (s, .invalid)
      else (s, .invalid)
  | .complete t =>
      if s.running = some t then
        match s.taskState t with
        | some .running =>
            ({ s with
                taskState := upd s.taskState t (some .completed)
                running := none
                resources := markClosingIf (· == t) s.resources }, .ok)
        | _ => (s, .invalid)
      else (s, .invalid)
  | .cancel t =>
      match s.taskState t with
      | some st => if st.isTerminal then (s, .invalid) else (terminate s t .cancelled, .ok)
      | none => (s, .invalid)
  | .send t b m =>
      if s.actorStatus b = .closed then (s, .invalid)
      else if s.running = some t then
        match s.taskState t with
        | some .running =>
            match s.taskOwner t with
            | some _ =>
                match s.mailboxes b with
                | some mb =>
                    if s.mailboxFull b mb then (s, .backpressured)
                    else (deliver s b mb ⟨s.nextMsgId, s.taskOwner t, m⟩, .ok)
                | none => (s, .invalid)
            | none => (s, .invalid)
        | _ => (s, .invalid)
      else (s, .invalid)
  | .receive t => receiveWith s t Mailbox.dequeue
  | .inject a m =>
      if s.runtimeStatus ≠ .running ∨ s.actorStatus a = .closed then (s, .invalid)
      else
        match s.mailboxes a with
        | some mb =>
            if s.mailboxFull a mb then (s, .backpressured)
            else (deliver s a mb ⟨s.nextMsgId, none, m⟩, .ok)
        | none => (s, .invalid)
  | .sleep t deadline =>
      if s.running = some t then
        match s.taskState t with
        | some .running =>
            ({ s with
                taskState := upd s.taskState t (some .sleeping)
                running := none
                timers := Timer.insertSorted ⟨deadline, t⟩ s.timers }, .ok)
        | _ => (s, .invalid)
      else (s, .invalid)
  | .tick t =>
      if s.now ≤ t then (wakeExpired s t, .woke (woken s t)) else (s, .invalid)
  | .spawnChild t a =>
      if s.running = some t then
        match s.taskState t with
        | some .running =>
            match s.taskOwner t with
            | some _ =>
                match s.taskState s.nextId with
                | none =>
                    ({ spawnFresh s a with
                        taskParent := upd s.taskParent s.nextId (some t) }, .spawned s.nextId)
                | some _ => (s, .invalid)
            | none => (s, .invalid)
        | _ => (s, .invalid)
      else (s, .invalid)
  | .wake t =>
      match s.taskState t with
      | some .sleeping =>
          ({ s with
              taskState := upd s.taskState t (some .ready)
              readyQ := s.readyQ ++ [t]
              timers := s.timers.filter (fun e ↦ e.task ≠ t) }, .ok)
      | _ => (s, .invalid)
  | .cancelTree root => (applyCancelTree s (descendantsOf s root), .ok)
  | .receiveUntil t deadline =>
      if s.running = some t then
        match s.taskState t with
        | some .running =>
            match s.taskOwner t with
            | some a =>
                match s.mailboxes a with
                | some mb =>
                    match mb.dequeue with
                    | some (env, mb') =>
                        ({ s with mailboxes := upd s.mailboxes a (some mb') }, .received env)
                    | none =>
                        if deadline ≤ s.now then (s, .timedOut)
                        else (parkUntil s t a deadline, .blocked)
                | none => (s, .invalid)
            | none => (s, .invalid)
        | _ => (s, .invalid)
      else (s, .invalid)
  | .receiveByOccurrence t occ =>
      receiveWith s t (Mailbox.dequeueFirst (fun e ↦ e.occurrence = occ))
  | .receiveFrom t src =>
      receiveWith s t (Mailbox.dequeueFirst (fun e ↦ e.source = some src))
  | .fail t =>
      match s.taskState t with
      | some st => if st.isTerminal then (s, .invalid) else (terminate s t .failed, .ok)
      | none => (s, .invalid)
  | .restartOne parent failedChild actor =>
      if s.running = some parent then
        match s.taskState parent with
        | some .running =>
            if s.taskParent failedChild = some parent then
              match s.taskState failedChild with
              | some .failed =>
                  match s.taskState s.nextId with
                  | none =>
                      ({ spawnFresh s actor with
                          taskParent := upd s.taskParent s.nextId (some parent)
                          restartOf := upd s.restartOf s.nextId (some failedChild) },
                        .spawned s.nextId)
                  | some _ => (s, .invalid)
              | _ => (s, .invalid)
            else (s, .invalid)
        | _ => (s, .invalid)
      else (s, .invalid)
  | .closeActor a =>
      match s.mailboxes a with
      | some _ =>
          ({ s with
              actorStatus := upd s.actorStatus a .closed
              resources := markActorResourcesClosing a s.resources }, .ok)
      | none => (s, .invalid)
  | .shutdown => ({ s with runtimeStatus := .shuttingDown }, .ok)
  | .stopWhenIdle =>
      if s.running = none ∧ s.readyQ = [] ∧ s.timers = [] then
        ({ s with runtimeStatus := .stopped }, .ok)
      else (s, .invalid)
  | .stopWhenDrained =>
      if s.running = none ∧ s.readyQ = [] ∧ s.timers = [] ∧ s.resourceDrained = true then
        ({ s with runtimeStatus := .stopped }, .ok)
      else (s, .invalid)
  | .acquire t =>
      if s.running = some t then
        match s.taskState t with
        | some .running =>
            ({ s with
                resources := upd s.resources s.nextResourceId (some ⟨.task t, .allocated⟩)
                nextResourceId := s.nextResourceId + 1 }, .acquired s.nextResourceId)
        | _ => (s, .invalid)
      else (s, .invalid)
  | .acquireActor a =>
      if s.runtimeStatus = .running then
        if s.actorStatus a = .closed then (s, .invalid)
        else
          match s.mailboxes a with
          | some _ =>
              ({ s with
                  resources := upd s.resources s.nextResourceId (some ⟨.actor a, .allocated⟩)
                  nextResourceId := s.nextResourceId + 1 }, .acquired s.nextResourceId)
          | none => (s, .invalid)
      else (s, .invalid)
  | .releaseActor a r =>
      if s.runtimeStatus = .running then
        match s.resources r with
        | some ⟨.actor a', .allocated⟩ =>
            if a' = a then
              ({ s with resources := upd s.resources r (some ⟨.actor a, .released⟩) }, .ok)
            else (s, .invalid)
        | _ => (s, .invalid)
      else (s, .invalid)
  | .release t r =>
      if s.running = some t then
        match s.taskState t with
        | some .running =>
            match s.resources r with
            | some ⟨o, .allocated⟩ =>
                if o = .task t then
                  ({ s with resources := upd s.resources r (some ⟨o, .released⟩) }, .ok)
                else (s, .invalid)
            | _ => (s, .invalid)
        | _ => (s, .invalid)
      else (s, .invalid)
  | .finalize r =>
      match s.resources r with
      | some ⟨o, .closing⟩ =>
          ({ s with resources := upd s.resources r (some ⟨o, .released⟩) }, .ok)
      | _ => (s, .invalid)
  | .setPriority t p =>
      match s.taskState t with
      | some _ =>
          let m := (s.taskMeta t).getD defaultMeta
          ({ s with taskMeta := upd s.taskMeta t (some { m with priority := p }) }, .ok)
      | none => (s, .invalid)
  | .setDeadline t d =>
      match s.taskState t with
      | some _ =>
          let m := (s.taskMeta t).getD defaultMeta
          ({ s with taskMeta := upd s.taskMeta t (some { m with deadline := some d }) }, .ok)
      | none => (s, .invalid)

/-- Run a list of operations, ignoring results. -/
def run (s : RuntimeState) : List RuntimeOp → RuntimeState
  | [] => s
  | op :: ops => run (step s op).1 ops

/-- Run a list of operations, collecting every result. -/
def runTrace (s : RuntimeState) : List RuntimeOp → RuntimeState × List StepResult
  | [] => (s, [])
  | op :: ops =>
      let (s', r) := step s op
      let (s'', rs) := runTrace s' ops
      (s'', r :: rs)

@[simp] theorem run_nil (s : RuntimeState) : run s [] = s := rfl

@[simp] theorem run_cons (s : RuntimeState) (op : RuntimeOp) (ops : List RuntimeOp) :
    run s (op :: ops) = run (step s op).1 ops := rfl

theorem run_append (s : RuntimeState) (ops₁ ops₂ : List RuntimeOp) :
    run s (ops₁ ++ ops₂) = run (run s ops₁) ops₂ := by
  induction ops₁ generalizing s with
  | nil => rfl
  | cons op ops ih => exact ih (step s op).1

@[simp] theorem runTrace_fst (s : RuntimeState) (ops : List RuntimeOp) :
    (runTrace s ops).1 = run s ops := by
  induction ops generalizing s with
  | nil => rfl
  | cons op ops ih => exact ih (step s op).1

@[simp] theorem runTrace_nil_snd (s : RuntimeState) : (runTrace s []).2 = [] := rfl

@[simp] theorem runTrace_cons_snd (s : RuntimeState) (op : RuntimeOp) (ops : List RuntimeOp) :
    (runTrace s (op :: ops)).2 = (step s op).2 :: (runTrace (step s op).1 ops).2 := rfl

theorem runTrace_append_snd (s : RuntimeState) (ops₁ ops₂ : List RuntimeOp) :
    (runTrace s (ops₁ ++ ops₂)).2 =
      (runTrace s ops₁).2 ++ (runTrace (run s ops₁) ops₂).2 := by
  induction ops₁ generalizing s with
  | nil => rfl
  | cons op ops ih => simp [ih]

/-- What one step preserves, every run preserves. -/
theorem run_preserves {P : RuntimeState → Prop}
    (hstep : ∀ s op, P s → P (step s op).1) :
    ∀ (s : RuntimeState) (ops : List RuntimeOp), P s → P (run s ops)
  | _, [], h => h
  | s, op :: ops, h => run_preserves hstep (step s op).1 ops (hstep s op h)

end Henret
