import Henret.Lib.Runs
import Henret.Runtime.Messages

/-!
# The event ledger of a run

`traceEvents` describes what an operation does by a list of events, from the
state before it.  It repeats the guards of `step` except those of admission: a
closed actor, a full mailbox, a runtime that is shutting down or still holds
resources.  Where admission refuses nothing, the ledger of a run accounts for
its rejections and for its messages exactly.
-/

namespace Henret.Trace

open Mailroom Runs

inductive TraceEvent where
  | invalid (op : RuntimeOp)
  | spawned (t : TaskId) (a : ActorId)
  | spawnChild (parent child : TaskId) (a : ActorId)
  | scheduled (t : TaskId)
  | yielded (t : TaskId)
  | completed (t : TaskId)
  | cancelled (t : TaskId)
  | slept (t : TaskId) (deadline : ℕ)
  | timerWoke (now : ℕ) (t : TaskId)
  | directWoke (t : TaskId)
  | sent (sender : TaskId) (target : ActorId) (occurrence : MessageId)
  | injected (target : ActorId) (occurrence : MessageId)
  | received (t : TaskId) (actor : ActorId) (occurrence : MessageId)
  | parked (t : TaskId) (actor : ActorId)
  | waiterWoke (actor : ActorId) (t : TaskId)
  | failed (t : TaskId)
  | restarted (parent old new : TaskId) (actor : ActorId)
  | actorClosed (a : ActorId)
  | shutdownBegun
  | stoppedWhenIdle
  | noEffect (op : RuntimeOp) (result : StepResult)
deriving Repr, DecidableEq

/-- A delivery to `b`, and the waiter it wakes. -/
def deliveryEvents (s : RuntimeState) (b : ActorId) (base : TraceEvent) : List TraceEvent :=
  match s.mailboxWaiters b with
  | w :: _ => [base, .waiterWoke b w]
  | [] =>
      match s.timedMailboxWaiters b with
      | w :: _ => [base, .waiterWoke b w]
      | [] => [base]

/-- The receives differ in how they dequeue and in what they do when nothing
is there. -/
def receiveEvents (s : RuntimeState) (op : RuntimeOp) (t : TaskId)
    (dequeue : Mailbox → Option (Envelope × Mailbox))
    (blocked : ActorId → List TraceEvent) : List TraceEvent :=
  if s.running = some t then
    match s.taskState t, s.taskOwner t with
    | some .running, some a =>
        match s.mailboxes a with
        | some mb =>
            match dequeue mb with
            | some (env, _) => [.received t a env.occurrence]
            | none => blocked a
        | none => [.invalid op]
    | _, _ => [.invalid op]
  else [.invalid op]

/-- The events of one operation, from the state before it. -/
def traceEvents (s : RuntimeState) (op : RuntimeOp) : List TraceEvent :=
  match op with
  | .spawn a =>
      match s.taskState s.nextId with
      | none => [.spawned s.nextId a]
      | some _ => [.invalid op]
  | .spawnChild t a =>
      if s.running = some t then
        match s.taskState t, s.taskOwner t with
        | some .running, some _ =>
            match s.taskState s.nextId with
            | none => [.spawnChild t s.nextId a]
            | some _ => [.invalid op]
        | _, _ => [.invalid op]
      else [.invalid op]
  | .schedule =>
      match s.running, s.readyQ with
      | none, t :: _ =>
          if (s.taskState t).any TaskState.isRunnable then [.scheduled t] else [.invalid op]
      | _, _ => [.invalid op]
  | .yield t =>
      if s.running = some t then
        match s.taskState t with
        | some .running => [.yielded t]
        | _ => [.invalid op]
      else [.invalid op]
  | .complete t =>
      if s.running = some t then
        match s.taskState t with
        | some .running => [.completed t]
        | _ => [.invalid op]
      else [.invalid op]
  | .cancel t =>
      match s.taskState t with
      | some st => if st.isTerminal then [.invalid op] else [.cancelled t]
      | none => [.invalid op]
  | .cancelTree root => (descendantsOf s root).map fun t ↦ .cancelled t
  | .send t b _ =>
      if s.running = some t then
        match s.taskState t, s.taskOwner t, s.mailboxes b with
        | some .running, some _, some _ => deliveryEvents s b (.sent t b s.nextMsgId)
        | _, _, _ => [.invalid op]
      else [.invalid op]
  | .inject a _ =>
      match s.mailboxes a with
      | some _ => deliveryEvents s a (.injected a s.nextMsgId)
      | none => [.invalid op]
  | .receive t => receiveEvents s op t Mailbox.dequeue fun a ↦ [.parked t a]
  | .receiveUntil t d =>
      receiveEvents s op t Mailbox.dequeue fun a ↦
        if d ≤ s.now then [.noEffect op .timedOut] else [.parked t a]
  | .receiveByOccurrence t occ =>
      receiveEvents s op t (Mailbox.dequeueFirst (fun e ↦ e.occurrence = occ))
        fun a ↦ [.parked t a]
  | .receiveFrom t src =>
      receiveEvents s op t (Mailbox.dequeueFirst (fun e ↦ e.source = some src))
        fun a ↦ [.parked t a]
  | .sleep t d =>
      if s.running = some t then
        match s.taskState t with
        | some .running => [.slept t d]
        | _ => [.invalid op]
      else [.invalid op]
  | .tick t =>
      if s.now ≤ t then (woken s t).map fun u ↦ .timerWoke t u else [.invalid op]
  | .wake t =>
      match s.taskState t with
      | some .sleeping => [.directWoke t]
      | _ => [.invalid op]
  | .fail t =>
      match s.taskState t with
      | some st => if st.isTerminal then [.invalid op] else [.failed t]
      | none => [.invalid op]
  | .restartOne parent failedChild actor =>
      if s.running = some parent then
        match s.taskState parent with
        | some .running =>
            if s.taskParent failedChild = some parent then
              match s.taskState failedChild with
              | some .failed =>
                  match s.taskState s.nextId with
                  | none => [.restarted parent failedChild s.nextId actor]
                  | some _ => [.invalid op]
              | _ => [.invalid op]
            else [.invalid op]
        | _ => [.invalid op]
      else [.invalid op]
  | .closeActor a =>
      match s.mailboxes a with
      | some _ => [.actorClosed a]
      | none => [.invalid op]
  | .shutdown => [.shutdownBegun]
  | .stopWhenIdle =>
      if s.running = none ∧ s.readyQ = [] ∧ s.timers = [] then [.stoppedWhenIdle]
      else [.invalid op]
  | .stopWhenDrained =>
      if s.running = none ∧ s.readyQ = [] ∧ s.timers = [] then [.stoppedWhenIdle]
      else [.invalid op]
  | .acquire t =>
      if s.running = some t then
        match s.taskState t with
        | some .running => [.noEffect op (.acquired s.nextResourceId)]
        | _ => [.invalid op]
      else [.invalid op]
  | .acquireActor a =>
      if s.runtimeStatus = .running then
        if s.actorStatus a = .closed then [.invalid op]
        else
          match s.mailboxes a with
          | some _ => [.noEffect op (.acquired s.nextResourceId)]
          | none => [.invalid op]
      else [.invalid op]
  | .releaseActor a r =>
      if s.runtimeStatus = .running then
        match s.resources r with
        | some ⟨.actor a', .allocated⟩ => if a' = a then [.noEffect op .ok] else [.invalid op]
        | _ => [.invalid op]
      else [.invalid op]
  | .release t r =>
      if s.running = some t then
        match s.taskState t with
        | some .running =>
            match s.resources r with
            | some ⟨o, .allocated⟩ => if o = .task t then [.noEffect op .ok] else [.invalid op]
            | _ => [.invalid op]
        | _ => [.invalid op]
      else [.invalid op]
  | .finalize r =>
      match s.resources r with
      | some ⟨_, .closing⟩ => [.noEffect op .ok]
      | _ => [.invalid op]
  | .setPriority t _ =>
      match s.taskState t with
      | some _ => [.noEffect op .ok]
      | none => [.invalid op]
  | .setDeadline t _ =>
      match s.taskState t with
      | some _ => [.noEffect op .ok]
      | none => [.invalid op]

/-- One step with its events. -/
def stepTrace (s : RuntimeState) (op : RuntimeOp) :
    RuntimeState × StepResult × List TraceEvent :=
  let (s', r) := step s op
  (s', r, traceEvents s op)

/-- Run a list of operations, collecting results and events. -/
def runTraceLedger (s : RuntimeState) :
    List RuntimeOp → RuntimeState × List StepResult × List TraceEvent
  | [] => (s, [], [])
  | op :: ops =>
      let (s', r, evs) := stepTrace s op
      let (s'', rs, evs') := runTraceLedger s' ops
      (s'', r :: rs, evs ++ evs')

theorem runTraceLedger_eq (s : RuntimeState) (ops : List RuntimeOp) :
    (runTraceLedger s ops).1 = run s ops ∧
      (runTraceLedger s ops).2.1 = (runTrace s ops).2 := by
  induction ops generalizing s with
  | nil => exact ⟨rfl, rfl⟩
  | cons op ops ih =>
      obtain ⟨hstate, hresults⟩ := ih (step s op).1
      exact ⟨hstate, congrArg ((step s op).2 :: ·) hresults⟩

theorem runTraceLedger_events_cons (s : RuntimeState) (op : RuntimeOp) (ops : List RuntimeOp) :
    (runTraceLedger s (op :: ops)).2.2 =
      traceEvents s op ++ (runTraceLedger (step s op).1 ops).2.2 := rfl

/-! ## What the events account for -/

/-- The delivery an event reports. -/
def deliveryOf : TraceEvent → Option (ActorId × MessageId)
  | .sent _ b occ => some (b, occ)
  | .injected a occ => some (a, occ)
  | _ => none

/-- The receipt an event reports. -/
def receiptOf : TraceEvent → Option (ActorId × MessageId)
  | .received _ a occ => some (a, occ)
  | _ => none

def occurrenceOf (p : ActorId × Envelope) : ActorId × MessageId := (p.1, p.2.occurrence)

/-- The running task `t` can address the mailbox `mb` of `b`. -/
def Addresses (s : RuntimeState) (t : TaskId) (b : ActorId) (mb : Mailbox) : Prop :=
  s.running = some t ∧ s.taskState t = some .running ∧ (s.taskOwner t).isSome ∧
    s.mailboxes b = some mb

/-- The admission guards of `step` that `traceEvents` does not look at. -/
def Refused (s : RuntimeState) : RuntimeOp → Prop
  | .spawn _ => s.taskState s.nextId = none ∧ s.runtimeStatus ≠ .running
  | .send t b _ => ∃ mb, Addresses s t b mb ∧
      (s.actorStatus b = .closed ∨ s.mailboxFull b mb = true)
  | .inject a _ => ∃ mb, s.mailboxes a = some mb ∧
      ((s.runtimeStatus ≠ .running ∨ s.actorStatus a = .closed) ∨ s.mailboxFull a mb = true)
  | .stopWhenDrained => RuntimeQuiescent s ∧ s.resourceDrained = false
  | _ => False

/-- The events of one step report its rejection and its deliveries. -/
structure Accounts (s : RuntimeState) (op : RuntimeOp) : Prop where
  invalid : .invalid op ∈ traceEvents s op ↔ (step s op).2 = .invalid
  deliveries : (traceEvents s op).filterMap deliveryOf =
    ((mail s op).sent.map occurrenceOf).toList

/-! ## One step -/

section Step

variable {s : RuntimeState} {op : RuntimeOp} {t : TaskId} {a b : ActorId} {mb : Mailbox}
  {m : Message}

theorem deliveryEvents_deliveries (s : RuntimeState) (b : ActorId) {base : TraceEvent}
    {p : ActorId × MessageId} (hbase : deliveryOf base = some p) :
    (deliveryEvents s b base).filterMap deliveryOf = [p] := by
  have hwoke : ∀ w, deliveryOf (.waiterWoke b w) = none := fun _ ↦ rfl
  unfold deliveryEvents
  repeat' split
  all_goals simp [hbase, hwoke]

theorem invalid_notMem_deliveryEvents (s : RuntimeState) (b : ActorId) {base : TraceEvent}
    {p : ActorId × MessageId} (hbase : deliveryOf base = some p) :
    .invalid op ∉ deliveryEvents s b base := by
  have hne : TraceEvent.invalid op ≠ base := by
    rintro rfl
    simp [deliveryOf] at hbase
  unfold deliveryEvents
  repeat' split
  all_goals simp [hne]

theorem send_addresses (h : Addresses s t b mb) :
    traceEvents s (.send t b m) = deliveryEvents s b (.sent t b s.nextMsgId) ∧
      step s (.send t b m) =
        if s.actorStatus b = .closed then (s, .invalid)
        else if s.mailboxFull b mb then (s, .backpressured)
        else (deliver s b mb ⟨s.nextMsgId, s.taskOwner t, m⟩, .ok) := by
  obtain ⟨hrun, hst, ho, hb⟩ := h
  obtain ⟨o, ho⟩ := Option.isSome_iff_exists.mp ho
  constructor
  · simp [traceEvents, hrun, hst, ho, hb]
  · simp [step, hrun, hst, ho, hb]

theorem send_not_addresses (h : ∀ mb, ¬ Addresses s t b mb) :
    traceEvents s (.send t b m) = [.invalid (.send t b m)] ∧
      (step s (.send t b m)).2 = .invalid := by
  constructor
  · simp only [traceEvents]
    repeat' split
    all_goals first
      | rfl
      | exact absurd ⟨by assumption, by assumption, by simp [*], by assumption⟩ (h _)
  · simp only [step]
    repeat' split
    all_goals first
      | rfl
      | exact absurd ⟨by assumption, by assumption, by simp [*], by assumption⟩ (h _)

/-- Delivering events account for a step exactly when it delivers. -/
theorem accounts_of_delivery {base : TraceEvent} {env : Envelope}
    (hevents : traceEvents s op = deliveryEvents s b base)
    (hbase : deliveryOf base = some (b, env.occurrence))
    (hmail : mail s op = if (step s op).2 = .ok then .post b env else .idle) :
    Accounts s op ↔ (step s op).2 = .ok := by
  have hevent : .invalid op ∉ traceEvents s op :=
    hevents ▸ invalid_notMem_deliveryEvents s b hbase
  constructor
  · rintro ⟨hinvalid, hdeliveries⟩
    by_contra hok
    rw [hevents, deliveryEvents_deliveries s b hbase, hmail, if_neg hok] at hdeliveries
    simp [Move.sent] at hdeliveries
  · intro hok
    refine ⟨iff_of_false hevent (by simp [hok]), ?_⟩
    rw [hevents, deliveryEvents_deliveries s b hbase, hmail, if_pos hok]
    rfl

/-- Events that only reject account for a step that rejects. -/
theorem accounts_of_rejection (hevents : traceEvents s op = [.invalid op])
    (hstep : (step s op).2 = .invalid) (hmail : (mail s op).sent = none) : Accounts s op where
  invalid := by simp [hevents, hstep]
  deliveries := by
    rw [hevents, hmail]
    rfl

theorem send_accounts_iff : Accounts s (.send t b m) ↔ ¬ Refused s (.send t b m) := by
  by_cases h : ∃ mb, Addresses s t b mb
  · obtain ⟨mb, h⟩ := h
    obtain ⟨hevents, hstep⟩ := send_addresses (m := m) h
    have hrefused : Refused s (.send t b m) ↔
        s.actorStatus b = .closed ∨ s.mailboxFull b mb = true := by
      refine ⟨?_, fun hr ↦ ⟨mb, h, hr⟩⟩
      rintro ⟨mb', h', hr⟩
      obtain rfl : mb' = mb := Option.some.inj (h'.2.2.2.symm.trans h.2.2.2)
      exact hr
    have hmail : mail s (.send t b m) = if (step s (.send t b m)).2 = .ok then
        .post b ⟨s.nextMsgId, s.taskOwner t, m⟩ else .idle := rfl
    rw [accounts_of_delivery hevents rfl hmail, hrefused, hstep]
    split_ifs with hclosed hfull
    · simp [hclosed]
    · simp [hfull]
    · simp [hclosed, hfull]
  · rw [not_exists] at h
    obtain ⟨hevents, hstep⟩ := send_not_addresses (m := m) h
    refine iff_of_true (accounts_of_rejection hevents hstep ?_) ?_
    · simp [mail, hstep, Move.sent]
    · rintro ⟨mb, hmb, -⟩
      exact h mb hmb

theorem inject_accounts_iff : Accounts s (.inject a m) ↔ ¬ Refused s (.inject a m) := by
  cases ha : s.mailboxes a with
  | none =>
      have hstep : (step s (.inject a m)).2 = .invalid := by
        simp only [step, ha]
        split <;> rfl
      refine iff_of_true (accounts_of_rejection ?_ hstep ?_) ?_
      · simp [traceEvents, ha]
      · simp [mail, hstep, Move.sent]
      · simp [Refused, ha]
  | some mb =>
      have hevents : traceEvents s (.inject a m) =
          deliveryEvents s a (.injected a s.nextMsgId) := by
        simp [traceEvents, ha]
      have hstep : step s (.inject a m) =
          if s.runtimeStatus ≠ .running ∨ s.actorStatus a = .closed then (s, .invalid)
          else if s.mailboxFull a mb then (s, .backpressured)
          else (deliver s a mb ⟨s.nextMsgId, none, m⟩, .ok) := by
        simp [step, ha]
      have hrefused : Refused s (.inject a m) ↔
          (s.runtimeStatus ≠ .running ∨ s.actorStatus a = .closed) ∨
            s.mailboxFull a mb = true := by
        simp [Refused, ha]
      have hmail : mail s (.inject a m) = if (step s (.inject a m)).2 = .ok then
          .post a ⟨s.nextMsgId, none, m⟩ else .idle := rfl
      rw [accounts_of_delivery hevents rfl hmail, hrefused, hstep]
      split_ifs with hclosed hfull
      · simp [hclosed]
      · simp [hfull]
      · simp [hclosed, hfull]

theorem receiveEvents_deliveries {dequeue : Mailbox → Option (Envelope × Mailbox)}
    {blocked : ActorId → List TraceEvent}
    (hblocked : ∀ a, (blocked a).filterMap deliveryOf = []) :
    (receiveEvents s op t dequeue blocked).filterMap deliveryOf = [] := by
  unfold receiveEvents
  repeat' split
  all_goals first
    | rfl
    | exact hblocked _

theorem deliveries_of_not_posts (hop : Posts op = false) :
    (traceEvents s op).filterMap deliveryOf = [] := by
  cases op with
  | send t b m => simp [Posts] at hop
  | inject a m => simp [Posts] at hop
  | receive t => exact receiveEvents_deliveries fun _ ↦ rfl
  | receiveByOccurrence t occ => exact receiveEvents_deliveries fun _ ↦ rfl
  | receiveFrom t src => exact receiveEvents_deliveries fun _ ↦ rfl
  | receiveUntil t deadline =>
      apply receiveEvents_deliveries
      intro a
      split <;> rfl
  | cancelTree root => simp [traceEvents, List.filterMap_map, deliveryOf, Function.comp_def]
  | tick now =>
      simp only [traceEvents]
      split
      · simp [List.filterMap_map, deliveryOf, Function.comp_def]
      · rfl
  | shutdown => rfl
  | _ =>
      simp only [traceEvents]
      repeat' split
      all_goals rfl

theorem receiveEvents_invalid {dequeue : Mailbox → Option (Envelope × Mailbox)}
    {blocked : ActorId → List TraceEvent} (hblocked : ∀ a, .invalid op ∉ blocked a) :
    .invalid op ∈ receiveEvents s op t dequeue blocked ↔
      (receiveWith s t dequeue).2 = .invalid := by
  have hparked : ∀ a, .invalid op ∈ blocked a ↔ False := fun a ↦ iff_false_intro (hblocked a)
  unfold receiveEvents receiveWith
  repeat' split
  all_goals simp_all

/-- The operations without a guard of admission. -/
def Unguarded : RuntimeOp → Bool
  | .spawn _ | .send _ _ _ | .inject _ _ | .stopWhenDrained => false
  | _ => true

theorem invalid_iff_of_unguarded (hop : Unguarded op = true) :
    .invalid op ∈ traceEvents s op ↔ (step s op).2 = .invalid := by
  cases op with
  | receive t => exact receiveEvents_invalid fun a ↦ by simp
  | receiveByOccurrence t occ => exact receiveEvents_invalid fun a ↦ by simp
  | receiveFrom t src => exact receiveEvents_invalid fun a ↦ by simp
  | receiveUntil t deadline =>
      simp only [traceEvents, step, receiveEvents]
      repeat' split
      all_goals simp_all
  | cancelTree root => simp [traceEvents, step]
  | tick now =>
      simp only [traceEvents, step]
      split <;> simp
  | shutdown => simp [traceEvents, step]
  | _ =>
      simp only [traceEvents, step]
      repeat' split
      all_goals simp_all [Unguarded]

theorem accounts_iff_invalid (hop : Posts op = false) :
    Accounts s op ↔ (.invalid op ∈ traceEvents s op ↔ (step s op).2 = .invalid) := by
  refine ⟨fun h ↦ h.invalid, fun h ↦ ⟨h, ?_⟩⟩
  rw [deliveries_of_not_posts hop, (step_of_not_posts s hop).2.2, taking_sent]
  rfl

/-- The events of a step account for it exactly when admission refuses nothing. -/
theorem accounts_iff (s : RuntimeState) (op : RuntimeOp) : Accounts s op ↔ ¬ Refused s op := by
  cases op with
  | send t b m => exact send_accounts_iff
  | inject a m => exact inject_accounts_iff
  | spawn a =>
      rw [accounts_iff_invalid rfl]
      cases hfresh : s.taskState s.nextId <;> by_cases hrun : s.runtimeStatus = .running <;>
        simp [traceEvents, step, Refused, hfresh, hrun]
  | stopWhenDrained =>
      rw [accounts_iff_invalid rfl]
      by_cases hquiet : RuntimeQuiescent s
      · obtain ⟨hrun, hready, htimers⟩ := id hquiet
        cases hdrained : s.resourceDrained <;>
          simp [traceEvents, step, Refused, hquiet, hdrained, hrun, hready, htimers]
      · have hevents : traceEvents s .stopWhenDrained = [.invalid .stopWhenDrained] :=
          if_neg hquiet
        have hstep : step s .stopWhenDrained = (s, .invalid) :=
          if_neg fun h ↦ hquiet ⟨h.1, h.2.1, h.2.2.1⟩
        simp [hevents, hstep, Refused, hquiet]
  | _ =>
      rw [accounts_iff_invalid rfl]
      exact iff_of_true (invalid_iff_of_unguarded rfl) (fun h ↦ h)

theorem receiveEvents_receipts {dequeue : Mailbox → Option (Envelope × Mailbox)}
    {blocked : ActorId → List TraceEvent}
    (hblocked : ∀ a, (blocked a).filterMap receiptOf = []) :
    (receiveEvents s op t dequeue blocked).filterMap receiptOf =
      ((taking s (receiveWith s t dequeue).2).received.map occurrenceOf).toList := by
  have hreceived : ∀ t a occ, receiptOf (.received t a occ) = some (a, occ) := fun _ _ _ ↦ rfl
  have hinvalid : receiptOf (.invalid op) = none := rfl
  unfold receiveEvents receiveWith
  repeat' split
  all_goals simp_all [taking, Move.received, occurrenceOf]
  exact hblocked _

theorem receiveUntil_receipts (s : RuntimeState) (t : TaskId) (deadline : ℕ) :
    (traceEvents s (.receiveUntil t deadline)).filterMap receiptOf =
      ((mail s (.receiveUntil t deadline)).received.map occurrenceOf).toList := by
  simp only [traceEvents, receiveEvents, mail, step]
  repeat' split
  all_goals simp_all [taking, Move.received, receiptOf, occurrenceOf]

/-- The receipts of a step are what it takes. -/
theorem step_receipts (s : RuntimeState) (op : RuntimeOp) :
    (traceEvents s op).filterMap receiptOf =
      ((mail s op).received.map occurrenceOf).toList := by
  have hdelivery : ∀ b base, receiptOf base = none →
      (deliveryEvents s b base).filterMap receiptOf = [] := by
    intro b base hbase
    have hwoke : ∀ w, receiptOf (.waiterWoke b w) = none := fun _ ↦ rfl
    unfold deliveryEvents
    repeat' split
    all_goals simp [hbase, hwoke]
  cases op with
  | receive t => exact receiveEvents_receipts fun _ ↦ rfl
  | receiveByOccurrence t occ => exact receiveEvents_receipts fun _ ↦ rfl
  | receiveFrom t src => exact receiveEvents_receipts fun _ ↦ rfl
  | receiveUntil t deadline => exact receiveUntil_receipts s t deadline
  | cancelTree root =>
      simp [traceEvents, mail, step, taking, Move.received, List.filterMap_map, receiptOf,
        Function.comp_def]
  | tick now =>
      simp only [traceEvents, mail, step]
      split
      · simp [taking, Move.received, List.filterMap_map, receiptOf, Function.comp_def]
      · rfl
  | shutdown => rfl
  | _ =>
      trans []
      · simp only [traceEvents]
        repeat' split
        all_goals first
          | rfl
          | exact hdelivery _ _ rfl
      · simp only [mail, step]
        repeat' split
        all_goals rfl

end Step

/-! ## Runs -/

section Run

variable (s : RuntimeState) (ops : List RuntimeOp)

/-- The ledger lists what a run receives. -/
theorem ledger_receipts :
    (runTraceLedger s ops).2.2.filterMap receiptOf =
      (received (mailTrace s ops)).map occurrenceOf := by
  induction ops generalizing s with
  | nil => rfl
  | cons op ops ih =>
      rw [runTraceLedger_events_cons, List.filterMap_append, ih (step s op).1, step_receipts,
        mailTrace, received_cons, List.map_append, Option.toList_map]

/-- Where admission refuses nothing, the ledger lists what a run sends. -/
theorem ledger_deliveries
    (h : EachStep (fun s op ↦ (step s op).1) (fun s op ↦ ¬ Refused s op) s ops) :
    (runTraceLedger s ops).2.2.filterMap deliveryOf =
      (sent (mailTrace s ops)).map occurrenceOf := by
  induction ops generalizing s with
  | nil => rfl
  | cons op ops ih =>
      have hop := ((accounts_iff s op).mpr h.1).deliveries
      rw [runTraceLedger_events_cons, List.filterMap_append, ih (step s op).1 h.2, hop,
        mailTrace, sent_cons, List.map_append, Option.toList_map]

/-- In a run from the initial state that refuses nothing, the deliveries in the
ledger carry the ids `0, 1, 2, …`, each is received at most once, and nothing
else is received. -/
theorem reachable_ledger
    (h : EachStep (fun s op ↦ (step s op).1) (fun s op ↦ ¬ Refused s op)
      RuntimeState.init ops) :
    ((runTraceLedger RuntimeState.init ops).2.2.filterMap deliveryOf).map Prod.snd =
        List.range (run RuntimeState.init ops).nextMsgId ∧
      (((runTraceLedger RuntimeState.init ops).2.2.filterMap receiptOf).map Prod.snd).Nodup ∧
        (runTraceLedger RuntimeState.init ops).2.2.filterMap receiptOf ⊆
          (runTraceLedger RuntimeState.init ops).2.2.filterMap deliveryOf := by
  rw [ledger_deliveries _ _ h, ledger_receipts, List.map_map, List.map_map]
  refine ⟨reachable_numbering ops, ?_, ?_⟩
  · exact (reachable_transfers ops).received_nodup (reachable_keys ops)
  · apply List.map_subset
    rintro ⟨a, env⟩ hreceived
    apply mem_sent.mpr
    exact (reachable_transfers ops).post_iff.mpr (Or.inl (mem_received.mp hreceived))

theorem reachable_ledger_letters :
    ((runTraceLedger RuntimeState.init lettersRun).2.2.filterMap deliveryOf).map Prod.snd =
        List.range 2 ∧
      (((runTraceLedger RuntimeState.init lettersRun).2.2.filterMap receiptOf).map
        Prod.snd).Nodup ∧
      (runTraceLedger RuntimeState.init lettersRun).2.2.filterMap receiptOf ⊆
        (runTraceLedger RuntimeState.init lettersRun).2.2.filterMap deliveryOf := by
  have hadmitted : EachStep (fun s op ↦ (step s op).1) (fun s op ↦ ¬ Refused s op)
      RuntimeState.init lettersRun := by
    refine ⟨fun h ↦ h.2 rfl, ?_, ?_, id, id, trivial⟩
    · rintro ⟨mb, -, (h | h) | h⟩
      · exact h rfl
      · cases h
      · cases h
    · rintro ⟨mb, -, (h | h) | h⟩
      · exact h rfl
      · cases h
      · cases h
  exact reachable_ledger lettersRun hadmitted

end Run

end Henret.Trace
