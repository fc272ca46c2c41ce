import Henret.Lib.Mailroom
import Henret.Runtime.Resources

/-!
# Message delivery over whole runs

The mailboxes form a mailroom: every step leaves them alone, appends one
freshly numbered envelope to one of them or takes one envelope out.  No message
is therefore lost or received twice, and plain receives are first in, first
out.
-/

namespace Henret

open Mailroom

/-- The messages waiting in the mailbox of `a`. -/
def inbox (s : RuntimeState) (a : ActorId) : List Envelope :=
  match s.mailboxes a with
  | some mb => mb.messages
  | none => []

/-- The move of a receive, read off its result. -/
def taking (s : RuntimeState) : StepResult → Move ActorId Envelope
  | .received env =>
      match s.running.bind s.taskOwner with
      | some a => .take a env
      | none => .idle
  | _ => .idle

/-- The mail that an operation moves. -/
def mail (s : RuntimeState) (op : RuntimeOp) : Move ActorId Envelope :=
  match op with
  | .send t b m =>
      if (step s op).2 = .ok then .post b ⟨s.nextMsgId, s.taskOwner t, m⟩ else .idle
  | .inject a m => if (step s op).2 = .ok then .post a ⟨s.nextMsgId, none, m⟩ else .idle
  | _ => taking s (step s op).2

/-- The mail that a run moves. -/
def mailTrace (s : RuntimeState) : List RuntimeOp → List (Move ActorId Envelope)
  | [] => []
  | op :: ops => mail s op :: mailTrace (step s op).1 ops

/-- The receives that take the oldest message. -/
def TakesOldest : RuntimeOp → Bool
  | .receiveByOccurrence _ _ | .receiveFrom _ _ => false
  | _ => true

/-! ## Dequeuing -/

/-- `dequeue` takes one envelope and leaves the order of the others. -/
def Dequeues (skips : List Envelope → Prop)
    (dequeue : Mailbox → Option (Envelope × Mailbox)) : Prop :=
  ∀ mb env mb', dequeue mb = some (env, mb') →
    ∃ l r, mb.messages = l ++ env :: r ∧ mb'.messages = l ++ r ∧ skips l

theorem dequeue_dequeues {skips : List Envelope → Prop} (hnil : skips []) :
    Dequeues skips Mailbox.dequeue := by
  intro mb env mb' h
  rw [Mailbox.dequeue] at h
  split at h
  · exact absurd h (by simp)
  · next e es hmb =>
      obtain ⟨rfl, rfl⟩ : e = env ∧ ⟨es⟩ = mb' := by simpa using h
      exact ⟨[], es, hmb, rfl, hnil⟩

theorem listDequeueFirst_eq_some {p : Envelope → Bool} {es es' : List Envelope}
    {env : Envelope} (h : Mailbox.listDequeueFirst p es = some (env, es')) :
    ∃ l r, es = l ++ env :: r ∧ es' = l ++ r ∧ p env = true ∧ ∀ e ∈ l, p e = false := by
  induction es generalizing es' with
  | nil => simp [Mailbox.listDequeueFirst] at h
  | cons e es ih =>
      rw [Mailbox.listDequeueFirst] at h
      split at h
      · next hp =>
          obtain ⟨rfl, rfl⟩ : e = env ∧ es = es' := by simpa using h
          exact ⟨[], es, rfl, rfl, hp, by simp⟩
      · next hp =>
          split at h
          · exact absurd h (by simp)
          · next e' es'' hrest =>
              obtain ⟨rfl, rfl⟩ : e' = env ∧ e :: es'' = es' := by simpa using h
              obtain ⟨l, r, rfl, rfl, henv, hl⟩ := ih hrest
              refine ⟨e :: l, r, rfl, rfl, henv, ?_⟩
              simpa using ⟨by simpa using hp, hl⟩

theorem dequeueFirst_dequeues {skips : List Envelope → Prop} {p : Envelope → Bool}
    (hskips : ∀ l, skips l) : Dequeues skips (Mailbox.dequeueFirst p) := by
  intro mb env mb' h
  rw [Mailbox.dequeueFirst] at h
  split at h
  · exact absurd h (by simp)
  · next e es hmb =>
      obtain ⟨rfl, rfl⟩ : e = env ∧ ⟨es⟩ = mb' := by simpa using h
      obtain ⟨l, r, hes, hes', -, -⟩ := listDequeueFirst_eq_some hmb
      exact ⟨l, r, hes, hes', hskips l⟩

/-! ## One step -/

theorem inbox_upd (s s' : RuntimeState) (b : ActorId) (mb : Mailbox)
    (h : s'.mailboxes = upd s.mailboxes b (some mb)) :
    inbox s' = Function.update (inbox s) b mb.messages := by
  funext a
  by_cases hab : a = b
  · subst hab
    simp [inbox, h]
  · simp [inbox, h, upd_ne _ _ hab, Function.update_of_ne hab]

theorem inbox_ensureMailbox (s s' : RuntimeState) (b : ActorId)
    (h : s'.mailboxes = ensureMailbox s b) : inbox s' = inbox s := by
  cases hb : s.mailboxes b with
  | some mb => simp [funext_iff, inbox, h, ensureMailbox, hb]
  | none =>
      rw [ensureMailbox, hb] at h
      rw [inbox_upd s s' b _ h, Function.update_eq_self_iff]
      simp [inbox, hb, Mailbox.empty]

section Step

variable {s : RuntimeState} {skips : List Envelope → Prop}

theorem deliver_performs {b : ActorId} {mb : Mailbox} (hb : s.mailboxes b = some mb)
    (env : Envelope) :
    Performs skips (inbox s) (.post b env) (inbox (deliver s b mb env)) := by
  rw [inbox_upd s _ b _ (deliver_mailboxes s b mb env)]
  have hinbox : inbox s b = mb.messages := by simp [inbox, hb]
  rw [Mailbox.enqueue, ← hinbox]
  exact .post b env

theorem take_performs {a : ActorId} {mb mb' : Mailbox} {env : Envelope}
    {dequeue : Mailbox → Option (Envelope × Mailbox)} (hd : Dequeues skips dequeue)
    (ha : s.mailboxes a = some mb) (htake : dequeue mb = some (env, mb')) :
    Performs skips (inbox s) (.take a env)
      (inbox { s with mailboxes := upd s.mailboxes a (some mb') }) := by
  obtain ⟨l, r, hmb, hmb', hl⟩ := hd mb env mb' htake
  have hinbox := inbox_upd s { s with mailboxes := upd s.mailboxes a (some mb') } a mb' rfl
  rw [hinbox, hmb']
  exact .take (by simp [inbox, ha, hmb]) hl

theorem taking_received {t : TaskId} {a : ActorId} (hrun : s.running = some t)
    (ha : s.taskOwner t = some a) (env : Envelope) : taking s (.received env) = .take a env := by
  simp [taking, hrun, ha]

theorem receiveWith_performs {dequeue : Mailbox → Option (Envelope × Mailbox)}
    (hd : Dequeues skips dequeue) (t : TaskId) :
    Performs skips (inbox s) (taking s (receiveWith s t dequeue).2)
      (inbox (receiveWith s t dequeue).1) := by
  unfold receiveWith
  split
  · next hrun =>
      repeat' split
      all_goals try exact .idle
      next a ha _ mb hmb _ env mb' htake =>
        rw [taking_received hrun ha]
        exact take_performs hd hmb htake
  · exact .idle

theorem receiveUntil_performs (hnil : skips []) (t : TaskId) (deadline : ℕ) :
    Performs skips (inbox s) (mail s (.receiveUntil t deadline))
      (inbox (step s (.receiveUntil t deadline)).1) := by
  simp only [mail, step]
  split
  · next hrun =>
      repeat' split
      all_goals try exact .idle
      next a ha _ mb hmb _ env mb' htake =>
        rw [taking_received hrun ha]
        exact take_performs (dequeue_dequeues hnil) hmb htake
  · exact .idle

theorem idle_performs {s' : RuntimeState} (h : inbox s' = inbox s) :
    Performs skips (inbox s) .idle (inbox s') := by
  rw [h]
  exact .idle

/-- A send reaches its mailbox or leaves the state unchanged. -/
theorem step_send_cases (s : RuntimeState) (t : TaskId) (b : ActorId) (m : Message) :
    (∃ mb, s.mailboxes b = some mb ∧ s.actorStatus b ≠ .closed ∧ s.mailboxFull b mb = false ∧
      step s (.send t b m) = (deliver s b mb ⟨s.nextMsgId, s.taskOwner t, m⟩, .ok)) ∨
    ((step s (.send t b m)).1 = s ∧ (step s (.send t b m)).2 ≠ .ok) := by
  simp only [step]
  repeat' split
  all_goals first
    | exact Or.inr ⟨rfl, by simp⟩
    | exact Or.inl ⟨_, by assumption, by assumption, Bool.eq_false_iff.mpr (by assumption), rfl⟩

theorem step_inject_cases (s : RuntimeState) (a : ActorId) (m : Message) :
    (∃ mb, s.mailboxes a = some mb ∧ s.actorStatus a ≠ .closed ∧ s.mailboxFull a mb = false ∧
      step s (.inject a m) = (deliver s a mb ⟨s.nextMsgId, none, m⟩, .ok)) ∨
    ((step s (.inject a m)).1 = s ∧ (step s (.inject a m)).2 ≠ .ok) := by
  simp only [step]
  repeat' split
  all_goals first
    | exact Or.inr ⟨rfl, by simp⟩
    | exact Or.inl ⟨_, by assumption, fun h ↦ by simp_all, Bool.eq_false_iff.mpr (by assumption), rfl⟩

/-- Every step performs its mail; a selective receive may pass over messages. -/
theorem step_performs (s : RuntimeState) (op : RuntimeOp) :
    Performs (fun l ↦ TakesOldest op = true → l = []) (inbox s) (mail s op)
      (inbox (step s op).1) := by
  have hspawn : ∀ b, Performs (fun l ↦ TakesOldest op = true → l = []) (inbox s) .idle
      (inbox (spawnFresh s b)) :=
    fun b ↦ idle_performs (inbox_ensureMailbox s _ b rfl)
  cases op with
  | send t b m =>
      obtain ⟨mb, hb, -, -, hstep⟩ | ⟨hs, hr⟩ := step_send_cases s t b m
      · simpa [mail, hstep] using deliver_performs hb _
      · simpa [mail, hs, hr] using Performs.idle
  | inject a m =>
      obtain ⟨mb, ha, -, -, hstep⟩ | ⟨hs, hr⟩ := step_inject_cases s a m
      · simpa [mail, hstep] using deliver_performs ha _
      · simpa [mail, hs, hr] using Performs.idle
  | receive t => exact receiveWith_performs (dequeue_dequeues fun _ ↦ rfl) t
  | receiveUntil t deadline => exact receiveUntil_performs (fun _ ↦ rfl) t deadline
  | receiveByOccurrence t occ =>
      exact receiveWith_performs (dequeueFirst_dequeues fun l h ↦ by simp [TakesOldest] at h) t
  | receiveFrom t src =>
      exact receiveWith_performs (dequeueFirst_dequeues fun l h ↦ by simp [TakesOldest] at h) t
  | cancelTree root => exact .idle
  | shutdown => exact .idle
  | _ =>
      simp only [mail, step]
      repeat' split
      all_goals first
        | exact .idle
        | exact hspawn _

theorem deliver_numbering (s : RuntimeState) (b : ActorId) (mb : Mailbox) (env : Envelope) :
    (deliver s b mb env).nextMsgId = s.nextMsgId + 1 ∧
      (deliver s b mb env).mailboxPolicy = s.mailboxPolicy := by
  unfold deliver
  split
  · exact ⟨rfl, rfl⟩
  · split <;> exact ⟨rfl, rfl⟩

theorem taking_sent (s : RuntimeState) (r : StepResult) : (taking s r).sent = none := by
  unfold taking
  repeat' split
  all_goals rfl

/-- The operations that can post. -/
def Posts : RuntimeOp → Bool
  | .send _ _ _ | .inject _ _ => true
  | _ => false

theorem step_of_not_posts (s : RuntimeState) {op : RuntimeOp} (hop : Posts op = false) :
    (step s op).1.nextMsgId = s.nextMsgId ∧ (step s op).1.mailboxPolicy = s.mailboxPolicy ∧
      mail s op = taking s (step s op).2 := by
  have hreceive : ∀ t dequeue, (receiveWith s t dequeue).1.nextMsgId = s.nextMsgId ∧
      (receiveWith s t dequeue).1.mailboxPolicy = s.mailboxPolicy := by
    intro t dequeue
    unfold receiveWith
    repeat' split
    all_goals exact ⟨rfl, rfl⟩
  cases op with
  | send t b m => simp [Posts] at hop
  | inject a m => simp [Posts] at hop
  | receive t => exact ⟨(hreceive t _).1, (hreceive t _).2, rfl⟩
  | receiveByOccurrence t occ => exact ⟨(hreceive t _).1, (hreceive t _).2, rfl⟩
  | receiveFrom t src => exact ⟨(hreceive t _).1, (hreceive t _).2, rfl⟩
  | cancelTree root => exact ⟨rfl, rfl, rfl⟩
  | shutdown => exact ⟨rfl, rfl, rfl⟩
  | _ =>
      refine ⟨?_, ?_, rfl⟩
      all_goals
        simp only [step]
        repeat' split
        all_goals rfl

/-- What a posting does: it draws the next number, and the mailbox it goes to
is open and has room. -/
structure Posting (s : RuntimeState) (op : RuntimeOp) (a : ActorId) (env : Envelope)
    (mb : Mailbox) : Prop where
  mail_eq : mail s op = .post a env
  occurrence : env.occurrence = s.nextMsgId
  nextMsgId : (step s op).1.nextMsgId = s.nextMsgId + 1
  actor_open : s.actorStatus a ≠ .closed
  mailbox : s.mailboxes a = some mb
  room : s.mailboxFull a mb = false

/-- A step posts one message or draws no number. -/
theorem step_mail (s : RuntimeState) (op : RuntimeOp) :
    ((mail s op).sent = none ∧ (step s op).1.nextMsgId = s.nextMsgId) ∨
      ∃ a env mb, Posting s op a env mb := by
  cases hop : Posts op with
  | false =>
      obtain ⟨hnext, -, hmail⟩ := step_of_not_posts s hop
      exact Or.inl ⟨hmail ▸ taking_sent s _, hnext⟩
  | true =>
      cases op with
      | send t b m =>
          obtain ⟨mb, hb, hopen, hroom, hstep⟩ | ⟨hs, hr⟩ := step_send_cases s t b m
          · refine Or.inr ⟨b, ⟨s.nextMsgId, s.taskOwner t, m⟩, mb, ?_, rfl, ?_, hopen, hb, hroom⟩
            · simp [mail, hstep]
            · rw [hstep]
              exact (deliver_numbering s b mb _).1
          · exact Or.inl ⟨by simp [mail, hr, Move.sent], congrArg _ hs⟩
      | inject a m =>
          obtain ⟨mb, ha, hopen, hroom, hstep⟩ | ⟨hs, hr⟩ := step_inject_cases s a m
          · refine Or.inr ⟨a, ⟨s.nextMsgId, none, m⟩, mb, ?_, rfl, ?_, hopen, ha, hroom⟩
            · simp [mail, hstep]
            · rw [hstep]
              exact (deliver_numbering s a mb _).1
          · exact Or.inl ⟨by simp [mail, hr, Move.sent], congrArg _ hs⟩
      | _ => simp [Posts] at hop

theorem posting_of_postedTo {s : RuntimeState} {op : RuntimeOp} {a : ActorId} {env : Envelope}
    (h : (mail s op).postedTo a = some env) : ∃ mb, Posting s op a env mb := by
  rw [Move.postedTo_eq_some] at h
  obtain ⟨hnone, -⟩ | ⟨b, env', mb, hposting⟩ := step_mail s op
  · simp [h, Move.sent] at hnone
  · obtain ⟨rfl, rfl⟩ : b = a ∧ env' = env := by simpa [h] using hposting.mail_eq.symm
    exact ⟨mb, hposting⟩

theorem step_mailboxPolicy (s : RuntimeState) (op : RuntimeOp) :
    (step s op).1.mailboxPolicy = s.mailboxPolicy := by
  cases hop : Posts op with
  | false => exact (step_of_not_posts s hop).2.1
  | true =>
      cases op with
      | send t b m =>
          obtain ⟨mb, -, -, -, hstep⟩ | ⟨hs, -⟩ := step_send_cases s t b m
          · rw [hstep]
            exact (deliver_numbering s b mb _).2
          · rw [hs]
      | inject a m =>
          obtain ⟨mb, -, -, -, hstep⟩ | ⟨hs, -⟩ := step_inject_cases s a m
          · rw [hstep]
            exact (deliver_numbering s a mb _).2
          · rw [hs]
      | _ => simp [Posts] at hop

/-- The message a result hands over. -/
def envelopeOf : StepResult → Option Envelope
  | .received env => some env
  | _ => none

theorem taking_received_map {s : RuntimeState} {r : StepResult}
    (hr : ∀ env, r = .received env → ∃ t a, s.running = some t ∧ s.taskOwner t = some a) :
    ((taking s r).received.map Prod.snd) = envelopeOf r := by
  cases r with
  | received env =>
      obtain ⟨t, a, hrun, ha⟩ := hr env rfl
      rw [taking_received hrun ha]
      rfl
  | _ => rfl

theorem receiveWith_received {t : TaskId} {dequeue : Mailbox → Option (Envelope × Mailbox)}
    {env : Envelope} (h : (receiveWith s t dequeue).2 = .received env) :
    ∃ t a, s.running = some t ∧ s.taskOwner t = some a := by
  unfold receiveWith at h
  repeat' split at h
  all_goals first
    | exact ⟨t, _, by assumption, by assumption⟩
    | simp at h

/-- The results of a step show exactly what it takes. -/
theorem step_received (s : RuntimeState) (op : RuntimeOp) :
    (mail s op).received.map Prod.snd = envelopeOf (step s op).2 := by
  cases op with
  | receive t => exact taking_received_map fun _ ↦ receiveWith_received
  | receiveByOccurrence t occ => exact taking_received_map fun _ ↦ receiveWith_received
  | receiveFrom t src => exact taking_received_map fun _ ↦ receiveWith_received
  | receiveUntil t deadline =>
      apply taking_received_map
      intro env h
      simp only [step] at h
      repeat' split at h
      all_goals first
        | exact ⟨t, _, by assumption, by assumption⟩
        | simp at h
  | cancelTree root => rfl
  | shutdown => rfl
  | _ =>
      simp only [mail, step]
      repeat' split
      all_goals rfl

end Step

/-! ## Runs -/

section Run

variable (s : RuntimeState) (ops : List RuntimeOp)

theorem run_transfers {skips : List Envelope → Prop}
    (hskips : ∀ op ∈ ops, ∀ l, (TakesOldest op = true → l = []) → skips l) :
    Transfers skips (inbox s) (mailTrace s ops) (inbox (run s ops)) := by
  induction ops generalizing s with
  | nil => exact .nil
  | cons op ops ih =>
      have hop := hskips op List.mem_cons_self
      have hops := fun op' hop' ↦ hskips op' (List.mem_cons_of_mem op hop')
      exact .cons ((step_performs s op).imp hop) (ih (step s op).1 hops)

/-- Conservation: for every actor, what was received and what still waits are
together what waited at first and what was posted. -/
theorem run_mail_perm (a : ActorId) :
    (taken a (mailTrace s ops) ++ inbox (run s ops) a).Perm
      (inbox s a ++ posted a (mailTrace s ops)) := by
  have htransfers : Transfers (fun _ ↦ True) (inbox s) (mailTrace s ops) (inbox (run s ops)) :=
    run_transfers s ops fun _ _ _ _ ↦ trivial
  exact htransfers.perm a

/-- Without selective receives, messages are received in the order of posting. -/
theorem run_mail_inOrder (hops : ∀ op ∈ ops, TakesOldest op = true) (a : ActorId) :
    taken a (mailTrace s ops) ++ inbox (run s ops) a =
      inbox s a ++ posted a (mailTrace s ops) := by
  refine Transfers.inOrder (run_transfers s ops ?_) (fun l hl ↦ hl) a
  exact fun op hop l hl ↦ hl (hops op hop)

/-- Two letters to actor 7, of which its task reads the first. -/
def lettersRun : List RuntimeOp :=
  [.spawn 7, .inject 7 ⟨1, 1⟩, .inject 7 ⟨1, 2⟩, .schedule, .receive 0]

theorem run_mail_inOrder_letters :
    taken 7 (mailTrace RuntimeState.init lettersRun) ++ inbox (run RuntimeState.init lettersRun) 7 =
      posted 7 (mailTrace RuntimeState.init lettersRun) := by
  rw [run_mail_inOrder RuntimeState.init lettersRun (by decide) 7]
  rfl

/-- The occurrence ids of the messages sent are the numbers drawn, in order. -/
theorem run_mail_numbering : ∃ n, (run s ops).nextMsgId = s.nextMsgId + n ∧
    (sent (mailTrace s ops)).map (fun p ↦ p.2.occurrence) = List.range' s.nextMsgId n := by
  induction ops generalizing s with
  | nil => exact ⟨0, rfl, rfl⟩
  | cons op ops ih =>
      obtain ⟨n, hnext, hsent⟩ := ih (step s op).1
      rw [run_cons, mailTrace, sent_cons, List.map_append]
      obtain ⟨hnone, hkeep⟩ | ⟨a, env, mb, hpost⟩ := step_mail s op
      · rw [hkeep] at hnext hsent
        refine ⟨n, hnext, ?_⟩
        rw [hnone]
        exact hsent
      · rw [hpost.nextMsgId] at hnext hsent
        refine ⟨n + 1, by rw [hnext, Nat.add_assoc, Nat.add_comm 1 n], ?_⟩
        have hhead : (mail s op).sent = some (a, env) := by rw [hpost.mail_eq]; rfl
        rw [hhead, List.range'_succ, ← hsent, ← hpost.occurrence]
        rfl

/-- The messages a run's results hand over are those it takes. -/
theorem runTrace_received :
    (runTrace s ops).2.filterMap envelopeOf = (received (mailTrace s ops)).map Prod.snd := by
  induction ops generalizing s with
  | nil => rfl
  | cons op ops ih =>
      rw [runTrace_cons_snd, mailTrace, received_cons, filterMap_cons_toList, List.map_append,
        ih (step s op).1, ← step_received]
      cases hreceived : (mail s op).received <;> rfl

/-- A closed actor is sent nothing more. -/
theorem posted_closed {a : ActorId} (ha : s.actorStatus a = .closed) :
    posted a (mailTrace s ops) = [] := by
  induction ops generalizing s with
  | nil => rfl
  | cons op ops ih =>
      rw [mailTrace, posted_cons, List.append_eq_nil_iff]
      refine ⟨?_, ih (step s op).1 ?_⟩
      · rw [Option.toList_eq_nil_iff, Option.eq_none_iff_forall_ne_some]
        intro env hpost
        obtain ⟨mb, hposting⟩ := posting_of_postedTo hpost
        exact hposting.actor_open ha
      · by_cases hop : op = .closeActor a ∧ ActorExists s a
        · rw [hop.1, step_closeActor hop.2]
          exact upd_self _ _ _
        · rwa [step_actorStatus hop]

theorem posted_closed_letter :
    posted 7 (mailTrace (run RuntimeState.init [.spawn 7, .closeActor 7])
      [.inject 7 ⟨1, 1⟩, .spawn 7]) = [] :=
  posted_closed _ _ (by decide)

/-- A mailbox within its capacity stays within its capacity. -/
theorem run_within_capacity {a : ActorId} {n : ℕ} (hcap : (s.mailboxPolicy a).capacity = some n)
    (hlen : (inbox s a).length ≤ n) : (inbox (run s ops) a).length ≤ n := by
  induction ops generalizing s with
  | nil => exact hlen
  | cons op ops ih =>
      apply ih (step s op).1
      · rw [step_mailboxPolicy]
        exact hcap
      · have hlength := ((step_performs s op).sublist a).length_le
        rw [List.length_append] at hlength
        cases hpost : (mail s op).postedTo a with
        | none =>
            rw [hpost] at hlength
            exact hlength.trans hlen
        | some env =>
            obtain ⟨mb, hposting⟩ := posting_of_postedTo hpost
            have hroom : mb.messages.length < n := by
              simpa [RuntimeState.mailboxFull, hcap] using hposting.room
            have hinbox : inbox s a = mb.messages := by simp [inbox, hposting.mailbox]
            rw [hpost, hinbox] at hlength
            exact hlength.trans hroom

theorem run_within_capacity_letters :
    (inbox (run { RuntimeState.init with mailboxPolicy := fun _ ↦ ⟨some 1⟩ } lettersRun) 7).length ≤
      1 :=
  run_within_capacity _ lettersRun rfl (by decide)

end Run

/-! ## From the initial state -/

section Reachable

variable (ops : List RuntimeOp)

theorem reachable_transfers :
    Transfers (fun _ ↦ True) (fun _ ↦ []) (mailTrace RuntimeState.init ops)
      (inbox (run RuntimeState.init ops)) :=
  run_transfers RuntimeState.init ops fun _ _ _ _ ↦ trivial

/-- The occurrence ids of the messages sent are `0, 1, 2, …`, in order. -/
theorem reachable_numbering :
    (sent (mailTrace RuntimeState.init ops)).map (fun p ↦ p.2.occurrence) =
      List.range (run RuntimeState.init ops).nextMsgId := by
  obtain ⟨n, hnext, hsent⟩ := run_mail_numbering RuntimeState.init ops
  have hzero : RuntimeState.init.nextMsgId = 0 := rfl
  rw [hsent, hnext, hzero, Nat.zero_add, List.range_eq_range']

theorem reachable_keys :
    ((sent (mailTrace RuntimeState.init ops)).map fun p ↦ p.2.occurrence).Nodup := by
  rw [reachable_numbering]
  exact List.nodup_range

/-- A message sent to `a` has been received from its mailbox or still waits in it. -/
theorem reachable_post_iff (a : ActorId) (env : Envelope) :
    .post a env ∈ mailTrace RuntimeState.init ops ↔
      .take a env ∈ mailTrace RuntimeState.init ops ∨ env ∈ inbox (run RuntimeState.init ops) a :=
  (reachable_transfers ops).post_iff

/-- No two receives of a run return the same message. -/
theorem reachable_received_nodup :
    (((runTrace RuntimeState.init ops).2.filterMap envelopeOf).map Envelope.occurrence).Nodup := by
  have hnodup := (reachable_transfers ops).received_nodup (reachable_keys ops)
  rw [runTrace_received, List.map_map]
  exact hnodup

theorem reachable_inbox_nodup (a : ActorId) :
    ((inbox (run RuntimeState.init ops) a).map Envelope.occurrence).Nodup := by
  have hnodup := (reachable_transfers ops).nodup (reachable_keys ops) a
  rw [List.map_append] at hnodup
  exact (List.nodup_append.mp hnodup).2.1

/-- Every occurrence id that was drawn belongs to one message, sent to one
actor; it was received there or still waits there, and not both. -/
theorem reachable_delivery {m : MessageId} (hm : m < (run RuntimeState.init ops).nextMsgId) :
    ∃ a env, env.occurrence = m ∧ .post a env ∈ mailTrace RuntimeState.init ops ∧
      (env ∈ inbox (run RuntimeState.init ops) a ↔
        env ∉ (runTrace RuntimeState.init ops).2.filterMap envelopeOf) := by
  rw [← List.mem_range, ← reachable_numbering, List.mem_map] at hm
  obtain ⟨⟨a, env⟩, hsent, hocc⟩ := hm
  have hpost := mem_sent.mp hsent
  refine ⟨a, env, hocc, hpost, ?_⟩
  rw [runTrace_received, List.mem_map]
  constructor
  · rintro hinbox ⟨⟨b, env'⟩, htaken, rfl⟩
    rw [mem_received] at htaken
    have hpost' := (reachable_transfers ops).post_iff.mpr (Or.inl htaken)
    obtain ⟨rfl, -⟩ := post_unique (reachable_keys ops) hpost' hpost rfl
    exact (reachable_transfers ops).not_taken_and_held (reachable_keys ops) htaken hinbox rfl
  · intro hnot
    rcases (reachable_transfers ops).post_iff.mp hpost with htaken | hinbox
    · exact absurd ⟨(a, env), mem_received.mpr htaken, rfl⟩ hnot
    · exact hinbox

theorem reachable_delivery_letters :
    ∃ a env, env.occurrence = 1 ∧ .post a env ∈ mailTrace RuntimeState.init lettersRun ∧
      (env ∈ inbox (run RuntimeState.init lettersRun) a ↔
        env ∉ (runTrace RuntimeState.init lettersRun).2.filterMap envelopeOf) :=
  reachable_delivery lettersRun (by decide)

/-- The occurrence ids that wait in mailboxes are distinct, across all actors. -/
theorem reachable_inbox_unique {a b : ActorId} {env env' : Envelope}
    (h : env ∈ inbox (run RuntimeState.init ops) a)
    (h' : env' ∈ inbox (run RuntimeState.init ops) b) (hocc : env.occurrence = env'.occurrence) :
    a = b ∧ env = env' := by
  have hpost := (reachable_post_iff ops a env).mpr (Or.inr h)
  have hpost' := (reachable_post_iff ops b env').mpr (Or.inr h')
  exact post_unique (reachable_keys ops) hpost hpost' hocc

end Reachable

end Henret
