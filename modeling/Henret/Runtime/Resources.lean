import Henret.Runtime.Lifecycle

/-!
# The resource ledger over whole runs

A resource is `allocated` only while its owner can still act, and `closing`
only after its owner forfeited it.  One step moves a recorded resource along
`allocated → closing → released` or `allocated → released`, and an operation
closes exactly the allocated resources of the owners that forfeit.
-/

namespace Henret

def ActorExists (s : RuntimeState) (a : ActorId) : Prop :=
  ∃ mb, s.mailboxes a = some mb

/-- The owner can hold a live handle: a non-terminal task or an open actor. -/
def OwnerLive (s : RuntimeState) : ResourceOwner → Prop
  | .task t => ∃ st, s.taskState t = some st ∧ st.isTerminal = false
  | .actor a => ActorExists s a ∧ s.actorStatus a ≠ .closed

/-- The owner can no longer act: a terminal task or a closed actor. -/
def OwnerClosed (s : RuntimeState) : ResourceOwner → Prop
  | .task t => ∃ st, s.taskState t = some st ∧ st.isTerminal = true
  | .actor a => ActorExists s a ∧ s.actorStatus a = .closed

/-- The owners whose allocated resources an operation closes. -/
def Forfeits (s : RuntimeState) (op : RuntimeOp) : ResourceOwner → Prop
  | .task t => Retires s op t
  | .actor a => op = .closeActor a ∧ ActorExists s a

structure LedgerSound (s : RuntimeState) : Prop where
  fresh_above : ∀ r, s.nextResourceId ≤ r → s.resources r = none
  recorded_below : ∀ r, r < s.nextResourceId → ∃ rr, s.resources r = some rr
  allocated_live : ∀ r o, s.resources r = some ⟨o, .allocated⟩ → OwnerLive s o
  closing_closed : ∀ r o, s.resources r = some ⟨o, .closing⟩ → OwnerClosed s o

theorem ledgerSound_init : LedgerSound RuntimeState.init where
  fresh_above := fun _ _ ↦ rfl
  recorded_below := fun r h ↦ absurd h (Nat.not_lt_zero r)
  allocated_live := fun r o h ↦ by cases h
  closing_closed := fun r o h ↦ by cases h

/-! ## Owners -/

theorem deliver_mailboxes (s : RuntimeState) (b : ActorId) (mb : Mailbox) (env : Envelope) :
    (deliver s b mb env).mailboxes = upd s.mailboxes b (some (mb.enqueue env)) := by
  unfold deliver
  split
  · rfl
  · split <;> rfl

theorem deliver_ledger (s : RuntimeState) (b : ActorId) (mb : Mailbox) (env : Envelope) :
    (deliver s b mb env).resources = s.resources ∧
      (deliver s b mb env).nextResourceId = s.nextResourceId ∧
        (deliver s b mb env).actorStatus = s.actorStatus := by
  unfold deliver
  split
  · exact ⟨rfl, rfl, rfl⟩
  · split <;> exact ⟨rfl, rfl, rfl⟩

theorem exists_upd_mailbox {f : ActorMap} {a b : ActorId} {mb : Mailbox}
    (h : ∃ mb, f a = some mb) : ∃ mb', upd f b (some mb) a = some mb' := by
  by_cases hab : a = b
  · subst hab
    exact ⟨mb, upd_self _ _ _⟩
  · simpa [upd_ne _ _ hab] using h

theorem exists_ensureMailbox {s : RuntimeState} {a b : ActorId} (h : ActorExists s a) :
    ∃ mb, ensureMailbox s b a = some mb := by
  cases hb : s.mailboxes b with
  | some _ => simpa [ensureMailbox, hb, ActorExists] using h
  | none =>
      have hupd : ∃ mb, upd s.mailboxes b (some Mailbox.empty) a = some mb :=
        exists_upd_mailbox h
      simpa [ensureMailbox, hb] using hupd

/-- An actor never ceases to exist. -/
theorem actorExists_step {s : RuntimeState} {a : ActorId} (h : ActorExists s a)
    (op : RuntimeOp) : ActorExists (step s op).1 a := by
  have hreceive : ∀ t dequeue, ActorExists (receiveWith s t dequeue).1 a := by
    intro t dequeue
    unfold receiveWith
    repeat' split
    all_goals first
      | exact h
      | exact exists_upd_mailbox h
  have hdeliver : ∀ b mb env, ActorExists (deliver s b mb env) a := by
    intro b mb env
    rw [ActorExists, deliver_mailboxes]
    exact exists_upd_mailbox h
  have hspawn : ∀ b, ActorExists (spawnFresh s b) a := fun b ↦ exists_ensureMailbox h
  cases op with
  | receive t => exact hreceive t _
  | receiveByOccurrence t occ => exact hreceive t _
  | receiveFrom t src => exact hreceive t _
  | cancelTree root => exact h
  | shutdown => exact h
  | _ =>
      simp only [step]
      repeat' split
      all_goals first
        | exact h
        | exact hspawn _
        | exact hdeliver _ _ _
        | exact exists_upd_mailbox h

/-- The operations that neither touch the ledger nor close an actor. -/
def LedgerFree : RuntimeOp → Bool
  | .complete _ | .cancel _ | .fail _ | .cancelTree _ | .closeActor _ | .acquire _
  | .acquireActor _ | .releaseActor _ _ | .release _ _ | .finalize _ => false
  | _ => true

theorem step_ledgerFree (s : RuntimeState) {op : RuntimeOp} (hop : LedgerFree op = true) :
    (step s op).1.resources = s.resources ∧
      (step s op).1.nextResourceId = s.nextResourceId ∧
        (step s op).1.actorStatus = s.actorStatus := by
  have hreceive : ∀ t dequeue, (receiveWith s t dequeue).1.resources = s.resources ∧
      (receiveWith s t dequeue).1.nextResourceId = s.nextResourceId ∧
        (receiveWith s t dequeue).1.actorStatus = s.actorStatus := by
    intro t dequeue
    unfold receiveWith
    repeat' split
    all_goals exact ⟨rfl, rfl, rfl⟩
  cases op with
  | receive t => exact hreceive t _
  | receiveByOccurrence t occ => exact hreceive t _
  | receiveFrom t src => exact hreceive t _
  | complete _ | cancel _ | fail _ | cancelTree _ | closeActor _ | acquire _
  | acquireActor _ | releaseActor _ _ | release _ _ | finalize _ => simp [LedgerFree] at hop
  | shutdown => exact ⟨rfl, rfl, rfl⟩
  | _ =>
      simp only [step]
      repeat' split
      all_goals first
        | exact ⟨rfl, rfl, rfl⟩
        | exact deliver_ledger _ _ _ _

theorem step_closeActor {s : RuntimeState} {a : ActorId} (h : ActorExists s a) :
    step s (.closeActor a) =
      ({ s with
          actorStatus := upd s.actorStatus a .closed
          resources := markActorResourcesClosing a s.resources }, .ok) := by
  obtain ⟨mb, hmb⟩ := h
  simp [step, hmb]

/-- Only closing an existing actor changes its admission status. -/
theorem step_actorStatus {s : RuntimeState} {op : RuntimeOp} {a : ActorId}
    (h : ¬ (op = .closeActor a ∧ ActorExists s a)) :
    (step s op).1.actorStatus a = s.actorStatus a := by
  cases hfree : LedgerFree op with
  | true => rw [(step_ledgerFree s hfree).2.2]
  | false =>
      cases op with
      | closeActor b =>
          cases hmb : s.mailboxes b with
          | none => simp [step, hmb]
          | some mb =>
              have hab : a ≠ b := by
                rintro rfl
                exact h ⟨rfl, mb, hmb⟩
              rw [step_closeActor ⟨mb, hmb⟩]
              exact upd_ne _ _ hab
      | cancelTree root => rfl
      | _ =>
          simp only [step]
          repeat' split
          all_goals first
            | rfl
            | simp [LedgerFree] at hfree

section Owners

variable {s : RuntimeState} {p p' : TaskId → Phase} {op : RuntimeOp}

theorem Located.ownerLive_iff (h : Located s p) (t : TaskId) :
    OwnerLive s (.task t) ↔ p t ≠ .fresh ∧ p t ≠ .finished := by
  have hshows := h.shows_phase t
  rw [ne_eq, ne_eq, ← Phase.shows_none_iff hshows, ← Phase.shows_terminal_iff hshows]
  cases hst : s.taskState t <;> simp [OwnerLive, hst]

theorem Located.ownerClosed_iff (h : Located s p) (t : TaskId) :
    OwnerClosed s (.task t) ↔ p t = .finished := by
  rw [← Phase.shows_terminal_iff (h.shows_phase t)]
  cases hst : s.taskState t <;> simp [OwnerClosed, hst]

theorem ownerLive_step (h : Located s p) (h' : Located (step s op).1 p')
    (hadv : Advances p p' (Retires s op)) {o : ResourceOwner} (hlive : OwnerLive s o)
    (hkeeps : ¬ Forfeits s op o) : OwnerLive (step s op).1 o := by
  cases o with
  | task t =>
      rw [h'.ownerLive_iff]
      obtain ⟨hfresh, hfinished⟩ := (h.ownerLive_iff t).mp hlive
      constructor
      · rcases hadv.edge t with heq | hedge
        · rwa [heq]
        · exact hedge.target_ne_fresh
      · rw [ne_eq, hadv.finishes t]
        rintro (hf | hr)
        · exact hfinished hf
        · exact hkeeps hr
  | actor a =>
      refine ⟨actorExists_step hlive.1 op, ?_⟩
      rw [step_actorStatus hkeeps]
      exact hlive.2

theorem ownerClosed_step (h : Located s p) (h' : Located (step s op).1 p')
    (hadv : Advances p p' (Retires s op)) {o : ResourceOwner} (hclosed : OwnerClosed s o) :
    OwnerClosed (step s op).1 o := by
  cases o with
  | task t =>
      rw [h'.ownerClosed_iff, hadv.finishes t]
      exact Or.inl ((h.ownerClosed_iff t).mp hclosed)
  | actor a =>
      refine ⟨actorExists_step hclosed.1 op, ?_⟩
      by_cases hop : op = .closeActor a ∧ ActorExists s a
      · rw [hop.1, step_closeActor hop.2]
        exact upd_self _ _ _
      · rw [step_actorStatus hop]
        exact hclosed.2

theorem ownerClosed_of_forfeits (h' : Located (step s op).1 p')
    (hadv : Advances p p' (Retires s op)) {o : ResourceOwner} (hforfeits : Forfeits s op o) :
    OwnerClosed (step s op).1 o := by
  cases o with
  | task t =>
      rw [h'.ownerClosed_iff, hadv.finishes t]
      exact Or.inr hforfeits
  | actor a =>
      refine ⟨actorExists_step hforfeits.2 op, ?_⟩
      rw [hforfeits.1, step_closeActor hforfeits.2]
      exact upd_self _ _ _

end Owners

/-! ## Resources -/

/-- One step of a recorded resource, given whether its owner forfeits. -/
inductive StageStep (forfeits : Prop) : ResourceState → ResourceState → Prop where
  | keep {st : ResourceState} (h : forfeits → st ≠ .allocated) : StageStep forfeits st st
  | close (h : forfeits) : StageStep forfeits .allocated .closing
  | release {st : ResourceState} : StageStep forfeits st .released

theorem markClosingIfOwner_apply (q : ResourceOwner → Bool)
    (res : ResourceId → Option ResourceRecord) (r : ResourceId) {o : ResourceOwner}
    {st : ResourceState} (h : res r = some ⟨o, st⟩) :
    markClosingIfOwner q res r =
      some ⟨o, if st = .allocated ∧ q o = true then .closing else st⟩ := by
  cases st <;> cases hq : q o <;> simp [markClosingIfOwner, h, hq]

theorem markClosingIfOwner_none (q : ResourceOwner → Bool)
    (res : ResourceId → Option ResourceRecord) (r : ResourceId) (h : res r = none) :
    markClosingIfOwner q res r = none := by
  simp [markClosingIfOwner, h]

/-- How one step changes one ledger slot: a recorded resource keeps its owner
and takes a stage step, and at most the slot `nextResourceId` is filled, with
a resource of a live owner. -/
structure SlotStep (s : RuntimeState) (op : RuntimeOp) (r : ResourceId) : Prop where
  recorded : ∀ o st, s.resources r = some ⟨o, st⟩ →
    ∃ st', (step s op).1.resources r = some ⟨o, st'⟩ ∧ StageStep (Forfeits s op o) st st'
  unrecorded : s.resources r = none →
    (step s op).1.resources r = none ∨
      r = s.nextResourceId ∧ (step s op).1.nextResourceId = s.nextResourceId + 1 ∧
        ∃ o, (step s op).1.resources r = some ⟨o, .allocated⟩ ∧
          OwnerLive s o ∧ ¬ Forfeits s op o

theorem SlotStep.of_same {s : RuntimeState} {op : RuntimeOp} {r : ResourceId}
    (hres : (step s op).1.resources r = s.resources r)
    (hkeeps : ∀ o, s.resources r = some ⟨o, .allocated⟩ → ¬ Forfeits s op o) :
    SlotStep s op r where
  recorded := fun o st h ↦ ⟨st, hres.trans h, .keep fun hf hst ↦ hkeeps o (hst ▸ h) hf⟩
  unrecorded := fun h ↦ Or.inl (hres.trans h)

theorem SlotStep.of_mark {s : RuntimeState} {op : RuntimeOp} {r : ResourceId}
    (q : ResourceOwner → Bool)
    (hres : (step s op).1.resources = markClosingIfOwner q s.resources)
    (hforfeits : ∀ o, q o = true ↔ Forfeits s op o) : SlotStep s op r where
  recorded := by
    intro o st h
    refine ⟨_, (congrFun hres r).trans (markClosingIfOwner_apply q _ r h), ?_⟩
    by_cases hst : st = .allocated
    · subst hst
      by_cases hq : q o = true
      · simpa [hq] using StageStep.close ((hforfeits o).mp hq)
      · simpa [hq] using StageStep.keep fun hf ↦ absurd ((hforfeits o).mpr hf) hq
    · simpa [hst] using StageStep.keep fun _ ↦ hst
  unrecorded := fun h ↦ Or.inl ((congrFun hres r).trans (markClosingIfOwner_none q _ r h))

/-- A fresh resource of a live owner. -/
theorem SlotStep.of_allocate {s : RuntimeState} {op : RuntimeOp} {r : ResourceId}
    {o : ResourceOwner} (hfresh : s.resources s.nextResourceId = none)
    (hres : (step s op).1.resources =
      upd s.resources s.nextResourceId (some ⟨o, .allocated⟩))
    (hnext : (step s op).1.nextResourceId = s.nextResourceId + 1)
    (hlive : OwnerLive s o) (hkeeps : ∀ o, ¬ Forfeits s op o) : SlotStep s op r := by
  by_cases hr : r = s.nextResourceId
  · subst hr
    refine ⟨fun o' st h ↦ by simp [hfresh] at h, fun _ ↦ Or.inr ⟨rfl, hnext, o, ?_, hlive, hkeeps o⟩⟩
    rw [hres, upd_self]
  · exact SlotStep.of_same (by rw [hres, upd_ne _ _ hr]) fun o _ ↦ hkeeps o

/-- A recorded resource is released. -/
theorem SlotStep.of_release {s : RuntimeState} {op : RuntimeOp} {r r' : ResourceId}
    {o : ResourceOwner} {st : ResourceState} (hr' : s.resources r' = some ⟨o, st⟩)
    (hres : (step s op).1.resources = upd s.resources r' (some ⟨o, .released⟩))
    (hkeeps : ∀ o, ¬ Forfeits s op o) : SlotStep s op r := by
  by_cases hr : r = r'
  · subst hr
    refine ⟨fun o' st' h ↦ ⟨.released, ?_, .release⟩, fun h ↦ by simp [hr'] at h⟩
    obtain ⟨rfl, rfl⟩ : o = o' ∧ st = st' := by simpa [hr'] using h
    rw [hres, upd_self]
  · exact SlotStep.of_same (by rw [hres, upd_ne _ _ hr]) fun o _ ↦ hkeeps o

theorem not_forfeits {s : RuntimeState} {op : RuntimeOp} (htask : ∀ t, ¬ Retires s op t)
    (hactor : ∀ a, op ≠ .closeActor a) (o : ResourceOwner) : ¬ Forfeits s op o := by
  cases o with
  | task t => exact htask t
  | actor a => exact fun h ↦ hactor a h.1

theorem not_forfeits_of_ledgerFree {s : RuntimeState} {op : RuntimeOp}
    (hop : LedgerFree op = true) (o : ResourceOwner) : ¬ Forfeits s op o := by
  refine not_forfeits (fun t ↦ ?_) (fun a ha ↦ ?_) o
  · cases op <;> simp_all [LedgerFree, Retires]
  · simp [ha, LedgerFree] at hop

theorem forfeits_of_retires {s : RuntimeState} {op : RuntimeOp} {q : TaskId → Bool}
    (htask : ∀ t, q t = true ↔ Retires s op t) (hactor : ∀ a, op ≠ .closeActor a)
    (o : ResourceOwner) :
    (match o with | .task t => q t | .actor _ => false) = true ↔ Forfeits s op o := by
  cases o with
  | task t => exact htask t
  | actor a => simpa using fun h : Forfeits s op (.actor a) ↦ hactor a h.1

theorem terminate_slot {s : RuntimeState} {op : RuntimeOp} {t : TaskId} {st' : TaskState}
    (hop : step s op =
      match s.taskState t with
      | some st => if st.isTerminal then (s, StepResult.invalid) else (terminate s t st', .ok)
      | none => (s, StepResult.invalid))
    (hretires : ∀ u, Retires s op u ↔
      u = t ∧ ∃ st, s.taskState t = some st ∧ st.isTerminal = false)
    (hactor : ∀ a, op ≠ .closeActor a) (r : ResourceId) : SlotStep s op r := by
  by_cases hvalid : ∃ st, s.taskState t = some st ∧ st.isTerminal = false
  · obtain ⟨st, hst, hterm⟩ := hvalid
    have hstep : step s op = (terminate s t st', .ok) := by
      simp [hop, hst, hterm]
    refine SlotStep.of_mark _ (by rw [hstep]; rfl) (forfeits_of_retires (fun u ↦ ?_) hactor)
    simp [hretires, hst, hterm]
  · have hstep : step s op = (s, .invalid) := by
      cases hst : s.taskState t with
      | none => simp [hop, hst]
      | some st =>
          have hterm : st.isTerminal = true := by
            by_contra hn
            exact hvalid ⟨st, hst, by simpa using hn⟩
          simp [hop, hst, hterm]
    refine SlotStep.of_same (by rw [hstep]) fun o _ ↦ not_forfeits (fun u hu ↦ ?_) hactor o
    exact hvalid ((hretires u).mp hu).2

theorem step_slot {s : RuntimeState} {p : TaskId → Phase} (h : Located s p)
    (hfresh : s.resources s.nextResourceId = none) (op : RuntimeOp) (r : ResourceId) :
    SlotStep s op r := by
  cases op with
  | complete t =>
      by_cases hrun : s.running = some t
      · have hst := (Phase.shows_running_iff (h.shows_phase t)).mpr (h.phase_running hrun)
        refine SlotStep.of_mark _ (by simp only [step, hrun, hst, if_true]; rfl)
          (forfeits_of_retires (fun u ↦ ?_) (by simp))
        simp [Retires, hrun, hst]
      · exact SlotStep.of_same (by simp [step, hrun])
          fun o _ ↦ not_forfeits (by simp [Retires, hrun]) (by simp) o
  | cancel t => exact terminate_slot (t := t) rfl (fun u ↦ Iff.rfl) (by simp) r
  | fail t => exact terminate_slot (t := t) rfl (fun u ↦ Iff.rfl) (by simp) r
  | cancelTree root =>
      refine SlotStep.of_mark _ rfl (forfeits_of_retires (fun u ↦ ?_) (by simp))
      simp [Retires]
  | closeActor a =>
      by_cases hex : ActorExists s a
      · refine SlotStep.of_mark (fun o ↦ o == .actor a) (by rw [step_closeActor hex]; rfl) ?_
        intro o
        cases o with
        | task t => simp [Forfeits, Retires]
        | actor b =>
            by_cases hab : b = a
            · simp [Forfeits, hab, hex]
            · simp [Forfeits, hab, Ne.symm hab]
      · have hmb : s.mailboxes a = none := by
          by_contra hne
          exact hex (Option.ne_none_iff_exists'.mp hne)
        refine SlotStep.of_same (by simp [step, hmb]) fun o _ ↦ ?_
        cases o with
        | task t => exact fun hf ↦ hf
        | actor b =>
            rintro ⟨hop, hb⟩
            cases hop
            exact hex hb
  | acquire t =>
      have hnf : ∀ o, ¬ Forfeits s (.acquire t) o := not_forfeits (fun _ hf ↦ hf) (by simp)
      by_cases hrun : s.running = some t
      · have hst := (Phase.shows_running_iff (h.shows_phase t)).mpr (h.phase_running hrun)
        have hlive : OwnerLive s (.task t) := ⟨.running, hst, rfl⟩
        refine SlotStep.of_allocate hfresh ?_ ?_ hlive hnf <;> simp [step, hrun, hst]
      · exact SlotStep.of_same (by simp [step, hrun]) fun o _ ↦ hnf o
  | acquireActor a =>
      have hnf : ∀ o, ¬ Forfeits s (.acquireActor a) o := not_forfeits (fun _ hf ↦ hf) (by simp)
      by_cases hvalid : s.runtimeStatus = .running ∧ s.actorStatus a ≠ .closed ∧ ActorExists s a
      · obtain ⟨hrt, hac, mb, hmb⟩ := hvalid
        have hlive : OwnerLive s (.actor a) := ⟨⟨mb, hmb⟩, hac⟩
        refine SlotStep.of_allocate hfresh ?_ ?_ hlive hnf <;> simp [step, hrt, hac, hmb]
      · refine SlotStep.of_same ?_ fun o _ ↦ hnf o
        simp only [step]
        repeat' split
        · rfl
        · rename_i hrt hac _ mb hmb
          exact absurd ⟨hrt, hac, mb, hmb⟩ hvalid
        · rfl
        · rfl
  | releaseActor a r' =>
      have hnf : ∀ o, ¬ Forfeits s (.releaseActor a r') o := not_forfeits (fun _ hf ↦ hf) (by simp)
      by_cases hvalid : s.runtimeStatus = .running ∧
          s.resources r' = some ⟨.actor a, .allocated⟩
      · exact SlotStep.of_release hvalid.2 (by simp [step, hvalid.1, hvalid.2]) hnf
      · refine SlotStep.of_same ?_ fun o _ ↦ hnf o
        simp only [step]
        repeat' split
        · rename_i hrt _ b hb hba
          subst hba
          exact absurd ⟨hrt, hb⟩ hvalid
        all_goals rfl
  | release t r' =>
      have hnf : ∀ o, ¬ Forfeits s (.release t r') o := not_forfeits (fun _ hf ↦ hf) (by simp)
      by_cases hvalid : s.running = some t ∧ s.resources r' = some ⟨.task t, .allocated⟩
      · have hst := (Phase.shows_running_iff (h.shows_phase t)).mpr (h.phase_running hvalid.1)
        exact SlotStep.of_release hvalid.2 (by simp [step, hvalid.1, hvalid.2, hst]) hnf
      · refine SlotStep.of_same ?_ fun o _ ↦ hnf o
        simp only [step]
        repeat' split
        · rename_i hrun _ _ _ o hr' ho
          subst ho
          exact absurd ⟨hrun, hr'⟩ hvalid
        all_goals rfl
  | finalize r' =>
      have hnf : ∀ o, ¬ Forfeits s (.finalize r') o := not_forfeits (fun _ hf ↦ hf) (by simp)
      by_cases hvalid : ∃ o, s.resources r' = some ⟨o, .closing⟩
      · obtain ⟨o, hr'⟩ := hvalid
        exact SlotStep.of_release hr' (by simp [step, hr']) hnf
      · refine SlotStep.of_same ?_ fun o _ ↦ hnf o
        simp only [step]
        split
        · rename_i o hr'
          exact absurd ⟨o, hr'⟩ hvalid
        · rfl
  | _ =>
      exact SlotStep.of_same (congrFun (step_ledgerFree s rfl).1 r)
        fun o _ ↦ not_forfeits_of_ledgerFree rfl o

/-- The id counter moves only when it records a resource at its old value. -/
theorem step_nextResourceId (s : RuntimeState) (op : RuntimeOp) :
    (step s op).1.nextResourceId = s.nextResourceId ∨
      (step s op).1.nextResourceId = s.nextResourceId + 1 ∧
        ∃ rr, (step s op).1.resources s.nextResourceId = some rr := by
  cases hfree : LedgerFree op with
  | true => exact Or.inl (step_ledgerFree s hfree).2.1
  | false =>
      cases op with
      | cancelTree root => exact Or.inl rfl
      | _ =>
          simp only [step]
          repeat' split
          all_goals first
            | exact Or.inl rfl
            | exact Or.inr ⟨rfl, _, upd_self _ _ _⟩
            | simp [LedgerFree] at hfree

/-- Every operation keeps the ledger sound. -/
theorem LedgerSound.step {s : RuntimeState} {p : TaskId → Phase} (hl : LedgerSound s)
    (h : Located s p) (op : RuntimeOp) : LedgerSound (step s op).1 := by
  obtain ⟨p', h', hadv⟩ := h.step op
  have hslot := step_slot h (hl.fresh_above _ le_rfl) op
  have hnext := step_nextResourceId s op
  refine ⟨fun r hr ↦ ?_, fun r hr ↦ ?_, fun r o hr ↦ ?_, fun r o hr ↦ ?_⟩
  · have hle : s.nextResourceId ≤ r := by
      rcases hnext with hsame | ⟨hsucc, -⟩
      · rwa [hsame] at hr
      · rw [hsucc] at hr
        exact Nat.le_of_succ_le hr
    rcases (hslot r).unrecorded (hl.fresh_above r hle) with hnone | ⟨rfl, hsucc, -⟩
    · exact hnone
    · rw [hsucc] at hr
      exact absurd hr (Nat.not_succ_le_self _)
  · by_cases hold : r < s.nextResourceId
    · obtain ⟨⟨o, st⟩, hrr⟩ := hl.recorded_below r hold
      obtain ⟨st', hst', -⟩ := (hslot r).recorded o st hrr
      exact ⟨_, hst'⟩
    · rcases hnext with hsame | ⟨hsucc, hfilled⟩
      · rw [hsame] at hr
        exact absurd hr hold
      · have heq : r = s.nextResourceId := by
          rw [hsucc] at hr
          exact Nat.le_antisymm (Nat.le_of_lt_succ hr) (Nat.le_of_not_lt hold)
        rwa [heq]
  · cases hrr : s.resources r with
    | none =>
        rcases (hslot r).unrecorded hrr with hnone | ⟨-, -, o', hr', hlive, hkeeps⟩
        · simp [hnone] at hr
        · obtain rfl : o' = o := by simpa [hr'] using hr
          exact ownerLive_step h h' hadv hlive hkeeps
    | some rr =>
        obtain ⟨o', st⟩ := rr
        obtain ⟨st', hr', hstage⟩ := (hslot r).recorded o' st hrr
        obtain ⟨rfl, rfl⟩ : o' = o ∧ st' = .allocated := by simpa [hr'] using hr
        cases hstage with
        | keep hkeep =>
            exact ownerLive_step h h' hadv (hl.allocated_live r o' hrr) fun hf ↦ hkeep hf rfl
  · cases hrr : s.resources r with
    | none =>
        rcases (hslot r).unrecorded hrr with hnone | ⟨-, -, o', hr', -⟩
        · simp [hnone] at hr
        · simp [hr'] at hr
    | some rr =>
        obtain ⟨o', st⟩ := rr
        obtain ⟨st', hr', hstage⟩ := (hslot r).recorded o' st hrr
        obtain ⟨rfl, rfl⟩ : o' = o ∧ st' = .closing := by simpa [hr'] using hr
        cases hstage with
        | keep hkeep => exact ownerClosed_step h h' hadv (hl.closing_closed r o' hrr)
        | close hforfeits => exact ownerClosed_of_forfeits h' hadv hforfeits

/-- Both invariants survive every run. -/
theorem Located.run_sound {s : RuntimeState} {p : TaskId → Phase} (h : Located s p)
    (hl : LedgerSound s) (ops : List RuntimeOp) :
    (∃ p', Located (run s ops) p') ∧ LedgerSound (run s ops) := by
  refine run_preserves (P := fun s ↦ (∃ p', Located s p') ∧ LedgerSound s) ?_ s ops ⟨⟨p, h⟩, hl⟩
  rintro s' op ⟨⟨p', h'⟩, hl'⟩
  obtain ⟨p'', h'', -⟩ := h'.step op
  exact ⟨⟨p'', h''⟩, hl'.step h' op⟩

theorem reachable_ledgerSound (ops : List RuntimeOp) :
    LedgerSound (run RuntimeState.init ops) :=
  (located_init.run_sound ledgerSound_init ops).2

end Henret
