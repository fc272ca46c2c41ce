import Henret.Lib.Mailroom
import Henret.Runtime.CleanStop

/-!
# The accounts of the resource ledger

Seen as a mailroom, each owner has a list of open handles: acquiring a resource
posts a fresh handle to its owner, and `release`, `releaseActor` or `finalize`
takes it out.  No handle changes owner, none is released twice, and a drained
stop is accepted only when every handle ever acquired has been released.
-/

namespace Henret

open Mailroom

/-- The owner of a resource that is not released. -/
def holder (s : RuntimeState) (r : ResourceId) : Option ResourceOwner :=
  match s.resources r with
  | some ⟨_, .released⟩ => none
  | some ⟨o, _⟩ => some o
  | none => none

/-- The open handles of `o`, oldest first. -/
def handles (s : RuntimeState) (o : ResourceOwner) : List ResourceId :=
  (List.range s.nextResourceId).filter fun r ↦ holder s r = some o

/-- The handle that an operation moves, read off the operation and its result. -/
def handleMove (s : RuntimeState) (op : RuntimeOp) : Move ResourceOwner ResourceId :=
  match op, (step s op).2 with
  | .acquire t, .acquired r => .post (.task t) r
  | .acquireActor a, .acquired r => .post (.actor a) r
  | .release t r, .ok => .take (.task t) r
  | .releaseActor a r, .ok => .take (.actor a) r
  | .finalize r, .ok =>
      match holder s r with
      | some o => .take o r
      | none => .idle
  | _, _ => .idle

/-- The handles that a run moves. -/
def handleTrace (s : RuntimeState) : List RuntimeOp → List (Move ResourceOwner ResourceId)
  | [] => []
  | op :: ops => handleMove s op :: handleTrace (step s op).1 ops

/-! ## One step -/

/-- What a move does to the holders and the id counter. -/
inductive HandleStep (s s' : RuntimeState) : Move ResourceOwner ResourceId → Prop where
  | idle (hnext : s'.nextResourceId = s.nextResourceId) (hholder : holder s' = holder s) :
      HandleStep s s' .idle
  | post {o : ResourceOwner} (hnext : s'.nextResourceId = s.nextResourceId + 1)
      (hholder : holder s' = upd (holder s) s.nextResourceId (some o)) :
      HandleStep s s' (.post o s.nextResourceId)
  | take {o : ResourceOwner} {r : ResourceId} (hnext : s'.nextResourceId = s.nextResourceId)
      (hheld : holder s r = some o) (hholder : holder s' = upd (holder s) r none) :
      HandleStep s s' (.take o r)

section Step

variable {s s' : RuntimeState}

theorem holder_congr (h : s'.resources = s.resources) : holder s' = holder s := by
  funext r
  rw [holder, holder, h]

/-- Closing a resource does not end its handle. -/
theorem holder_mark {q : ResourceOwner → Bool}
    (h : s'.resources = markClosingIfOwner q s.resources) : holder s' = holder s := by
  funext r
  rw [holder, holder, h, markClosingIfOwner]
  rcases s.resources r with _ | ⟨o, _ | _ | _⟩
  · rfl
  · by_cases hq : q o = true <;> simp [hq]
  · rfl
  · rfl

theorem holder_acquire {o : ResourceOwner} {n : ResourceId}
    (h : s'.resources = upd s.resources n (some ⟨o, .allocated⟩)) :
    holder s' = upd (holder s) n (some o) := by
  funext r
  by_cases hr : r = n
  · subst hr
    rw [upd_self, holder, h, upd_self]
  · rw [upd_ne _ _ hr, holder, h, upd_ne _ _ hr, holder]

theorem holder_release {o : ResourceOwner} {n : ResourceId}
    (h : s'.resources = upd s.resources n (some ⟨o, .released⟩)) :
    holder s' = upd (holder s) n none := by
  funext r
  by_cases hr : r = n
  · subst hr
    rw [upd_self, holder, h, upd_self]
  · rw [upd_ne _ _ hr, holder, h, upd_ne _ _ hr, holder]

/-- A ledger operation records or releases one resource, or is rejected. -/
theorem step_acquire_cases (s : RuntimeState) (op : RuntimeOp) (o : ResourceOwner)
    (hop : (∃ t, op = .acquire t ∧ o = .task t) ∨ ∃ a, op = .acquireActor a ∧ o = .actor a) :
    step s op = ({ s with
        resources := upd s.resources s.nextResourceId (some ⟨o, .allocated⟩)
        nextResourceId := s.nextResourceId + 1 }, .acquired s.nextResourceId) ∨
      step s op = (s, .invalid) := by
  obtain ⟨t, rfl, rfl⟩ | ⟨a, rfl, rfl⟩ := hop
  all_goals
    simp only [step]
    repeat' split
    all_goals first
      | exact Or.inl rfl
      | exact Or.inr rfl

theorem step_release_cases (s : RuntimeState) (op : RuntimeOp) (r : ResourceId)
    (hop : (∃ t, op = .release t r) ∨ (∃ a, op = .releaseActor a r) ∨ op = .finalize r) :
    (∃ o, holder s r = some o ∧ (∀ t, op = .release t r → o = .task t) ∧
      (∀ a, op = .releaseActor a r → o = .actor a) ∧
      step s op = ({ s with resources := upd s.resources r (some ⟨o, .released⟩) }, .ok)) ∨
      step s op = (s, .invalid) := by
  obtain ⟨t, rfl⟩ | ⟨a, rfl⟩ | rfl := hop
  all_goals
    simp only [step]
    repeat' split
    all_goals first
      | exact Or.inr rfl
      | refine Or.inl ⟨_, ?_, ?_, ?_, rfl⟩ <;> simp_all [holder]

theorem step_handles (s : RuntimeState) (op : RuntimeOp) :
    HandleStep s (step s op).1 (handleMove s op) := by
  cases hfree : LedgerFree op with
  | true =>
      obtain ⟨hres, hnext, -⟩ := step_ledgerFree s hfree
      have hidle : handleMove s op = .idle := by
        cases op with
        | complete _ | cancel _ | fail _ | cancelTree _ | closeActor _ | acquire _
        | acquireActor _ | releaseActor _ _ | release _ _ | finalize _ => simp [LedgerFree] at hfree
        | _ => rfl
      rw [hidle]
      exact .idle hnext (holder_congr hres)
  | false =>
      cases op with
      | cancelTree root => exact .idle rfl (holder_mark rfl)
      | complete t | cancel t | fail t | closeActor a =>
          simp only [handleMove, step]
          repeat' split
          all_goals first
            | exact .idle rfl rfl
            | exact .idle rfl (holder_mark rfl)
      | acquire t =>
          obtain hstep | hstep := step_acquire_cases s _ _ (Or.inl ⟨t, rfl, rfl⟩)
          · simpa [handleMove, hstep] using HandleStep.post rfl (holder_acquire rfl)
          · simpa [handleMove, hstep] using HandleStep.idle rfl rfl
      | acquireActor a =>
          obtain hstep | hstep := step_acquire_cases s _ _ (Or.inr ⟨a, rfl, rfl⟩)
          · simpa [handleMove, hstep] using HandleStep.post rfl (holder_acquire rfl)
          · simpa [handleMove, hstep] using HandleStep.idle rfl rfl
      | release t r =>
          obtain ⟨o, hheld, ho, -, hstep⟩ | hstep := step_release_cases s _ r (Or.inl ⟨t, rfl⟩)
          · obtain rfl := ho t rfl
            have hmove : handleMove s (.release t r) = .take (.task t) r := by
              simp [handleMove, hstep]
            rw [hmove, hstep]
            exact .take rfl hheld (holder_release rfl)
          · simpa [handleMove, hstep] using HandleStep.idle rfl rfl
      | releaseActor a r =>
          obtain ⟨o, hheld, -, ho, hstep⟩ | hstep :=
            step_release_cases s _ r (Or.inr (Or.inl ⟨a, rfl⟩))
          · obtain rfl := ho a rfl
            have hmove : handleMove s (.releaseActor a r) = .take (.actor a) r := by
              simp [handleMove, hstep]
            rw [hmove, hstep]
            exact .take rfl hheld (holder_release rfl)
          · simpa [handleMove, hstep] using HandleStep.idle rfl rfl
      | finalize r =>
          obtain ⟨o, hheld, -, -, hstep⟩ | hstep := step_release_cases s _ r (Or.inr (Or.inr rfl))
          · have hmove : handleMove s (.finalize r) = .take o r := by
              simp [handleMove, hstep, hheld]
            rw [hmove, hstep]
            exact .take rfl hheld (holder_release rfl)
          · simpa [handleMove, hstep] using HandleStep.idle rfl rfl
      | _ => simp [LedgerFree] at hfree

/-- A held resource is recorded below the id counter. -/
theorem LedgerSound.held_lt (hl : LedgerSound s) {r : ResourceId} {o : ResourceOwner}
    (h : holder s r = some o) : r < s.nextResourceId := by
  by_contra hge
  have hnone := hl.fresh_above r (Nat.le_of_not_lt hge)
  simp [holder, hnone] at h

theorem LedgerSound.mem_handles (hl : LedgerSound s) {r : ResourceId} {o : ResourceOwner} :
    r ∈ handles s o ↔ holder s r = some o := by
  rw [handles, List.mem_filter, List.mem_range, decide_eq_true_eq, and_iff_right_iff_imp]
  exact hl.held_lt

/-- Taking an element out of a duplicate-free list. -/
theorem exists_split_of_mem {α : Type} [DecidableEq α] {x : α} {l : List α} (hx : x ∈ l)
    (hl : l.Nodup) : ∃ a b, l = a ++ x :: b ∧ l.filter (fun y ↦ y ≠ x) = a ++ b := by
  obtain ⟨a, b, rfl⟩ := List.append_of_mem hx
  obtain ⟨-, hcons, hdisjoint⟩ := List.nodup_append.mp hl
  refine ⟨a, b, rfl, ?_⟩
  rw [List.filter_append, Occupancy.filter_ne_head hcons, List.filter_eq_self.mpr]
  intro y hy
  exact decide_eq_true (hdisjoint y hy x List.mem_cons_self)

/-- The handles of every owner move as the mailroom says. -/
theorem HandleStep.performs {m : Move ResourceOwner ResourceId} (h : HandleStep s s' m)
    (hl : LedgerSound s) : Performs (fun _ ↦ True) (handles s) m (handles s') := by
  cases h with
  | idle hnext hholder =>
      have hsame : handles s' = handles s := by
        funext o
        rw [handles, handles, hnext, hholder]
      rw [hsame]
      exact .idle
  | @post o hnext hholder =>
      have hfresh : holder s s.nextResourceId = none := by
        simp [holder, hl.fresh_above _ le_rfl]
      have hpost : handles s' =
          Function.update (handles s) o (handles s o ++ [s.nextResourceId]) := by
        funext o'
        have hold : (List.range s.nextResourceId).filter (fun r ↦ holder s' r = some o') =
            handles s o' := by
          apply List.filter_congr
          intro r hr
          rw [hholder, upd_ne _ _ (List.mem_range.mp hr).ne]
        rw [handles, hnext, List.range_succ, List.filter_append, hold]
        by_cases ho : o' = o
        · subst ho
          simp [hholder]
        · rw [Function.update_of_ne ho]
          simp [hholder, Ne.symm ho]
      rw [hpost]
      exact .post o s.nextResourceId
  | @take o r hnext hheld hholder =>
      have hfilter : ∀ o', handles s' o' = (handles s o').filter (fun r' ↦ r' ≠ r) := by
        intro o'
        rw [handles, handles, hnext, List.filter_filter]
        apply List.filter_congr
        intro r' _
        by_cases hr : r' = r
        · simp [hr, hholder]
        · simp [hr, hholder, upd_ne _ _ hr]
      have hnodup : ∀ o', (handles s o').Nodup := fun o' ↦ List.nodup_range.filter _
      obtain ⟨a, b, hab, hrest⟩ := exists_split_of_mem (hl.mem_handles.mpr hheld) (hnodup o)
      have htake : handles s' = Function.update (handles s) o (a ++ b) := by
        funext o'
        rw [hfilter o']
        by_cases ho : o' = o
        · subst ho
          rw [hrest, Function.update_self]
        · rw [Function.update_of_ne ho, List.filter_eq_self]
          intro r' hr'
          apply decide_eq_true
          rintro rfl
          rw [hl.mem_handles, hheld, Option.some.injEq] at hr'
          exact ho hr'.symm
      rw [htake]
      exact .take hab trivial

end Step

/-! ## Whole runs -/

theorem run_handles (ops : List RuntimeOp) (s : RuntimeState) (p : TaskId → Phase)
    (h : Located s p) (hl : LedgerSound s) :
    Transfers (fun _ ↦ True) (handles s) (handleTrace s ops) (handles (run s ops)) := by
  induction ops generalizing s p with
  | nil => exact .nil
  | cons op ops ih =>
      obtain ⟨p', h', -⟩ := h.step op
      exact .cons ((step_handles s op).performs hl) (ih (step s op).1 p' h' (hl.step h op))

/-- Handles are numbered in the order of acquisition. -/
theorem run_handle_numbering (ops : List RuntimeOp) (s : RuntimeState) :
    ∃ n, (run s ops).nextResourceId = s.nextResourceId + n ∧
      (sent (handleTrace s ops)).map Prod.snd = List.range' s.nextResourceId n := by
  induction ops generalizing s with
  | nil => exact ⟨0, rfl, rfl⟩
  | cons op ops ih =>
      obtain ⟨n, hnext, hsent⟩ := ih (step s op).1
      rw [run_cons, handleTrace, sent_cons, List.map_append]
      have hstep := step_handles s op
      generalize handleMove s op = m at hstep ⊢
      cases hstep with
      | idle hkeep | take hkeep =>
          rw [hkeep] at hnext hsent
          exact ⟨n, hnext, hsent⟩
      | post hsucc =>
          rw [hsucc] at hnext hsent
          refine ⟨n + 1, by rw [hnext, Nat.add_assoc, Nat.add_comm 1 n], ?_⟩
          rw [List.range'_succ, ← hsent]
          rfl

theorem reachable_handle_numbering (ops : List RuntimeOp) :
    (sent (handleTrace RuntimeState.init ops)).map Prod.snd =
      List.range (run RuntimeState.init ops).nextResourceId := by
  obtain ⟨n, hnext, hsent⟩ := run_handle_numbering ops RuntimeState.init
  have hzero : RuntimeState.init.nextResourceId = 0 := rfl
  rw [hsent, hnext, hzero, Nat.zero_add, List.range_eq_range']

theorem reachable_handle_transfers (ops : List RuntimeOp) :
    Transfers (fun _ ↦ True) (fun _ ↦ []) (handleTrace RuntimeState.init ops)
      (handles (run RuntimeState.init ops)) :=
  run_handles ops RuntimeState.init _ located_init ledgerSound_init

theorem reachable_handle_keys (ops : List RuntimeOp) :
    ((sent (handleTrace RuntimeState.init ops)).map fun p ↦ id p.2).Nodup := by
  have hnumbers := reachable_handle_numbering ops
  have hid : (sent (handleTrace RuntimeState.init ops)).map (fun p ↦ id p.2) =
      (sent (handleTrace RuntimeState.init ops)).map Prod.snd := rfl
  rw [hid, hnumbers]
  exact List.nodup_range

/-- A recorded resource is released or held. -/
theorem held_or_released {s : RuntimeState} {r : ResourceId} {rr : ResourceRecord}
    (hr : s.resources r = some rr) :
    (holder s r = none ↔ s.ResourceReleased r) ∧
      (holder s r ≠ none → holder s r = some rr.owner) := by
  obtain ⟨o, st⟩ := rr
  cases st <;> simp [holder, RuntimeState.ResourceReleased, hr]

/-- In every run the resource ids acquired are `0, 1, 2, …` in order; every
owner got back, by one release each, exactly the handles it acquired and does
not hold any more; and the resources released so far are the ids that are
`released` in the ledger. -/
theorem reachable_accounts (ops : List RuntimeOp) :
    let s := run RuntimeState.init ops
    let ms := handleTrace RuntimeState.init ops
    (sent ms).map Prod.snd = List.range s.nextResourceId ∧
      (∀ o, (taken o ms ++ handles s o).Perm (posted o ms)) ∧
      ((received ms).map Prod.snd).Nodup ∧
      ∀ r, r ∈ (received ms).map Prod.snd ↔ s.ResourceReleased r := by
  have htransfers := reachable_handle_transfers ops
  have hkeys := reachable_handle_keys ops
  have hl := reachable_ledgerSound ops
  intro s ms
  refine ⟨reachable_handle_numbering ops, fun o ↦ by simpa using htransfers.perm o,
    htransfers.received_nodup hkeys, fun r ↦ ?_⟩
  have hposted : ∀ o, .post o r ∈ ms → r < s.nextResourceId := by
    intro o hpost
    rw [← List.mem_range, ← reachable_handle_numbering ops]
    exact List.mem_map_of_mem (mem_sent.mpr hpost)
  have hheld : ∀ o, .post o r ∈ ms ↔ .take o r ∈ ms ∨ holder s r = some o := by
    intro o
    rw [htransfers.post_iff, hl.mem_handles]
  constructor
  · intro hmem
    obtain ⟨⟨o, r'⟩, hreceived, rfl⟩ := List.mem_map.mp hmem
    have htake := mem_received.mp hreceived
    have hpost := (hheld o).mpr (Or.inl htake)
    obtain ⟨rr, hrr⟩ := hl.recorded_below _ (hposted o hpost)
    apply (held_or_released hrr).1.mp
    by_contra hne
    have howner := (held_or_released hrr).2 hne
    have hpost' := (hheld rr.owner).mpr (Or.inr howner)
    obtain ⟨rfl, -⟩ := post_unique hkeys hpost hpost' rfl
    exact htransfers.not_taken_and_held hkeys htake (hl.mem_handles.mpr howner) rfl
  · rintro ⟨rr, hrr, hreleased⟩
    have hnone := (held_or_released hrr).1.mpr ⟨rr, hrr, hreleased⟩
    have hsent : r ∈ (sent ms).map Prod.snd := by
      rw [reachable_handle_numbering ops, List.mem_range]
      exact hl.lt_next hrr
    obtain ⟨⟨o, r'⟩, hmem, rfl⟩ := List.mem_map.mp hsent
    rcases (hheld o).mp (mem_sent.mp hmem) with htake | hholder
    · exact List.mem_map.mpr ⟨(o, _), mem_received.mpr htake, rfl⟩
    · rw [hnone] at hholder
      cases hholder

/-- A drained stop is accepted only with balanced accounts: every handle that an
owner ever acquired has been released, as a handle of that owner, exactly once. -/
theorem reachable_drained_stop (ops : List RuntimeOp)
    (hstop : (step (run RuntimeState.init ops) .stopWhenDrained).2 = .ok) :
    (received (handleTrace RuntimeState.init ops)).Perm
      (sent (handleTrace RuntimeState.init ops)) := by
  have htransfers := reachable_handle_transfers ops
  have hkeys := reachable_handle_keys ops
  have hl := reachable_ledgerSound ops
  have hdrained : Drained (run RuntimeState.init ops) := by
    apply hl.drained_iff.mp
    by_contra hnot
    simp [step, hnot] at hstop
  have hempty : ∀ o r, r ∉ handles (run RuntimeState.init ops) o := by
    intro o r hr
    have hheld := hl.mem_handles.mp hr
    obtain ⟨rr, hrr⟩ := hl.recorded_below r (hl.held_lt hheld)
    rw [(held_or_released hrr).1.mpr ⟨rr, hrr, hdrained r rr hrr⟩] at hheld
    cases hheld
  rw [List.perm_ext_iff_of_nodup (htransfers.received_nodup hkeys).of_map hkeys.of_map]
  rintro ⟨o, r⟩
  rw [mem_received, mem_sent, htransfers.post_iff, or_iff_left (hempty o r)]

/-- A task and an actor each acquire and return a resource. -/
def tidyRun : List RuntimeOp :=
  [.spawn 7, .schedule, .acquire 0, .acquireActor 7, .release 0 0, .complete 0, .releaseActor 7 1]

theorem reachable_drained_stop_tidy :
    (received (handleTrace RuntimeState.init tidyRun)).Perm
      [(ResourceOwner.task 0, 0), (ResourceOwner.actor 7, 1)] := by
  have hsent : sent (handleTrace RuntimeState.init tidyRun) =
      [(ResourceOwner.task 0, 0), (ResourceOwner.actor 7, 1)] := by decide
  rw [← hsent]
  exact reachable_drained_stop tidyRun (by decide)

end Henret
