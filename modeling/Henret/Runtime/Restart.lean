import Henret.Runtime.Lifecycle

/-!
# Restart provenance over whole runs

`restartOne` has no memory of earlier restarts: a supervisor may replace one
failed child again and again.  What every run does record faithfully is who
replaced whom: the tasks whose provenance names `c` are the ids that the
successful restarts of `c` returned, all different, each a younger sibling of
the failed `c`.
-/

namespace Henret

/-- What one operation does to the ids, the parents and the provenance. -/
inductive TreeStep (s s' : RuntimeState) : RuntimeOp → StepResult → Prop where
  | keep {op : RuntimeOp} {r : StepResult} (hnext : s'.nextId = s.nextId)
      (hparent : s'.taskParent = s.taskParent) (hrestart : s'.restartOf = s.restartOf)
      (hquiet : ∀ q c a, op = .restartOne q c a → r = .invalid) : TreeStep s s' op r
  | spawn {a : ActorId} (hnext : s'.nextId = s.nextId + 1)
      (hparent : s'.taskParent = s.taskParent) (hrestart : s'.restartOf = s.restartOf) :
      TreeStep s s' (.spawn a) (.spawned s.nextId)
  | spawnChild {q : TaskId} {a : ActorId} (hnext : s'.nextId = s.nextId + 1)
      (hparent : s'.taskParent = upd s.taskParent s.nextId (some q))
      (hrestart : s'.restartOf = s.restartOf) :
      TreeStep s s' (.spawnChild q a) (.spawned s.nextId)
  | restart {q c : TaskId} {a : ActorId} (hchild : s.taskParent c = some q)
      (hfailed : s.taskState c = some .failed) (hnext : s'.nextId = s.nextId + 1)
      (hparent : s'.taskParent = upd s.taskParent s.nextId (some q))
      (hrestart : s'.restartOf = upd s.restartOf s.nextId (some c)) :
      TreeStep s s' (.restartOne q c a) (.spawned s.nextId)

theorem deliver_tree (s : RuntimeState) (b : ActorId) (mb : Mailbox) (env : Envelope) :
    (deliver s b mb env).nextId = s.nextId ∧
      (deliver s b mb env).taskParent = s.taskParent ∧
        (deliver s b mb env).restartOf = s.restartOf := by
  unfold deliver
  split
  · exact ⟨rfl, rfl, rfl⟩
  · split <;> exact ⟨rfl, rfl, rfl⟩

theorem step_tree (s : RuntimeState) (op : RuntimeOp) :
    TreeStep s (step s op).1 op (step s op).2 := by
  have hreceive : ∀ t dequeue, (receiveWith s t dequeue).1.nextId = s.nextId ∧
      (receiveWith s t dequeue).1.taskParent = s.taskParent ∧
        (receiveWith s t dequeue).1.restartOf = s.restartOf := by
    intro t dequeue
    unfold receiveWith
    repeat' split
    all_goals exact ⟨rfl, rfl, rfl⟩
  cases op with
  | receive t => exact .keep (hreceive t _).1 (hreceive t _).2.1 (hreceive t _).2.2 (by simp)
  | receiveByOccurrence t occ =>
      exact .keep (hreceive t _).1 (hreceive t _).2.1 (hreceive t _).2.2 (by simp)
  | receiveFrom t src =>
      exact .keep (hreceive t _).1 (hreceive t _).2.1 (hreceive t _).2.2 (by simp)
  | send t b m =>
      simp only [step]
      repeat' split
      all_goals first
        | exact .keep rfl rfl rfl (by simp)
        | exact .keep (deliver_tree ..).1 (deliver_tree ..).2.1 (deliver_tree ..).2.2 (by simp)
  | inject b m =>
      simp only [step]
      repeat' split
      all_goals first
        | exact .keep rfl rfl rfl (by simp)
        | exact .keep (deliver_tree ..).1 (deliver_tree ..).2.1 (deliver_tree ..).2.2 (by simp)
  | restartOne q c a =>
      simp only [step]
      repeat' split
      all_goals first
        | exact .keep rfl rfl rfl (fun _ _ _ _ ↦ rfl)
        | exact .restart ‹_› ‹_› rfl rfl rfl
  | _ =>
      simp only [step]
      repeat' split
      all_goals first
        | exact .keep rfl rfl rfl (by simp)
        | exact .spawn rfl rfl rfl
        | exact .spawnChild rfl rfl rfl

/-! ## Terminal states are final -/

section Terminal

variable {s : RuntimeState} {p : TaskId → Phase} {c : TaskId} {st : TaskState}

theorem Located.ne_finished (h : Located s p) {t : TaskId} {st' : TaskState}
    (hst : s.taskState t = some st') (hterm : st'.isTerminal = false) : p t ≠ .finished := by
  rw [ne_eq, ← Phase.shows_terminal_iff (h.shows_phase t), hst]
  simp [hterm]

theorem deliver_terminal (h : Located s p) (hc : p c = .finished) (b : ActorId) (mb : Mailbox)
    (env : Envelope) : (deliver s b mb env).taskState c = s.taskState c := by
  unfold deliver
  split
  · rename_i w ws hw
    have hmem : w ∈ s.mailboxWaiters b := by simp [hw]
    have hne : c ≠ w := by
      rintro rfl
      simp [h.phase_waiting hmem] at hc
    exact upd_ne _ _ hne
  · split
    · rename_i w ws hw
      have hmem : w ∈ s.timedMailboxWaiters b := by simp [hw]
      have hne : c ≠ w := by
        rintro rfl
        simp [h.phase_timed hmem] at hc
      exact upd_ne _ _ hne
    · rfl

/-- No operation moves a task out of a terminal state. -/
theorem step_terminal (h : Located s p) (hc : s.taskState c = some st)
    (hterm : st.isTerminal = true) (op : RuntimeOp) :
    (step s op).1.taskState c = some st := by
  have hfin : p c = .finished :=
    (Phase.shows_terminal_iff (h.shows_phase c)).mp (by simp [hc, hterm])
  have hupd : ∀ t st', p t ≠ .finished → upd s.taskState t st' c = some st := by
    intro t st' ht
    have hne : c ≠ t := by
      rintro rfl
      exact ht hfin
    rw [upd_ne _ _ hne, hc]
  have hfresh : p s.nextId ≠ .finished := by simp [h.fresh_nextId]
  have hrun : ∀ t, s.running = some t → p t ≠ .finished := by
    intro t ht
    simp [h.phase_running ht]
  have hreceive : ∀ t dequeue, (receiveWith s t dequeue).1.taskState c = some st := by
    intro t dequeue
    unfold receiveWith
    repeat' split
    all_goals first
      | exact hc
      | exact hupd _ _ (hrun _ ‹_›)
  cases op with
  | schedule =>
      simp only [step]
      split
      · rename_i t q hnone hready
        split
        · have hmem : t ∈ s.readyQ := by simp [hready]
          exact hupd t _ (by simp [h.phase_queued hmem])
        · exact hc
      · exact hc
  | cancel t | fail t =>
      simp only [step]
      split
      · rename_i st' hst'
        cases hlive : st'.isTerminal with
        | true => simpa using hc
        | false => simpa [terminate] using hupd t _ (h.ne_finished hst' hlive)
      · exact hc
  | receive t => exact hreceive t _
  | receiveByOccurrence t occ => exact hreceive t _
  | receiveFrom t src => exact hreceive t _
  | tick now =>
      simp only [step]
      split
      · have hnot : c ∉ woken s now := by
          intro hmem
          rcases h.phase_woken hmem with hp | ⟨a, hp⟩ <;> simp [hp] at hfin
        exact (by simp [wakeExpired, wakeMany_apply, hnot, hc])
      · exact hc
  | wake t =>
      simp only [step]
      split
      · exact hupd t _ (h.ne_finished ‹_› rfl)
      · exact hc
  | cancelTree root =>
      simp only [step, applyCancelTree]
      split <;> simp [hc, hterm]
  | _ =>
      simp only [step]
      repeat' split
      all_goals first
        | exact hc
        | exact hupd _ _ hfresh
        | exact hupd _ _ (hrun _ ‹_›)
        | exact (deliver_terminal h hfin _ _ _).trans hc

end Terminal

/-! ## Recorded tasks -/

/-- The id counter moves only when it records a task at its old value. -/
theorem step_nextId (s : RuntimeState) (op : RuntimeOp) :
    (step s op).1.nextId = s.nextId ∨
      ((step s op).1.nextId = s.nextId + 1 ∧
        (step s op).1.taskState s.nextId = some .new) := by
  have hreceive : ∀ t dequeue, (receiveWith s t dequeue).1.nextId = s.nextId := by
    intro t dequeue
    unfold receiveWith
    repeat' split
    all_goals rfl
  cases op with
  | receive t => exact Or.inl (hreceive t _)
  | receiveByOccurrence t occ => exact Or.inl (hreceive t _)
  | receiveFrom t src => exact Or.inl (hreceive t _)
  | shutdown | cancelTree root => exact Or.inl rfl
  | _ =>
      simp only [step]
      repeat' split
      all_goals first
        | exact Or.inl rfl
        | exact Or.inl (deliver_tree ..).1
        | exact Or.inr ⟨rfl, upd_self _ _ _⟩

/-- A spawned task stays recorded. -/
theorem Located.recorded_step {s : RuntimeState} {p : TaskId → Phase} {t : TaskId}
    (h : Located s p) (ht : s.taskState t ≠ none) (op : RuntimeOp) :
    (Henret.step s op).1.taskState t ≠ none := by
  obtain ⟨p', h', hadvances⟩ := h.step op
  rw [ne_eq, Phase.shows_none_iff (h'.shows_phase t)]
  rw [ne_eq, Phase.shows_none_iff (h.shows_phase t)] at ht
  rcases hadvances.edge t with hsame | hedge
  · rwa [hsame]
  · exact hedge.target_ne_fresh

/-! ## Provenance -/

/-- The replacement that one operation made for `c`, by its result. -/
def restartsOf (c : TaskId) : RuntimeOp → StepResult → Option TaskId
  | .restartOne _ c' _, .spawned t => if c' = c then some t else none
  | _, _ => none

theorem restartsOf_eq_some {c t : TaskId} {op : RuntimeOp} {r : StepResult} :
    restartsOf c op r = some t ↔ ∃ q a, op = .restartOne q c a ∧ r = .spawned t := by
  cases op <;> cases r <;> simp [restartsOf]

/-- The ids that the successful `restartOne` operations on `c` returned, in order. -/
def replacements (s : RuntimeState) (ops : List RuntimeOp) (c : TaskId) : List TaskId :=
  (ops.zip (runTrace s ops).2).filterMap fun x ↦ restartsOf c x.1 x.2

theorem replacements_cons (s : RuntimeState) (op : RuntimeOp) (ops : List RuntimeOp)
    (c : TaskId) :
    replacements s (op :: ops) c =
      (restartsOf c op (step s op).2).toList ++ replacements (step s op).1 ops c := by
  cases h : restartsOf c op (step s op).2 <;> simp [replacements, h]

/-- A recorded replacement is spawned, and a younger sibling of the failed task
it replaces. -/
structure RestartSound (s : RuntimeState) : Prop where
  spawned : ∀ t c, s.restartOf t = some c → t < s.nextId ∧ ∃ st, s.taskState t = some st
  younger : ∀ t c, s.restartOf t = some c → c < t
  failed : ∀ t c, s.restartOf t = some c → s.taskState c = some .failed
  siblings : ∀ t c, s.restartOf t = some c →
    ∃ q, s.taskParent t = some q ∧ s.taskParent c = some q

theorem restartSound_init : RestartSound RuntimeState.init := by
  refine ⟨?_, ?_, ?_, ?_⟩ <;> intro t c h <;> cases h

section Provenance

variable {s s' : RuntimeState} {op : RuntimeOp} {r : StepResult}

theorem TreeStep.nextId_le (h : TreeStep s s' op r) : s.nextId ≤ s'.nextId := by
  cases h with
  | keep hnext => exact hnext.ge
  | spawn hnext | spawnChild hnext | restart _ _ hnext => exact hnext ▸ Nat.le_succ _

/-- Parents of spawned tasks are permanent. -/
theorem TreeStep.parent_of_lt (h : TreeStep s s' op r) {t : TaskId} (ht : t < s.nextId) :
    s'.taskParent t = s.taskParent t := by
  have hne : t ≠ s.nextId := ne_of_lt ht
  cases h with
  | keep _ hparent | spawn _ hparent => rw [hparent]
  | spawnChild _ hparent | restart _ _ _ hparent => rw [hparent, upd_ne _ _ hne]

/-- One operation adds at most the replacement it returns to the provenance. -/
theorem TreeStep.restartOf_iff (h : TreeStep s s' op r)
    (hfresh : s.restartOf s.nextId = none) (t c : TaskId) :
    s'.restartOf t = some c ↔ s.restartOf t = some c ∨ restartsOf c op r = some t := by
  rw [restartsOf_eq_some]
  cases h with
  | keep _ _ hrestart hquiet =>
      rw [hrestart, or_iff_left]
      rintro ⟨q, a, hop, hr⟩
      simp [hquiet q c a hop] at hr
  | spawn _ _ hrestart | spawnChild _ _ hrestart => simp [hrestart]
  | restart hchild hfailed _ _ hrestart =>
      rw [hrestart]
      by_cases ht : t = s.nextId
      · subst ht
        simp [hfresh, eq_comm]
      · simp [upd_ne _ _ ht, Ne.symm ht]

/-- The replacement an operation returns is the next fresh id. -/
theorem TreeStep.restartsOf_fresh (h : TreeStep s s' op r) {t c : TaskId}
    (hr : restartsOf c op r = some t) :
    t = s.nextId ∧ s'.nextId = s.nextId + 1 ∧ s.taskState c = some .failed ∧
      ∃ q, s.taskParent c = some q ∧ s'.taskParent t = some q := by
  obtain ⟨q, a, hop, hspawned⟩ := restartsOf_eq_some.mp hr
  cases h with
  | keep _ _ _ hquiet => simp [hquiet q c a hop] at hspawned
  | spawn | spawnChild => simp at hop
  | restart hchild hfailed hnext hparent _ =>
      cases hop
      cases hspawned
      exact ⟨rfl, hnext, hfailed, q, hchild, by rw [hparent, upd_self]⟩

theorem TreeStep.unrecorded (h : TreeStep s s' op r)
    (hfresh : ∀ t, s.nextId ≤ t → s.restartOf t = none) (t : TaskId) (ht : s'.nextId ≤ t) :
    s'.restartOf t = none := by
  have hle : s.nextId ≤ t := h.nextId_le.trans ht
  by_contra hne
  obtain ⟨c, hc⟩ := Option.ne_none_iff_exists'.mp hne
  rcases (h.restartOf_iff (hfresh _ le_rfl) t c).mp hc with hold | hnew
  · simp [hfresh t hle] at hold
  · obtain ⟨rfl, hnext, -⟩ := h.restartsOf_fresh hnew
    rw [hnext] at ht
    exact Nat.not_succ_le_self _ ht

end Provenance

theorem RestartSound.unrecorded {s : RuntimeState} (h : RestartSound s) {t : TaskId}
    (ht : s.nextId ≤ t) : s.restartOf t = none := by
  cases hr : s.restartOf t with
  | none => rfl
  | some c => exact absurd (h.spawned t c hr).1 (Nat.not_lt.mpr ht)

theorem RestartSound.step {s : RuntimeState} {p : TaskId → Phase} (hs : RestartSound s)
    (h : Located s p) (op : RuntimeOp) : RestartSound (step s op).1 := by
  have htree := step_tree s op
  have hsplit := htree.restartOf_iff (hs.unrecorded le_rfl)
  have hfailed_lt : ∀ c, s.taskState c = some .failed → c < s.nextId := by
    intro c hc
    apply h.lt_nextId
    rw [ne_eq, ← Phase.shows_none_iff (h.shows_phase c), hc]
    simp
  refine ⟨fun t c ht ↦ ?_, fun t c ht ↦ ?_, fun t c ht ↦ ?_, fun t c ht ↦ ?_⟩ <;>
    rcases (hsplit t c).mp ht with hold | hnew
  · obtain ⟨hlt, st, hst⟩ := hs.spawned t c hold
    refine ⟨lt_of_lt_of_le hlt htree.nextId_le, Option.ne_none_iff_exists'.mp ?_⟩
    exact h.recorded_step (hst ▸ Option.some_ne_none st) op
  · obtain ⟨rfl, hnext, -⟩ := htree.restartsOf_fresh hnew
    refine ⟨hnext ▸ Nat.lt_succ_self _, .new, ?_⟩
    rcases step_nextId s op with hkeep | ⟨-, hnew⟩
    · exact absurd (hkeep.symm.trans hnext) (Nat.ne_of_lt (Nat.lt_succ_self _))
    · exact hnew
  · exact hs.younger t c hold
  · obtain ⟨rfl, -, hc, -⟩ := htree.restartsOf_fresh hnew
    exact hfailed_lt c hc
  · exact step_terminal h (hs.failed t c hold) rfl op
  · obtain ⟨-, -, hc, -⟩ := htree.restartsOf_fresh hnew
    exact step_terminal h hc rfl op
  · obtain ⟨q, hq, hq'⟩ := hs.siblings t c hold
    have hlt := (hs.spawned t c hold).1
    exact ⟨q, (htree.parent_of_lt hlt).trans hq,
      (htree.parent_of_lt ((hs.younger t c hold).trans hlt)).trans hq'⟩
  · obtain ⟨rfl, -, hc, q, hq, hq'⟩ := htree.restartsOf_fresh hnew
    exact ⟨q, hq', (htree.parent_of_lt (hfailed_lt c hc)).trans hq⟩

theorem reachable_restartSound (ops : List RuntimeOp) :
    RestartSound (run RuntimeState.init ops) := by
  have hstep : ∀ s op, (∃ p, Located s p) ∧ RestartSound s →
      (∃ p, Located (Henret.step s op).1 p) ∧ RestartSound (Henret.step s op).1 := by
    rintro s op ⟨⟨p, h⟩, hs⟩
    obtain ⟨p', h', -⟩ := h.step op
    exact ⟨⟨p', h'⟩, hs.step h op⟩
  exact (run_preserves hstep _ ops ⟨⟨_, located_init⟩, restartSound_init⟩).2

/-- The provenance of `c` after a run is that before it, together with the ids
the run's successful restarts of `c` returned; these are fresh and all different. -/
theorem run_restartOf (ops : List RuntimeOp) (c : TaskId) (s : RuntimeState)
    (hfresh : ∀ t, s.nextId ≤ t → s.restartOf t = none) :
    (∀ t, (run s ops).restartOf t = some c ↔
      s.restartOf t = some c ∨ t ∈ replacements s ops c) ∧
      (replacements s ops c).Nodup ∧ ∀ t ∈ replacements s ops c, s.nextId ≤ t := by
  induction ops generalizing s with
  | nil => simp [replacements]
  | cons op ops ih =>
      have htree := step_tree s op
      obtain ⟨hmem, hnodup, habove⟩ := ih (step s op).1 (htree.unrecorded hfresh)
      rw [replacements_cons]
      refine ⟨fun t ↦ ?_, ?_, fun t ht ↦ ?_⟩
      · rw [run_cons, hmem, htree.restartOf_iff (hfresh _ le_rfl), List.mem_append,
          Option.mem_toList, or_assoc]
      · cases hr : restartsOf c op (step s op).2 with
        | none => simpa using hnodup
        | some u =>
            obtain ⟨rfl, hnext, -⟩ := htree.restartsOf_fresh hr
            refine List.nodup_cons.mpr ⟨fun hu ↦ ?_, hnodup⟩
            have hle := habove _ hu
            rw [hnext] at hle
            exact Nat.not_succ_le_self _ hle
      · rcases List.mem_append.mp ht with hnew | hlater
        · obtain ⟨rfl, -⟩ := htree.restartsOf_fresh (Option.mem_toList.mp hnew)
          exact le_rfl
        · exact htree.nextId_le.trans (habove t hlater)

def RestartInjective (s : RuntimeState) : Prop :=
  ∀ t t' c, s.restartOf t = some c → s.restartOf t' = some c → t = t'

/-- In every run the provenance of `c` is exactly what its successful restarts
returned, so it is injective when and only when no child was restarted twice. -/
theorem reachable_restart_provenance (ops : List RuntimeOp) :
    RestartSound (run RuntimeState.init ops) ∧
      (∀ c, (replacements RuntimeState.init ops c).Nodup) ∧
      (∀ t c, (run RuntimeState.init ops).restartOf t = some c ↔
        t ∈ replacements RuntimeState.init ops c) ∧
      (RestartInjective (run RuntimeState.init ops) ↔
        ∀ c, (replacements RuntimeState.init ops c).length ≤ 1) := by
  have hrun := fun c ↦ run_restartOf ops c RuntimeState.init fun _ _ ↦ rfl
  have hmem : ∀ t c, (run RuntimeState.init ops).restartOf t = some c ↔
      t ∈ replacements RuntimeState.init ops c := by
    intro t c
    simpa [RuntimeState.init] using (hrun c).1 t
  refine ⟨reachable_restartSound ops, fun c ↦ (hrun c).2.1, hmem, ?_⟩
  unfold RestartInjective
  simp only [hmem]
  constructor
  · intro hinj c
    have hnodup := (hrun c).2.1
    rcases hc : replacements RuntimeState.init ops c with _ | ⟨t, _ | ⟨t', ts⟩⟩
    · simp
    · simp
    · rw [hc] at hnodup
      have heq : t = t' := hinj t t' c (by simp [hc]) (by simp [hc])
      simp [heq] at hnodup
  · intro hlen t t' c ht ht'
    have hle := hlen c
    rcases hc : replacements RuntimeState.init ops c with _ | ⟨u, _ | ⟨u', us⟩⟩
    · simp [hc] at ht
    · simp only [hc, List.mem_singleton] at ht ht'
      exact ht.trans ht'.symm
    · simp [hc] at hle

/-- Task 0 restarts its failed child 1 twice. -/
def restartTwice : List RuntimeOp :=
  [.spawn 7, .schedule, .spawnChild 0 9, .fail 1, .restartOne 0 1 9, .restartOne 0 1 9]

theorem not_restart_unique :
    replacements RuntimeState.init restartTwice 1 = [2, 3] ∧
      ¬ ∀ ops, RestartInjective (run RuntimeState.init ops) := by
  refine ⟨by decide, fun h ↦ ?_⟩
  exact absurd (h restartTwice 2 3 1 rfl rfl) (by decide)

end Henret
