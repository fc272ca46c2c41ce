import Henret.Lib.Forest
import Henret.Runtime.Restart
import Henret.Runtime.Scheduling

/-!
# Supervision trees over whole runs

The recorded parents form a forest that only grows, and a new task hangs below
the running one.  `cancelTree` cancels exactly the live tasks of a subtree, and
as none of them runs again, nothing is ever attached to that subtree later.
-/

namespace Henret

open Forest

structure ForestSound (s : RuntimeState) : Prop where
  descending : Descending s.taskParent
  spawned : ∀ t q, s.taskParent t = some q → t < s.nextId
  recorded : ∀ t, t < s.nextId → s.taskState t ≠ none

/-- Every task below `root` has reached a terminal state. -/
def SubtreeClosed (s : RuntimeState) (root : TaskId) : Prop :=
  ∀ t, Descends s.taskParent root t → ∃ st, s.taskState t = some st ∧ st.isTerminal = true

/-! ## How the forest grows -/

theorem running_of_spawnChild {s : RuntimeState} {q t : TaskId} {a : ActorId}
    (h : (step s (.spawnChild q a)).2 = .spawned t) : s.running = some q := by
  by_contra hne
  simp [step, hne] at h

theorem running_of_restartOne {s : RuntimeState} {q c t : TaskId} {a : ActorId}
    (h : (step s (.restartOne q c a)).2 = .spawned t) : s.running = some q := by
  by_contra hne
  simp [step, hne] at h

/-- What one operation adds to the parents is one edge from the fresh id. -/
theorem TreeStep.parents {s s' : RuntimeState} {op : RuntimeOp} {r : StepResult}
    (h : TreeStep s s' op r) :
    s'.taskParent = s.taskParent ∨
      ∃ q, s'.taskParent = upd s.taskParent s.nextId (some q) ∧ s'.nextId = s.nextId + 1 ∧
        r = .spawned s.nextId ∧ ((∃ a, op = .spawnChild q a) ∨ ∃ c a, op = .restartOne q c a) := by
  cases h with
  | keep _ hparent | spawn _ hparent => exact Or.inl hparent
  | spawnChild hnext hparent => exact Or.inr ⟨_, hparent, hnext, rfl, Or.inl ⟨_, rfl⟩⟩
  | restart _ _ hnext hparent => exact Or.inr ⟨_, hparent, hnext, rfl, Or.inr ⟨_, _, rfl⟩⟩

/-- A new edge leads to the running task. -/
theorem step_parents (s : RuntimeState) (op : RuntimeOp) :
    (step s op).1.taskParent = s.taskParent ∨
      ∃ q, s.running = some q ∧ (step s op).1.nextId = s.nextId + 1 ∧
        (step s op).1.taskParent = upd s.taskParent s.nextId (some q) := by
  rcases (step_tree s op).parents with hsame | ⟨q, hparent, hnext, hresult, hop⟩
  · exact Or.inl hsame
  · refine Or.inr ⟨q, ?_, hnext, hparent⟩
    rcases hop with ⟨a, rfl⟩ | ⟨c, a, rfl⟩
    · exact running_of_spawnChild hresult
    · exact running_of_restartOne hresult

section Step

variable {s : RuntimeState} {p : TaskId → Phase} {root t : TaskId}

theorem forestSound_init : ForestSound RuntimeState.init where
  descending := fun t q h ↦ by cases h
  spawned := fun t q h ↦ by cases h
  recorded := fun t h ↦ absurd h (Nat.not_lt_zero t)

theorem ForestSound.step (hf : ForestSound s) (h : Located s p) (op : RuntimeOp) :
    ForestSound (step s op).1 := by
  have hle := (step_tree s op).nextId_le
  have hrecorded : ∀ t, t < (Henret.step s op).1.nextId →
      (Henret.step s op).1.taskState t ≠ none := by
    intro t ht
    by_cases hold : t < s.nextId
    · exact h.recorded_step (hf.recorded t hold) op
    · rcases step_nextId s op with hnext | ⟨hnext, hnew⟩
      · exact absurd (hnext ▸ ht) hold
      · have heq : t = s.nextId := by
          rw [hnext] at ht
          exact Nat.eq_of_lt_succ_of_not_lt ht hold
        simp [heq, hnew]
  rcases step_parents s op with hsame | ⟨q, hrun, hnext, hparent⟩
  · refine ⟨?_, fun t q ht ↦ ?_, hrecorded⟩
    · rw [hsame]
      exact hf.descending
    · rw [hsame] at ht
      exact lt_of_lt_of_le (hf.spawned t q ht) hle
  · have hq : q < s.nextId := by
      apply h.lt_nextId
      simp [h.phase_running hrun]
    refine ⟨fun t u ht ↦ ?_, fun t u ht ↦ ?_, hrecorded⟩
    · rw [hparent] at ht
      by_cases hfresh : t = s.nextId
      · subst hfresh
        rw [upd_self, Option.some.injEq] at ht
        exact ht ▸ hq
      · rw [upd_ne _ _ hfresh] at ht
        exact hf.descending t u ht
    · rw [hnext]
      rw [hparent] at ht
      by_cases hfresh : t = s.nextId
      · exact hfresh ▸ Nat.lt_succ_self _
      · rw [upd_ne _ _ hfresh] at ht
        exact (hf.spawned t u ht).trans (Nat.lt_succ_self _)

/-- Under a spawned root, one operation adds at most the fresh id, and only
below a running descendant. -/
theorem ForestSound.descends_step (hf : ForestSound s) (h : Located s p)
    (hroot : root < s.nextId) (op : RuntimeOp) (t : TaskId) :
    Descends (Henret.step s op).1.taskParent root t ↔ Descends s.taskParent root t ∨
      (t = s.nextId ∧ (Henret.step s op).1.taskParent ≠ s.taskParent ∧
        ∃ q, s.running = some q ∧ Descends s.taskParent root q) := by
  have habove : ∀ u, s.nextId ≤ u → ¬ Descends s.taskParent root u := by
    intro u hu hd
    rcases descends_iff.mp hd with rfl | ⟨q, hq, -⟩
    · exact Nat.not_lt.mpr hu hroot
    · exact Nat.not_lt.mpr hu (hf.spawned u q hq)
  rcases step_parents s op with hsame | ⟨q, hrun, hnext, hparent⟩
  · simp [hsame]
  · have hq : q < s.nextId := by
      apply h.lt_nextId
      simp [h.phase_running hrun]
    have hagree : ∀ u, u < s.nextId → (Henret.step s op).1.taskParent u = s.taskParent u := by
      intro u hu
      rw [hparent, upd_ne _ _ hu.ne]
    have hnew : (Henret.step s op).1.taskParent s.nextId = some q := by
      rw [hparent, upd_self]
    have hchanged : (Henret.step s op).1.taskParent ≠ s.taskParent := by
      intro heq
      rw [heq] at hnew
      exact lt_irrefl _ (hf.spawned _ _ hnew)
    rcases lt_trichotomy t s.nextId with hlt | rfl | hgt
    · rw [descends_congr hf.descending hagree hlt]
      simp [hlt.ne]
    · rw [descends_fresh hf.descending hagree hroot (by simp [hnew, hq])]
      simp [hnew, hrun, hchanged, habove s.nextId le_rfl]
    · have hnot : ¬ Descends (Henret.step s op).1.taskParent root t := by
        intro hd
        rcases descends_iff.mp hd with rfl | ⟨u, hu, -⟩
        · exact Nat.lt_asymm hgt hroot
        · rw [hparent, upd_ne _ _ hgt.ne'] at hu
          exact Nat.lt_asymm hgt (hf.spawned t u hu)
      simp [hnot, habove t hgt.le, hgt.ne']

/-- A closed subtree keeps its tasks, and they stay terminal. -/
theorem SubtreeClosed.step (hc : SubtreeClosed s root) (hf : ForestSound s) (h : Located s p)
    (hroot : root < s.nextId) (op : RuntimeOp) :
    SubtreeClosed (Henret.step s op).1 root ∧
      (∀ t, Descends (Henret.step s op).1.taskParent root t ↔ Descends s.taskParent root t) ∧
      ∀ t, Descends s.taskParent root t →
        (Henret.step s op).1.taskState t = s.taskState t := by
  have hsame : ∀ t, Descends (Henret.step s op).1.taskParent root t ↔
      Descends s.taskParent root t := by
    intro t
    rw [hf.descends_step h hroot, or_iff_left]
    -- the running task is not terminal, so it is outside the subtree
    rintro ⟨-, -, q, hrun, hd⟩
    obtain ⟨st, hst, hterm⟩ := hc q hd
    have hrunning := (Phase.shows_running_iff (h.shows_phase q)).mpr (h.phase_running hrun)
    rw [hrunning, Option.some.injEq] at hst
    simp [← hst, TaskState.isTerminal] at hterm
  have hstate : ∀ t, Descends s.taskParent root t →
      (Henret.step s op).1.taskState t = s.taskState t := by
    intro t hd
    obtain ⟨st, hst, hterm⟩ := hc t hd
    rw [hst]
    exact step_terminal h hst hterm op
  refine ⟨fun t hd ↦ ?_, hsame, hstate⟩
  have hd' := (hsame t).mp hd
  rw [hstate t hd']
  exact hc t hd'

/-! ## Cancelling a subtree -/

theorem isInSubtreeOf_iff (hlt : Descending s.taskParent) :
    isInSubtreeOf s root t = true ↔ Descends s.taskParent root t := by
  induction t using Nat.strong_induction_on with
  | _ t ih =>
      rw [isInSubtreeOf, descends_iff]
      by_cases hroot : t = root
      · simp [hroot]
      · cases hparent : s.taskParent t with
        | none => simp [hroot]
        | some q =>
            have hq := hlt t q hparent
            simp [hroot, hq, ih q hq]

theorem mem_descendantsOf_iff (hf : ForestSound s) (h : Located s p) :
    t ∈ descendantsOf s root ↔ s.taskState t ≠ none ∧ Descends s.taskParent root t := by
  rw [descendantsOf, List.mem_filter, List.mem_range, Bool.and_eq_true, bne_iff_ne,
    isInSubtreeOf_iff hf.descending]
  apply and_iff_right_of_imp
  rintro ⟨hspawned, -⟩
  apply h.lt_nextId
  rwa [ne_eq, ← Phase.shows_none_iff (h.shows_phase t)]

theorem ForestSound.recorded_of_descends (hf : ForestSound s) (hroot : root < s.nextId)
    (hd : Descends s.taskParent root t) : s.taskState t ≠ none := by
  apply hf.recorded
  rcases descends_iff.mp hd with rfl | ⟨q, hq, -⟩
  · exact hroot
  · exact hf.spawned t q hq

theorem cancelTree_state (t : TaskId) :
    (step s (.cancelTree root)).1.taskState t =
      if t ∈ descendantsOf s root then
        (s.taskState t).map fun st ↦ if st.isTerminal then st else .cancelled
      else s.taskState t := by
  simp only [step, applyCancelTree]
  split
  · cases s.taskState t with
    | none => rfl
    | some st => cases hterm : st.isTerminal <;> simp [hterm]
  · rfl

/-- `cancelTree` of a spawned root closes its subtree. -/
theorem subtreeClosed_cancelTree (hf : ForestSound s) (h : Located s p) (hroot : root < s.nextId) :
    SubtreeClosed (step s (.cancelTree root)).1 root := by
  intro t hd
  have hspawned := hf.recorded_of_descends hroot hd
  obtain ⟨st, hst⟩ := Option.ne_none_iff_exists'.mp hspawned
  rw [cancelTree_state, if_pos ((mem_descendantsOf_iff hf h).mpr ⟨hspawned, hd⟩), hst]
  cases hterm : st.isTerminal with
  | true => exact ⟨st, by simp [hterm], hterm⟩
  | false => exact ⟨.cancelled, by simp [hterm], rfl⟩

/-- A terminal task is listed nowhere. -/
theorem Located.notMem_of_terminal (h : Located s p) {st : TaskState}
    (hst : s.taskState t = some st) (hterm : st.isTerminal = true) (x : Slot) :
    t ∉ queueOf s x := by
  have hfin : p t = .finished :=
    (Phase.shows_terminal_iff (h.shows_phase t)).mp (by simp [hst, hterm])
  rw [h.tracks.mem_iff, hfin]
  simp [Phase.Holds]

end Step

/-! ## Whole runs -/

/-- A closed subtree is frozen in every run: the same tasks, in the same states. -/
theorem SubtreeClosed.run {root : TaskId} (ops : List RuntimeOp) (s : RuntimeState)
    (p : TaskId → Phase) (hc : SubtreeClosed s root) (hf : ForestSound s) (h : Located s p)
    (hroot : root < s.nextId) :
    (∀ t, Descends (run s ops).taskParent root t ↔ Descends s.taskParent root t) ∧
      (∀ t, Descends s.taskParent root t → (run s ops).taskState t = s.taskState t) ∧
      ∀ t, Descends s.taskParent root t → .scheduled t ∉ (runTrace s ops).2 := by
  induction ops generalizing s p with
  | nil => exact ⟨fun _ ↦ Iff.rfl, fun _ _ ↦ rfl, fun _ _ ↦ List.not_mem_nil⟩
  | cons op ops ih =>
      obtain ⟨p', h', -⟩ := h.step op
      obtain ⟨hc', hsame, hstate⟩ := hc.step hf h hroot op
      have hroot' := lt_of_lt_of_le hroot (step_tree s op).nextId_le
      obtain ⟨hsame', hstate', hquiet⟩ := ih _ p' hc' (hf.step h op) h' hroot'
      refine ⟨fun t ↦ (hsame' t).trans (hsame t), fun t hd ↦ ?_, fun t hd ↦ ?_⟩
      · rw [run_cons, hstate' t ((hsame t).mpr hd), hstate t hd]
      · rw [runTrace_cons_snd, List.mem_cons, not_or]
        refine ⟨fun hsched ↦ ?_, hquiet t ((hsame t).mpr hd)⟩
        obtain ⟨st, hst, hterm⟩ := hc t hd
        exact h.notMem_of_terminal hst hterm .ready (mem_readyQ_of_scheduled hsched.symm)

/-- The forest of every reachable state is sound. -/
theorem reachable_forestSound (ops : List RuntimeOp) :
    ForestSound (run RuntimeState.init ops) := by
  have hstep : ∀ s op, (∃ p, Located s p) ∧ ForestSound s →
      (∃ p, Located (step s op).1 p) ∧ ForestSound (step s op).1 := by
    rintro s op ⟨⟨p, h⟩, hf⟩
    obtain ⟨p', h', -⟩ := h.step op
    exact ⟨⟨p', h'⟩, hf.step h op⟩
  exact (run_preserves hstep _ ops ⟨⟨_, located_init⟩, forestSound_init⟩).2

theorem queueOf_cancelTree (s : RuntimeState) (root : TaskId) (x : Slot) :
    queueOf (step s (.cancelTree root)).1 x =
      (queueOf s x).filter (fun t ↦ t ∉ descendantsOf s root) := by
  cases x with
  | running =>
      simp only [queueOf, step, applyCancelTree]
      cases s.running with
      | none => simp
      | some u => by_cases hu : u ∈ descendantsOf s root <;> simp [hu]
  | timer =>
      simp only [queueOf, step, applyCancelTree, List.filter_map]
      rfl
  | _ => rfl

/-- `cancelTree` of a spawned root touches no task outside the subtree.  The
subtree itself is settled for the rest of every run: it gains no task, its live
tasks are cancelled and its terminal ones as they were, none of them is listed
anywhere, and none is ever dispatched again. -/
theorem reachable_cancelTree (ops later : List RuntimeOp) (root : TaskId)
    (hroot : (run RuntimeState.init ops).taskState root ≠ none) :
    let s := run RuntimeState.init ops
    let s₁ := (step s (.cancelTree root)).1
    (∀ t, ¬ Descends s.taskParent root t → s₁.taskState t = s.taskState t ∧
        ∀ x, t ∈ queueOf s₁ x ↔ t ∈ queueOf s x) ∧
      (∀ t, Descends (run s₁ later).taskParent root t ↔ Descends s.taskParent root t) ∧
      (∀ t, Descends s.taskParent root t → ∃ st, s.taskState t = some st ∧
        (run s₁ later).taskState t = some (if st.isTerminal then st else .cancelled)) ∧
      (∀ t, Descends s.taskParent root t → ∀ x, t ∉ queueOf (run s₁ later) x) ∧
      ∀ t, Descends s.taskParent root t → .scheduled t ∉ (runTrace s₁ later).2 := by
  obtain ⟨p, h⟩ := reachable_located ops
  have hf := reachable_forestSound ops
  set s := run RuntimeState.init ops with hs
  intro s' s₁
  have hlt : root < s.nextId := by
    apply h.lt_nextId
    rwa [ne_eq, ← Phase.shows_none_iff (h.shows_phase root)]
  have hmem : ∀ t, t ∈ descendantsOf s root ↔ Descends s.taskParent root t := by
    intro t
    rw [mem_descendantsOf_iff hf h, and_iff_right_of_imp]
    exact fun hd ↦ hf.recorded_of_descends hlt hd
  obtain ⟨p₁, h₁, -⟩ := h.step (.cancelTree root)
  have hclosed : SubtreeClosed s₁ root := subtreeClosed_cancelTree hf h hlt
  have hlt₁ : root < s₁.nextId := hlt
  obtain ⟨hsame, hstate, hquiet⟩ := hclosed.run later s₁ p₁ (hf.step h _) h₁ hlt₁
  have hcancelled : ∀ t, Descends s.taskParent root t → ∃ st, s.taskState t = some st ∧
      (run s₁ later).taskState t = some (if st.isTerminal then st else .cancelled) := by
    intro t hd
    obtain ⟨st, hst⟩ := Option.ne_none_iff_exists'.mp (hf.recorded_of_descends hlt hd)
    refine ⟨st, hst, ?_⟩
    rw [hstate t hd, cancelTree_state, if_pos ((hmem t).mpr hd), hst]
    rfl
  refine ⟨fun t hnot ↦ ⟨?_, fun x ↦ ?_⟩, hsame, hcancelled, fun t hd x ↦ ?_, hquiet⟩
  · rw [cancelTree_state, if_neg (fun ht ↦ hnot ((hmem t).mp ht))]
  · rw [queueOf_cancelTree, List.mem_filter, and_iff_left]
    exact decide_eq_true fun ht ↦ hnot ((hmem t).mp ht)
  · obtain ⟨st, -, hst⟩ := hcancelled t hd
    obtain ⟨p', h'⟩ := h₁.located_run later
    apply h'.notMem_of_terminal hst
    split
    · assumption
    · rfl

/-- Task 0 has the child 1 and the grandchild 3; task 2 is nobody's child. -/
def familyRun : List RuntimeOp :=
  [.spawn 7, .schedule, .spawnChild 0 9, .spawn 8, .yield 0, .schedule, .spawnChild 1 9]

theorem reachable_cancelTree_family :
    Descends (run RuntimeState.init familyRun).taskParent 0 3 ∧
      (run (step (run RuntimeState.init familyRun) (.cancelTree 0)).1
        [.schedule, .schedule]).taskState 3 = some .cancelled ∧
      .scheduled 3 ∉ (runTrace (step (run RuntimeState.init familyRun) (.cancelTree 0)).1
        [.schedule, .schedule]).2 := by
  have hd : Descends (run RuntimeState.init familyRun).taskParent 0 3 :=
    ((Descends.refl 0).child (q := 0) (t := 1) rfl).child rfl
  obtain ⟨-, -, hstate, -, hquiet⟩ :=
    reachable_cancelTree familyRun [.schedule, .schedule] 0 (by decide)
  obtain ⟨st, hst, hlater⟩ := hstate 3 hd
  obtain rfl : TaskState.new = st := Option.some.inj hst
  exact ⟨hd, hlater, hquiet 3 hd⟩

end Henret
