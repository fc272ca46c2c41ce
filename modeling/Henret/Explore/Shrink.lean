import Henret.Bridge.Workers
import Henret.Explore.Generate
import Henret.Lib.Suffixes
import Henret.Runtime.Messages

/-!
# Searching for and shrinking counterexamples

A shrinking pass decides each deletion by the tail behind it alone.  Repeated
to a fixed point it therefore computes the least failing suffix of a program,
which need not be locally minimal.  What the search finds is locally minimal
already, because it tries shorter programs first.
-/

namespace Henret.Explore

open Suffixes Bridge

/-- A property over programs: `true` holds, `false` is violated. -/
abbrev Property := List RuntimeOp → Bool

def explore (w : SmallWorld) (depth : ℕ) (p : Property) : Option (List RuntimeOp) :=
  (genPrograms w depth).find? fun prog ↦ !p prog

def confirms (w : SmallWorld) (depth : ℕ) (p : Property) : Bool :=
  (explore w depth p).isNone

/-- One deletion pass; `op` is dropped when the property fails on the rest behind it. -/
def shrinkPass (p : Property) : List RuntimeOp → List RuntimeOp
  | [] => []
  | op :: rest => if !p rest then shrinkPass p rest else op :: shrinkPass p rest

/-- Repeat deletion passes until one changes nothing, at most `fuel` times. -/
def shrinkProgram (p : Property) (fuel : ℕ) (prog : List RuntimeOp) : List RuntimeOp :=
  match fuel with
  | 0 => prog
  | f + 1 =>
      let next := shrinkPass p prog
      if next.length < prog.length then shrinkProgram p f next else prog

def findAndShrink (w : SmallWorld) (depth : ℕ) (p : Property) : Option (List RuntimeOp) :=
  (explore w depth p).map (shrinkProgram p (depth + 1))

/-! ## The properties the explorer checks -/

def checkWellFormedBool (s : RuntimeState) : Bool :=
  let nodupReady := decide s.readyQ.Nodup
  let runningNotQueued :=
    match s.running with
    | some t => decide (t ∉ s.readyQ)
    | none => true
  nodupReady && runningNotQueued

def propWellFormed : Property := fun prog ↦ checkWellFormedBool (run RuntimeState.init prog)

/-- The occurrence ids waiting in the mailboxes of the world's actors. -/
def occurrenceIds (w : SmallWorld) (s : RuntimeState) : List MessageId :=
  (List.range w.maxActor).flatMap fun a ↦
    match s.mailboxes a with
    | some mb => mb.messages.map Envelope.occurrence
    | none => []

def checkOccUniqueBool (w : SmallWorld) (s : RuntimeState) : Bool :=
  decide (occurrenceIds w s).Nodup

def propOccurrenceUnique (w : SmallWorld) : Property := fun prog ↦
  checkOccUniqueBool w (run RuntimeState.init prog)

def checkBridgeBool (prog : List RuntimeOp) : Bool :=
  let s := run RuntimeState.init prog
  let wqs := applyQOps WorkerQueues.init (toQOpsTrace RuntimeState.init prog)
  wqs 0 == s.readyQ

def propBridge : Property := checkBridgeBool

/-- Deliberately false: a spawn fills the ready queue. -/
def propReadyAlwaysEmpty : Property := fun prog ↦ (run RuntimeState.init prog).readyQ.isEmpty

/-! ## What a shrink returns -/

section Shrink

variable {p : Property} {prog m : List RuntimeOp}

theorem shrinkPass_sublist (p : Property) (prog : List RuntimeOp) :
    (shrinkPass p prog).Sublist prog := by
  induction prog with
  | nil => exact List.Sublist.refl []
  | cons op rest ih =>
      rw [shrinkPass]
      split
      · exact ih.cons op
      · exact ih.cons_cons op

/-- A pass changes nothing when every proper suffix passes. -/
theorem shrinkPass_of_least (h : LeastFailing p prog prog) : shrinkPass p prog = prog := by
  have hkeep : ∀ m, m <:+ prog → shrinkPass p m = m := by
    intro m hm
    induction m with
    | nil => rfl
    | cons op rest ih =>
        have htail := ih ((List.suffix_cons op rest).trans hm)
        simp [shrinkPass, h.passes_of_cons_suffix hm, htail]
  exact hkeep prog (List.suffix_refl prog)

/-- A pass keeps the least failing suffix. -/
theorem suffix_shrinkPass (h : LeastFailing p prog m) : m <:+ shrinkPass p prog := by
  induction prog with
  | nil => exact h.suffix
  | cons op rest ih =>
      rcases List.suffix_cons_iff.mp h.suffix with rfl | hin
      · rw [shrinkPass_of_least h]
      · have htail := ih (h.of_suffix hin)
        rw [shrinkPass]
        split
        · exact htail
        · exact htail.trans (List.suffix_cons _ _)

/-- A pass drops at least the operation in front of the least failing suffix. -/
theorem shrinkPass_length_lt (h : LeastFailing p prog m) (hne : m ≠ prog) :
    (shrinkPass p prog).length < prog.length := by
  induction prog with
  | nil => exact absurd (List.suffix_nil.mp h.suffix) hne
  | cons op rest ih =>
      have hin : m <:+ rest := (List.suffix_cons_iff.mp h.suffix).resolve_left hne
      rw [shrinkPass]
      split
      · exact Nat.lt_succ_of_le (shrinkPass_sublist p rest).length_le
      · rename_i hpass
        have hrest : m ≠ rest := by
          rintro rfl
          simp [h.fails] at hpass
        exact Nat.succ_lt_succ (ih (h.of_suffix hin) hrest)

/-- With enough fuel shrinking returns the least failing suffix. -/
theorem shrinkProgram_eq (h : LeastFailing p prog m) {fuel : ℕ}
    (hfuel : prog.length ≤ fuel + m.length) : shrinkProgram p fuel prog = m := by
  induction fuel generalizing prog with
  | zero => exact (h.suffix.eq_of_length_le (by simpa using hfuel)).symm
  | succ f ih =>
      rw [shrinkProgram]
      by_cases hm : m = prog
      · subst hm
        simp [shrinkPass_of_least h]
      · have hlt := shrinkPass_length_lt h hm
        simp only [hlt, if_true]
        exact ih (h.of_suffix (suffix_shrinkPass h)) (by omega)

end Shrink

/-- `r` is a counterexample inside `prog` from which no operation can be deleted. -/
structure LocallyMinimal (p : Property) (prog r : List RuntimeOp) : Prop where
  sublist : r.Sublist prog
  fails : p r = false
  minimal : ∀ i < r.length, p (r.eraseIdx i) = true

/-- Shrinking yields a locally minimal counterexample exactly when the failing
suffix all of whose proper suffixes pass cannot lose an operation other than
its first. -/
theorem shrinkProgram_locallyMinimal_iff (p : Property) (prog : List RuntimeOp) (fuel : ℕ)
    (hfail : p prog = false) (hfuel : prog.length ≤ fuel) :
    LocallyMinimal p prog (shrinkProgram p fuel prog) ↔
      ∀ m, m <:+ prog → p m = false → (∀ m', m' <:+ m → m' ≠ m → p m' = true) →
        ∀ i, 0 < i → i < m.length → p (m.eraseIdx i) = true := by
  obtain ⟨m, hm⟩ := LeastFailing.exists_of_fails hfail
  rw [shrinkProgram_eq hm (by omega)]
  constructor
  · intro hmin m₁ hsuffix hfails hleast i _ hi
    have hm₁ : LeastFailing p prog m₁ := by
      refine ⟨hsuffix, hfails, fun m' hm' hfail' ↦ ?_⟩
      by_contra hne
      simp [hleast m' hm' hne] at hfail'
    obtain rfl := hm.unique hm₁
    exact hmin.minimal i hi
  · intro hrest
    refine ⟨hm.suffix.sublist, hm.fails, fun i hi ↦ ?_⟩
    rcases Nat.eq_zero_or_pos i with rfl | hpos
    · cases m with
      | nil => simp at hi
      | cons op rest => exact hm.passes_of_cons_suffix (List.suffix_refl _)
    · refine hrest m hm.suffix hm.fails (fun m' hm' hne ↦ ?_) i hpos hi
      rw [← Bool.not_eq_false]
      exact fun hfail' ↦ hne (hm.least m' hm' hfail')

/-- The wake is superfluous, but the tail behind the spawn passes without it. -/
theorem not_shrinkProgram_locallyMinimal :
    ¬ ∀ (p : Property) (prog : List RuntimeOp) (fuel : ℕ), p prog = false →
      prog.length ≤ fuel → LocallyMinimal p prog (shrinkProgram p fuel prog) := by
  intro h
  have hmin := (h propReadyAlwaysEmpty [.spawn 0, .wake 0] 2 (by decide) (by decide)).minimal 1
  exact absurd (hmin (by decide)) (by decide)

/-- The program leaves no task running. -/
def endsIdle : Property := fun prog ↦ decide ((run RuntimeState.init prog).running = none)

/-- The spawn and the second schedule are both needed to leave a task running. -/
theorem shrinkProgram_locallyMinimal_dispatch :
    LocallyMinimal endsIdle [.schedule, .spawn 0, .schedule]
      (shrinkProgram endsIdle 3 [.schedule, .spawn 0, .schedule]) := by
  apply (shrinkProgram_locallyMinimal_iff _ _ 3 (by decide) (by decide)).mpr
  intro m hm hfail hleast i hpos hi
  rcases List.suffix_cons_iff.mp hm with rfl | hm
  · exact absurd (hleast [.spawn 0, .schedule] (List.suffix_cons _ _) (by decide)) (by decide)
  rcases List.suffix_cons_iff.mp hm with rfl | hm
  · obtain rfl : i = 1 := le_antisymm (Nat.le_of_lt_succ hi) hpos
    decide
  · have hle := hm.length_le
    rw [List.length_singleton] at hle
    exact absurd (lt_of_lt_of_le hi hle) (Nat.not_lt.mpr hpos)

/-! ## What the search finds -/

section Search

variable {w : SmallWorld} {depth : ℕ} {p : Property} {prog r : List RuntimeOp}

/-- The search finds a failing program, and every shorter one passes. -/
theorem explore_eq_some (h : explore w depth p = some prog) :
    prog ∈ genPrograms w depth ∧ p prog = false ∧
      ∀ prog' ∈ genPrograms w depth, prog'.length < prog.length → p prog' = true := by
  refine ⟨List.mem_of_find?_eq_some h, by simpa using List.find?_some h, fun prog' hmem hlt ↦ ?_⟩
  obtain ⟨-, before, after, hsplit, hbefore⟩ := List.find?_eq_some_iff_append.mp h
  have hsorted := genPrograms_pairwise w depth
  rw [hsplit] at hmem hsorted
  rcases List.mem_append.mp hmem with hin | hin
  · simpa using hbefore prog' hin
  · rcases List.mem_cons.mp hin with rfl | hafter
    · exact absurd hlt (Nat.lt_irrefl _)
    · have hle := (List.pairwise_cons.mp (List.pairwise_append.mp hsorted).2.1).1 prog' hafter
      exact absurd hlt (Nat.not_lt.mpr hle)

theorem confirms_iff :
    confirms w depth p = true ↔
      ∀ prog, prog.length ≤ depth → (∀ op ∈ prog, op ∈ genOps w) → p prog = true := by
  simp only [confirms, explore, Option.isNone_iff_eq_none, List.find?_eq_none, mem_genPrograms]
  refine ⟨fun h prog hlen hops ↦ by simpa using h prog ⟨hlen, hops⟩, fun h prog hmem ↦ ?_⟩
  simpa using h prog hmem.1 hmem.2

/-- The programs the search hands to the shrinker are locally minimal already. -/
theorem findAndShrink_locallyMinimal (h : findAndShrink w depth p = some r) :
    explore w depth p = some r ∧ LocallyMinimal p r r := by
  obtain ⟨prog, hfound, hshrink⟩ := Option.map_eq_some_iff.mp h
  obtain ⟨hmem, hfail, hshorter⟩ := explore_eq_some hfound
  obtain ⟨hlen, hops⟩ := mem_genPrograms.mp hmem
  have hpasses : ∀ prog' : List RuntimeOp, prog'.Sublist prog → prog'.length < prog.length →
      p prog' = true := by
    intro prog' hsub hlt
    refine hshorter prog' (mem_genPrograms.mpr ⟨hlt.le.trans hlen, fun op hop ↦ ?_⟩) hlt
    exact hops op (hsub.subset hop)
  have hleast : LeastFailing p prog prog := by
    refine ⟨List.suffix_refl prog, hfail, fun m' hm' hfail' ↦ hm'.eq_of_length_le ?_⟩
    by_contra hlt
    simp [hpasses m' hm'.sublist (Nat.lt_of_not_le hlt)] at hfail'
  rw [shrinkProgram_eq hleast (by omega)] at hshrink
  subst hshrink
  refine ⟨hfound, List.Sublist.refl prog, hfail, fun i hi ↦ ?_⟩
  apply hpasses _ (List.eraseIdx_sublist prog i)
  rw [List.length_eraseIdx_of_lt hi]
  exact Nat.sub_lt (Nat.zero_lt_of_lt hi) Nat.one_pos

theorem findAndShrink_locallyMinimal_spawn :
    explore .tiny 1 propReadyAlwaysEmpty = some [.spawn 0] ∧
      LocallyMinimal propReadyAlwaysEmpty [.spawn 0] [.spawn 0] :=
  findAndShrink_locallyMinimal (by decide +kernel)

end Search

/-! ## What the explorer confirms -/

theorem propWellFormed_holds (prog : List RuntimeOp) : propWellFormed prog = true := by
  obtain ⟨p, h⟩ := reachable_located prog
  unfold propWellFormed checkWellFormedBool
  rw [Bool.and_eq_true]
  refine ⟨decide_eq_true h.readyQ_nodup, ?_⟩
  split
  · rename_i t hrun
    apply decide_eq_true
    intro hmem
    exact absurd ((h.phase_running hrun).symm.trans (h.phase_queued hmem)) (by simp)
  · rfl

theorem propBridge_holds (prog : List RuntimeOp) : propBridge prog = true :=
  beq_iff_eq.mpr (bridge_run_tracks_single_worker prog).queue_eq.symm

theorem occurrenceIds_eq (w : SmallWorld) (s : RuntimeState) :
    occurrenceIds w s =
      (List.range w.maxActor).flatMap fun a ↦ (inbox s a).map Envelope.occurrence := by
  unfold occurrenceIds inbox
  congr 1
  funext a
  cases s.mailboxes a <;> rfl

theorem propOccurrenceUnique_holds (w : SmallWorld) (prog : List RuntimeOp) :
    propOccurrenceUnique w prog = true := by
  apply decide_eq_true
  rw [occurrenceIds_eq, List.nodup_flatMap]
  refine ⟨fun a _ ↦ reachable_inbox_nodup prog a, List.nodup_range.imp fun {a b} hab ↦ ?_⟩
  intro occ hocc hocc'
  obtain ⟨env, henv, rfl⟩ := List.mem_map.mp hocc
  obtain ⟨env', henv', heq⟩ := List.mem_map.mp hocc'
  exact hab (reachable_inbox_unique prog henv henv' heq.symm).1

/-- The explorer confirms its properties in every small world at every depth. -/
theorem confirms_sound_properties (w : SmallWorld) (depth : ℕ) :
    confirms w depth propWellFormed = true ∧ confirms w depth (propOccurrenceUnique w) = true ∧
      confirms w depth propBridge = true := by
  refine ⟨?_, ?_, ?_⟩
  · exact confirms_iff.mpr fun prog _ _ ↦ propWellFormed_holds prog
  · exact confirms_iff.mpr fun prog _ _ ↦ propOccurrenceUnique_holds w prog
  · exact confirms_iff.mpr fun prog _ _ ↦ propBridge_holds prog

end Henret.Explore
