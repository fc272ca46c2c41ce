import Henret.Runtime.Model

/-!
# The bounded program generator

`genPrograms w d` lists every program of at most `d` operations of the small
world `w`, shorter programs first.
-/

namespace Henret.Explore

structure SmallWorld where
  maxTask : ℕ := 2
  maxActor : ℕ := 2
  maxMsg : ℕ := 1
  maxTime : ℕ := 2
deriving Repr

def SmallWorld.tiny : SmallWorld := {}

def genOps (w : SmallWorld) : List RuntimeOp :=
  let tasks := List.range w.maxTask
  let actors := List.range w.maxActor
  let msgs := (List.range w.maxMsg).map fun i ↦ Message.mk i (i * 100)
  let times := List.range w.maxTime
  actors.map .spawn ++
    [.schedule] ++
    tasks.map .yield ++
    tasks.map .complete ++
    tasks.map .cancel ++
    tasks.flatMap (fun t ↦ actors.map fun a ↦ .spawnChild t a) ++
    tasks.map .receive ++
    tasks.flatMap (fun t ↦ actors.flatMap fun a ↦ msgs.map fun m ↦ .send t a m) ++
    actors.flatMap (fun a ↦ msgs.map fun m ↦ .inject a m) ++
    tasks.flatMap (fun t ↦ times.map fun d ↦ .sleep t d) ++
    times.map .tick ++
    tasks.map .wake

def genProgramsExact (w : SmallWorld) : ℕ → List (List RuntimeOp)
  | 0 => [[]]
  | d + 1 =>
      let shorter := genProgramsExact w d
      (genOps w).flatMap fun op ↦ shorter.map fun prog ↦ op :: prog

def genPrograms (w : SmallWorld) (d : ℕ) : List (List RuntimeOp) :=
  (List.range (d + 1)).flatMap (genProgramsExact w)

theorem mem_genProgramsExact {w : SmallWorld} {d : ℕ} {prog : List RuntimeOp} :
    prog ∈ genProgramsExact w d ↔ prog.length = d ∧ ∀ op ∈ prog, op ∈ genOps w := by
  induction d generalizing prog with
  | zero =>
      rw [genProgramsExact, List.mem_singleton, List.length_eq_zero_iff]
      exact ⟨fun h ↦ by simp [h], fun h ↦ h.1⟩
  | succ d ih =>
      simp only [genProgramsExact, List.mem_flatMap, List.mem_map]
      constructor
      · rintro ⟨op, hop, rest, hrest, rfl⟩
        obtain ⟨hlen, hops⟩ := ih.mp hrest
        exact ⟨by simp [hlen], by simpa [hop] using hops⟩
      · rintro ⟨hlen, hops⟩
        cases prog with
        | nil => simp at hlen
        | cons op rest =>
            refine ⟨op, hops op (by simp), rest, ih.mpr ⟨by simpa using hlen, ?_⟩, rfl⟩
            exact fun op' hop' ↦ hops op' (by simp [hop'])

theorem mem_genPrograms {w : SmallWorld} {d : ℕ} {prog : List RuntimeOp} :
    prog ∈ genPrograms w d ↔ prog.length ≤ d ∧ ∀ op ∈ prog, op ∈ genOps w := by
  simp only [genPrograms, List.mem_flatMap, List.mem_range, mem_genProgramsExact]
  refine ⟨?_, fun ⟨hlen, hops⟩ ↦ ⟨prog.length, Nat.lt_succ_of_le hlen, rfl, hops⟩⟩
  rintro ⟨n, hn, rfl, hops⟩
  exact ⟨Nat.le_of_lt_succ hn, hops⟩

/-- Shorter programs come first. -/
theorem genPrograms_pairwise (w : SmallWorld) (d : ℕ) :
    (genPrograms w d).Pairwise fun prog prog' ↦ prog.length ≤ prog'.length := by
  rw [genPrograms, List.pairwise_flatMap]
  constructor
  · intro n _
    apply List.pairwise_of_forall_mem_list
    intro prog hprog prog' hprog'
    rw [(mem_genProgramsExact.mp hprog).1, (mem_genProgramsExact.mp hprog').1]
  · apply List.pairwise_lt_range.imp
    intro n n' hlt prog hprog prog' hprog'
    rw [(mem_genProgramsExact.mp hprog).1, (mem_genProgramsExact.mp hprog').1]
    exact hlt.le

end Henret.Explore
