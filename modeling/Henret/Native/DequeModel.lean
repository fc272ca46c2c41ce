import Henret.Lib.Mailroom
import Henret.Runtime.Vocabulary

/-!
# Work-stealing deques

A backend is a deque of tasks with the laws that tie its operations to its
contents.  Every backend behaves as the reference list on every program, in its
contents and in the tasks it hands out, and hands out each pushed task once.
The owner's driver completes the tasks in the order of its stack.
-/

namespace Henret.Native

open Mailroom

/-- Remove the head: a thief takes from the top. -/
def stealHead : List TaskId → Option TaskId × List TaskId
  | [] => (none, [])
  | x :: r => (some x, r)

/-- Remove the last element: the owner takes from the bottom. -/
def popLast : List TaskId → Option TaskId × List TaskId
  | [] => (none, [])
  | [x] => (some x, [])
  | x :: r =>
      let (v, r') := popLast r
      (v, x :: r')

/-- A deque backend, observed from top to bottom by `toList`. -/
structure DequeModel where
  Carrier : Type
  empty : Carrier
  push : Carrier → TaskId → Carrier
  steal : Carrier → Option TaskId × Carrier
  pop : Carrier → Option TaskId × Carrier
  toList : Carrier → List TaskId
  toList_empty : toList empty = []
  toList_push : ∀ d t, toList (push d t) = toList d ++ [t]
  steal_val : ∀ d, (steal d).1 = (stealHead (toList d)).1
  steal_rest : ∀ d, toList (steal d).2 = (stealHead (toList d)).2
  pop_val : ∀ d, (pop d).1 = (popLast (toList d)).1
  pop_rest : ∀ d, toList (pop d).2 = (popLast (toList d)).2

/-- The list is its own backend. -/
def listDeque : DequeModel where
  Carrier := List TaskId
  empty := []
  push := fun d t ↦ d ++ [t]
  steal := stealHead
  pop := popLast
  toList := id
  toList_empty := rfl
  toList_push := fun _ _ ↦ rfl
  steal_val := fun _ ↦ rfl
  steal_rest := fun _ ↦ rfl
  pop_val := fun _ ↦ rfl
  pop_rest := fun _ ↦ rfl

inductive QOp where
  | push (t : TaskId)
  | steal
  | pop
deriving Repr, DecidableEq

/-! ## Programs -/

def qStepRef : List TaskId → QOp → List TaskId
  | qs, .push t => qs ++ [t]
  | qs, .steal => (stealHead qs).2
  | qs, .pop => (popLast qs).2

def qRunRef : List TaskId → List QOp → List TaskId
  | qs, [] => qs
  | qs, op :: ops => qRunRef (qStepRef qs op) ops

def qStepMachine (DM : DequeModel) (d : DM.Carrier) : QOp → DM.Carrier
  | .push t => DM.push d t
  | .steal => (DM.steal d).2
  | .pop => (DM.pop d).2

def qRunMachine (DM : DequeModel) (d : DM.Carrier) : List QOp → DM.Carrier
  | [] => d
  | op :: ops => qRunMachine DM (qStepMachine DM d op) ops

/-- The task an operation moves. -/
def qMove (DM : DequeModel) (d : DM.Carrier) (op : QOp) : Move Unit TaskId :=
  let handed : Option TaskId → Move Unit TaskId
    | some t => .take () t
    | none => .idle
  match op with
  | .push t => .post () t
  | .steal => handed (DM.steal d).1
  | .pop => handed (DM.pop d).1

def qMoves (DM : DequeModel) (d : DM.Carrier) : List QOp → List (Move Unit TaskId)
  | [] => []
  | op :: ops => qMove DM d op :: qMoves DM (qStepMachine DM d op) ops

theorem qMoves_listDeque_cons (qs : List TaskId) (op : QOp) (ops : List QOp) :
    qMoves listDeque qs (op :: ops) =
      qMove listDeque qs op :: qMoves listDeque (qStepRef qs op) ops := by
  cases op <;> rfl

section Backend

variable (DM : DequeModel)

theorem qStep_tracks (d : DM.Carrier) (op : QOp) :
    DM.toList (qStepMachine DM d op) = qStepRef (DM.toList d) op ∧
      qMove DM d op = qMove listDeque (DM.toList d) op := by
  cases op with
  | push t => exact ⟨DM.toList_push d t, rfl⟩
  | steal => exact ⟨DM.steal_rest d, by simp [qMove, DM.steal_val, listDeque]⟩
  | pop => exact ⟨DM.pop_rest d, by simp [qMove, DM.pop_val, listDeque]⟩

/-- Every backend tracks the reference, step for step. -/
theorem qRun_tracks (d : DM.Carrier) (prog : List QOp) :
    DM.toList (qRunMachine DM d prog) = qRunRef (DM.toList d) prog ∧
      qMoves DM d prog = qMoves listDeque (DM.toList d) prog := by
  induction prog generalizing d with
  | nil => exact ⟨rfl, rfl⟩
  | cons op ops ih =>
      obtain ⟨hcontents, hmove⟩ := qStep_tracks DM d op
      obtain ⟨hrest, hmoves⟩ := ih (qStepMachine DM d op)
      rw [hcontents] at hrest hmoves
      refine ⟨hrest, ?_⟩
      calc qMoves DM d (op :: ops)
          = qMove DM d op :: qMoves DM (qStepMachine DM d op) ops := rfl
        _ = qMoves listDeque (DM.toList d) (op :: ops) := by
              rw [hmove, hmoves, qMoves_listDeque_cons]

end Backend

/-! ## Each task once -/

theorem popLast_eq (qs : List TaskId) :
    (qs = [] ∧ popLast qs = (none, [])) ∨ ∃ l t, qs = l ++ [t] ∧ popLast qs = (some t, l) := by
  induction qs with
  | nil => exact Or.inl ⟨rfl, rfl⟩
  | cons x r ih =>
      right
      cases r with
      | nil => exact ⟨[], x, rfl, rfl⟩
      | cons y r =>
          obtain ⟨hnil, -⟩ | ⟨l, t, hl, hpop⟩ := ih
          · simp at hnil
          · refine ⟨x :: l, t, by rw [hl, List.cons_append], ?_⟩
            rw [popLast, hpop]
            simp

theorem update_unit (qs qs' : List TaskId) :
    Function.update (fun _ : Unit ↦ qs) () qs' = fun _ ↦ qs' := by
  funext u
  cases u
  exact Function.update_self _ _ _

theorem take_performs {qs l r : List TaskId} {t : TaskId} (h : qs = l ++ t :: r) :
    Performs (fun _ ↦ True) (fun _ : Unit ↦ qs) (.take () t) (fun _ ↦ l ++ r) := by
  have htake : Performs (fun _ ↦ True) (fun _ : Unit ↦ qs) (.take () t)
      (Function.update (fun _ : Unit ↦ qs) () (l ++ r)) := .take h trivial
  rwa [update_unit] at htake

theorem qMove_performs (qs : List TaskId) (op : QOp) :
    Performs (fun _ ↦ True) (fun _ : Unit ↦ qs) (qMove listDeque qs op)
      (fun _ ↦ qStepRef qs op) := by
  cases op with
  | push t =>
      have hpost : Performs (fun _ ↦ True) (fun _ : Unit ↦ qs) (.post () t)
          (Function.update (fun _ : Unit ↦ qs) () (qs ++ [t])) := .post () t
      rwa [update_unit] at hpost
  | steal =>
      cases qs with
      | nil => exact .idle
      | cons t r => exact take_performs (l := []) rfl
  | pop =>
      obtain ⟨rfl, hpop⟩ | ⟨l, t, rfl, hpop⟩ := popLast_eq qs
      · exact .idle
      · simp only [qMove, qStepRef, listDeque, hpop]
        simpa using take_performs (l := l) (r := []) rfl

theorem qRun_transfers (qs : List TaskId) (prog : List QOp) :
    Transfers (fun _ ↦ True) (fun _ : Unit ↦ qs) (qMoves listDeque qs prog)
      (fun _ ↦ qRunRef qs prog) := by
  induction prog generalizing qs with
  | nil => exact .nil
  | cons op ops ih =>
      rw [qMoves_listDeque_cons]
      exact .cons (qMove_performs qs op) (ih (qStepRef qs op))

/-- Whatever the program, each pushed task is handed out once or still held. -/
theorem qRun_conserves (DM : DequeModel) (d : DM.Carrier) (prog : List QOp) :
    (taken () (qMoves DM d prog) ++ DM.toList (qRunMachine DM d prog)).Perm
      (DM.toList d ++ posted () (qMoves DM d prog)) := by
  obtain ⟨hcontents, hmoves⟩ := qRun_tracks DM d prog
  rw [hcontents, hmoves]
  exact (qRun_transfers (DM.toList d) prog).perm ()

/-! ## The owner's driver -/

/-- A task with its remaining fuel. -/
abbrev Fueled := TaskId × ℕ

def totalFuel : List Fueled → ℕ
  | [] => 0
  | (_, f) :: rest => f + totalFuel rest

/-- The owner runs the front task until its fuel is spent, then the next one;
the front is the owner's end. -/
def driveStackB : ℕ → List Fueled → List TaskId
  | 0, _ => []
  | _ + 1, [] => []
  | b + 1, (t, 0) :: rest => t :: driveStackB b rest
  | b + 1, (t, n + 1) :: rest => driveStackB b ((t, n) :: rest)

/-- With fuel for every round the driver completes every task, in stack order. -/
theorem driveStackB_eq {b : ℕ} {q : List Fueled} (h : q.length + totalFuel q ≤ b) :
    driveStackB b q = q.map Prod.fst := by
  induction b generalizing q with
  | zero =>
      have hq : q = [] := List.eq_nil_of_length_eq_zero (by omega)
      rw [hq]
      rfl
  | succ b ih =>
      cases q with
      | nil => rfl
      | cons x rest =>
          obtain ⟨t, n⟩ := x
          rw [totalFuel, List.length_cons] at h
          cases n with
          | zero =>
              rw [driveStackB, ih (by omega)]
              rfl
          | succ n =>
              have hless : ((t, n) :: rest).length + totalFuel ((t, n) :: rest) ≤ b := by
                rw [totalFuel, List.length_cons]
                omega
              rw [driveStackB, ih hless]
              rfl

end Henret.Native
