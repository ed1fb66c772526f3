import Mathlib.Data.List.Basic
import Mathlib.Logic.Function.Basic
/-!
# ProcTable — the children of a process

A child runs from its spawn to its exit, stays a zombie until it is waited for, and is then gone from the table.  What
a history of exits and waits leaves of a running child is read off the order of those that name it (`run_running`).
-/

inductive ChildState where
  | absent
  | running
  | zombie
deriving DecidableEq, Repr

namespace ProcTable

variable {κ : Type} [DecidableEq κ]

def spawn (t : κ → ChildState) (k : κ) : κ → ChildState := Function.update t k .running

def exit (t : κ → ChildState) (k : κ) : κ → ChildState :=
  if t k = .running then Function.update t k .zombie else t

/-- A wait that does not block: it reaps a zombie and leaves a running child alone. -/
def wait (t : κ → ChildState) (k : κ) : κ → ChildState :=
  if t k = .zombie then Function.update t k .absent else t

inductive Op (κ : Type) where
  | exit (k : κ)
  | wait (k : κ)
deriving DecidableEq, Repr

def step (t : κ → ChildState) : Op κ → κ → ChildState
  | .exit k => exit t k
  | .wait k => wait t k

def run (t : κ → ChildState) (ops : List (Op κ)) : κ → ChildState := ops.foldl step t

theorem spawn_self (t : κ → ChildState) (k : κ) : spawn t k k = .running := Function.update_self k _ t

theorem spawn_of_ne (t : κ → ChildState) {k k' : κ} (h : k' ≠ k) : spawn t k k' = t k' := Function.update_of_ne h _ t

theorem exit_self (t : κ → ChildState) (k : κ) : exit t k k = if t k = .running then .zombie else t k := by
  unfold exit
  split
  · exact Function.update_self k _ t
  · rfl

theorem exit_of_ne (t : κ → ChildState) {k k' : κ} (h : k' ≠ k) : exit t k k' = t k' := by
  unfold exit
  split
  · exact Function.update_of_ne h _ t
  · rfl

theorem wait_self (t : κ → ChildState) (k : κ) : wait t k k = if t k = .zombie then .absent else t k := by
  unfold wait
  split
  · exact Function.update_self k _ t
  · rfl

theorem wait_of_ne (t : κ → ChildState) {k k' : κ} (h : k' ≠ k) : wait t k k' = t k' := by
  unfold wait
  split
  · exact Function.update_of_ne h _ t
  · rfl

/-! ## Histories -/

theorem step_of_ne (t : κ → ChildState) (k : κ) (op : Op κ) (hexit : op ≠ .exit k) (hwait : op ≠ .wait k) :
    step t op k = t k := by
  cases op with
  | exit k' => exact exit_of_ne t fun h => hexit (by rw [h])
  | wait k' => exact wait_of_ne t fun h => hwait (by rw [h])

theorem step_absent (t : κ → ChildState) (k : κ) (h : t k = .absent) (op : Op κ) : step t op k = .absent := by
  by_cases hexit : op = .exit k
  · rw [hexit, step, exit_self, h]
    rfl
  by_cases hwait : op = .wait k
  · rw [hwait, step, wait_self, h]
    rfl
  rw [step_of_ne t k op hexit hwait, h]

theorem run_absent (k : κ) : ∀ (ops : List (Op κ)) (t : κ → ChildState), t k = .absent → run t ops k = .absent
  | [], _, h => h
  | op :: ops, t, h => run_absent k ops (step t op) (step_absent t k h op)

/-- **A zombie is there until it is waited for.** -/
theorem run_zombie (k : κ) : ∀ (ops : List (Op κ)) (t : κ → ChildState), t k = .zombie →
    run t ops k = if .wait k ∈ ops then .absent else .zombie
  | [], _, h => h
  | op :: ops, t, h => by
    by_cases hwait : op = .wait k
    · subst hwait
      rw [if_pos List.mem_cons_self]
      refine run_absent k ops _ ?_
      rw [step, wait_self, if_pos h]
    · have hstep : step t op k = .zombie := by
        by_cases hexit : op = .exit k
        · rw [hexit, step, exit_self, h]
          rfl
        · rw [step_of_ne t k op hexit hwait, h]
      have hmem : .wait k ∈ op :: ops ↔ .wait k ∈ ops := by
        rw [List.mem_cons, or_iff_right (fun heq => hwait heq.symm)]
      simp only [hmem]
      exact run_zombie k ops (step t op) hstep

/-- **A child runs until it exits, and is gone once it was waited for after that.** -/
theorem run_running (k : κ) : ∀ (ops : List (Op κ)) (t : κ → ChildState), t k = .running →
    run t ops k =
      if [.exit k, .wait k].Sublist ops then .absent else if .exit k ∈ ops then .zombie else .running
  | [], _, h => by
    rw [if_neg (fun hsub => by cases hsub), if_neg List.not_mem_nil]
    exact h
  | op :: ops, t, h => by
    by_cases hexit : op = .exit k
    · subst hexit
      have hstep : step t (.exit k) k = .zombie := by rw [step, exit_self, if_pos h]
      have hrun := run_zombie k ops (step t (.exit k)) hstep
      simp only [List.cons_sublist_cons, List.singleton_sublist, List.mem_cons, true_or, if_true]
      exact hrun
    · have hstep : step t op k = .running := by
        by_cases hwait : op = .wait k
        · rw [hwait, step, wait_self, h]
          rfl
        · rw [step_of_ne t k op hexit hwait, h]
      have hne : Op.exit k ≠ op := fun heq => hexit heq.symm
      have ih := run_running k ops (step t op) hstep
      simp only [List.cons_sublist_cons', hne, false_and, or_false, List.mem_cons, false_or]
      exact ih

end ProcTable
