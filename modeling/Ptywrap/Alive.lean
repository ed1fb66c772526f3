import Ptywrap.ProcTable
import Ptywrap.Session
/-!
# Alive — `ptywrap_process_alive` (`api.c`, `container.c`)

A poll asks `waitpid` without blocking, and the first one after the child's exit reaps it: that one answers 0, every
later one finds no child and answers an error (`polls_right_iff`).
-/
namespace Ptywrap

def ptywrapErrContainer : Int := -3

/-- `waitpid(pid, &status, WNOHANG)`: 0 for a running child, its pid once it has exited, -1 with no such child. -/
def waitpid (t : Int → ChildState) (pid : Int) : Int × (Int → ChildState) :=
  (match t pid with
    | .running => 0
    | .zombie => pid
    | .absent => -1, ProcTable.wait t pid)

/-- `process_pid_alive`; of the session only `exec_pid` is read, and a null pointer is `none`. -/
def processPidAlive (t : Int → ChildState) (sess : Option Int) : Int × (Int → ChildState) :=
  match sess with
  | none => (ptywrapErrInval, t)
  | some execPid =>
    if execPid ≤ 0 then (ptywrapErrInval, t)
    else
      let (result, t) := waitpid t execPid
      if result = 0 then (1, t) else if result = execPid then (0, t) else (ptywrapErrContainer, t)

def ptywrapProcessAlive (t : Int → ChildState) (session : Option Int) : Int × (Int → ChildState) :=
  match session with
  | none => (ptywrapErrInval, t)
  | some execPid => processPidAlive t (some execPid)

def ptywrapContainerAlive (t : Int → ChildState) (session : Option Int) : Int × (Int → ChildState) :=
  ptywrapProcessAlive t session

/-- The two calls that poll. -/
inductive AliveCall where
  | processAlive
  | containerAlive
deriving DecidableEq, Repr

def AliveCall.call : AliveCall → (Int → ChildState) → Option Int → Int × (Int → ChildState)
  | .processAlive => ptywrapProcessAlive
  | .containerAlive => ptywrapContainerAlive

/-- Sessions, each with a child of its own, at a time when all the children run. -/
structure Spawned (ι : Type) where
  execPid : ι → Int
  table : Int → ChildState
  pos : ∀ i, 0 < execPid i
  distinct : Function.Injective execPid
  running : ∀ i, table (execPid i) = .running

inductive LifeEvent (ι : Type) where
  | exits (i : ι)
  | poll (f : AliveCall) (i : ι)
deriving DecidableEq, Repr

variable {ι : Type} (w : Spawned ι)

def Spawned.step (t : Int → ChildState) : LifeEvent ι → Int → ChildState
  | .exits i => ProcTable.exit t (w.execPid i)
  | .poll f i => (f.call t (some (w.execPid i))).2

def Spawned.run (es : List (LifeEvent ι)) : Int → ChildState := es.foldl w.step w.table

/-- What a poll of session `i` returns after `es`. -/
def Spawned.answer (es : List (LifeEvent ι)) (f : AliveCall) (i : ι) : Int :=
  (f.call (w.run es) (some (w.execPid i))).1

/-! ## One poll -/

/-- **A poll answers what the table says and waits for the child.** -/
theorem aliveCall_spec (f : AliveCall) (t : Int → ChildState) {pid : Int} (hpos : 0 < pid) :
    f.call t (some pid) =
      (match t pid with
        | .running => 1
        | .zombie => 0
        | .absent => ptywrapErrContainer, ProcTable.wait t pid) := by
  have hcall : f.call t (some pid) = processPidAlive t (some pid) := by cases f <;> rfl
  have hmin : (-1 : Int) ≠ pid := by omega
  rw [hcall]
  unfold processPidAlive waitpid
  dsimp only
  rw [if_neg (by omega)]
  cases t pid with
  | running => rfl
  | zombie =>
    dsimp only
    rw [if_neg (by omega), if_pos rfl]
  | absent =>
    dsimp only
    rw [if_neg (by decide), if_neg hmin]

/-! ## Histories -/

def Spawned.op : LifeEvent ι → ProcTable.Op Int
  | .exits i => .exit (w.execPid i)
  | .poll _ i => .wait (w.execPid i)

theorem Spawned.step_eq (t : Int → ChildState) (e : LifeEvent ι) : w.step t e = ProcTable.step t (w.op e) := by
  cases e with
  | exits i => rfl
  | poll f i =>
    unfold Spawned.step
    dsimp only
    rw [aliveCall_spec f t (w.pos i)]
    rfl

theorem Spawned.run_eq (es : List (LifeEvent ι)) : w.run es = ProcTable.run w.table (es.map w.op) := by
  unfold Spawned.run ProcTable.run
  rw [List.foldl_map]
  congr 1
  funext t e
  exact w.step_eq t e

theorem Spawned.op_eq_exit {e : LifeEvent ι} {i : ι} : w.op e = .exit (w.execPid i) ↔ e = .exits i := by
  cases e with
  | exits j => simp only [Spawned.op, ProcTable.Op.exit.injEq, w.distinct.eq_iff, LifeEvent.exits.injEq]
  | poll f j => simp only [Spawned.op, reduceCtorEq]

theorem Spawned.op_eq_wait {e : LifeEvent ι} {i : ι} : w.op e = .wait (w.execPid i) ↔ ∃ f, e = .poll f i := by
  cases e with
  | exits j => simp only [Spawned.op, reduceCtorEq, exists_false]
  | poll f j =>
    simp only [Spawned.op, ProcTable.Op.wait.injEq, w.distinct.eq_iff, LifeEvent.poll.injEq, exists_eq_left']

theorem Spawned.exit_mem_iff (es : List (LifeEvent ι)) (i : ι) :
    .exit (w.execPid i) ∈ es.map w.op ↔ .exits i ∈ es := by
  rw [List.mem_map]
  simp only [w.op_eq_exit, exists_eq_right]

theorem Spawned.reaped_iff (es : List (LifeEvent ι)) (i : ι) :
    [.exit (w.execPid i), .wait (w.execPid i)].Sublist (es.map w.op) ↔ ∃ f, [.exits i, .poll f i].Sublist es := by
  rw [List.sublist_map_iff]
  constructor
  · rintro ⟨es', hsub, heq⟩
    obtain ⟨e, es'', rfl, hexit, heq⟩ := List.map_eq_cons_iff.1 heq.symm
    obtain ⟨e', es''', rfl, hwait, heq⟩ := List.map_eq_cons_iff.1 heq
    obtain rfl := List.map_eq_nil_iff.1 heq
    obtain rfl := w.op_eq_exit.1 hexit
    obtain ⟨f, rfl⟩ := w.op_eq_wait.1 hwait
    exact ⟨f, hsub⟩
  · rintro ⟨f, hsub⟩
    exact ⟨_, hsub, rfl⟩

open Classical in
/-- **A session's child after a history.** -/
theorem Spawned.run_execPid (es : List (LifeEvent ι)) (i : ι) :
    w.run es (w.execPid i) =
      if ∃ f, [.exits i, .poll f i].Sublist es then .absent else if .exits i ∈ es then .zombie else .running := by
  rw [w.run_eq, ProcTable.run_running _ _ _ (w.running i)]
  simp only [w.reaped_iff, w.exit_mem_iff]

/-- The answer to a poll of `i` after `pre`, as documented. -/
def RightAnswer (pre : List (LifeEvent ι)) (i : ι) (answer : Int) : Prop :=
  (.exits i ∈ pre → answer = 0) ∧ (.exits i ∉ pre → answer = 1)

/-- **A poll answers right exactly when no poll since the exit came before it.** -/
theorem Spawned.answer_right_iff (pre : List (LifeEvent ι)) (f : AliveCall) (i : ι) :
    RightAnswer pre i (w.answer pre f i) ↔ ∀ f', ¬ [.exits i, .poll f' i].Sublist pre := by
  unfold RightAnswer Spawned.answer
  rw [aliveCall_spec f _ (w.pos i), w.run_execPid]
  by_cases hreaped : ∃ f, [.exits i, .poll f i].Sublist pre
  · have hexit : .exits i ∈ pre := by
      obtain ⟨f', h⟩ := hreaped
      exact h.subset List.mem_cons_self
    refine iff_of_false ?_ (fun h => hreaped.elim fun f' hf => h f' hf)
    rw [if_pos hreaped]
    rintro ⟨h, -⟩
    have hzero : ptywrapErrContainer = 0 := h hexit
    exact absurd hzero (by decide)
  · refine iff_of_true ?_ (fun f' hf => hreaped ⟨f', hf⟩)
    rw [if_neg hreaped]
    constructor
    · intro hexit
      rw [if_pos hexit]
    · intro hexit
      rw [if_neg hexit]

/-- **Every poll of a history answers right exactly when no session is polled twice after its child's exit.** -/
theorem polls_right_iff (w : Spawned ι) (es : List (LifeEvent ι)) :
    (∀ pre f i, pre ++ [.poll f i] <+: es → RightAnswer pre i (w.answer pre f i)) ↔
      ∀ i f f', ¬ [.exits i, .poll f i, .poll f' i].Sublist es := by
  simp only [w.answer_right_iff]
  constructor
  · intro h i f f' hsub
    have hsplit : ([LifeEvent.exits i, .poll f i] ++ [LifeEvent.poll f' i]).Sublist es := hsub
    obtain ⟨es₁, es₂, rfl, hsub₁, hsub₂⟩ := List.append_sublist_iff.1 hsplit
    obtain ⟨mid, rest, rfl⟩ := List.append_of_mem (List.singleton_sublist.1 hsub₂)
    refine h (es₁ ++ mid) f' i ⟨rest, by simp⟩ f (hsub₁.trans (List.sublist_append_left _ _))
  · intro h pre f i hpre f' hsub
    exact h i f' f ((hsub.append (List.Sublist.refl [LifeEvent.poll f i])).trans hpre.sublist)

/-- One session: its child exits and is polled twice. -/
theorem polls_not_right :
    ¬ ∀ (w : Spawned Unit) (es : List (LifeEvent Unit)) pre f i, pre ++ [.poll f i] <+: es →
      RightAnswer pre i (w.answer pre f i) := by
  intro h
  have hlast := (h ⟨fun _ => 7, fun _ => .running, fun _ => by decide, fun _ _ _ => rfl, fun _ => rfl⟩
    [.exits (), .poll .processAlive (), .poll .processAlive ()] [.exits (), .poll .processAlive ()] .processAlive ()
    (List.prefix_refl _)).1 List.mem_cons_self
  revert hlast
  decide

end Ptywrap
