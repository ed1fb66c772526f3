import Ptywrap.Handle
import Ptywrap.Ledger
import Ptywrap.Transducer
/-!
# Lifecycle — runs of creations, polls and destroys

Memory, descriptors, mutexes and threads are held by live sessions alone, whatever fails (`balanced_run`).  A child is
released by a poll of its session only, so it stays a zombie when it is left without one: by a `ptywrap_destroy` before
it was reaped, or by a creation that fails after its `fork` (`nothingHeld_iff`).
-/
namespace Ptywrap

/-- The process and its live sessions. -/
structure Sys where
  world : World
  live : List Handle

/-- An API call, on the session at a place in the list, or the end of a child. -/
inductive ApiEvent where
  | create (os : Outcomes) (containerId : Option CString) (rows cols : Int)
  | createDirect (os : Outcomes) (argv : Option (List CString)) (rows cols : Int)
  | processAlive (i : Nat)
  | destroy (i : Nat)
  | childExits (pid : Int)

def Sys.init : Sys := ⟨⟨0, 0, fun _ => .absent⟩, []⟩

/-- A creation has returned. -/
def Sys.enter (s : Sys) (r : Option Handle × World) : Sys := ⟨r.2, s.live ++ r.1.toList⟩

def Sys.withChildren (s : Sys) (children : Int → ChildState) : Sys := { s with world := { s.world with children } }

def Sys.step (s : Sys) : ApiEvent → Sys
  | .create os containerId rows cols => s.enter (ptywrapCreate os containerId rows cols s.world)
  | .createDirect os argv rows cols => s.enter (ptywrapCreateDirect os argv rows cols s.world)
  | .processAlive i => s.withChildren (ptywrapProcessAlive s.world.children (s.live[i]?.map Handle.execPid)).2
  | .destroy i => ⟨ptywrapDestroy s.live[i]? s.world, s.live.eraseIdx i⟩
  | .childExits pid => s.withChildren (ProcTable.exit s.world.children pid)

def Sys.run (es : List ApiEvent) : Sys := es.foldl Sys.step Sys.init

/-- No session is live and no child runs. -/
def Sys.Quiescent (s : Sys) : Prop := s.live = [] ∧ ∀ pid, s.world.children pid ≠ .running

def Sys.NothingHeld (s : Sys) : Prop := s.world.held = 0 ∧ ∀ pid, s.world.children pid ≠ .zombie

/-- A creation loses no child: it does not get to `fork`, or `fork` gives none, or the reader starts; or a live session
still polls the same pid, having seen an earlier child of it exit. -/
def Sys.KeepsChild (s : Sys) (os : Outcomes) (reached : Bool) : Prop :=
  ∀ pid, reached = true → os.forkPid s.world.children = some pid → os.pthreadCreate = false →
    ∃ h ∈ s.live, h.execPid = pid

/-- A step leaves no child without a session that polls it. -/
def Sys.Keeps (s : Sys) : ApiEvent → Prop
  | .create os containerId _ _ => s.KeepsChild os (reachesAttach os containerId)
  | .createDirect os argv _ _ => s.KeepsChild os (reachesDirect os argv)
  | .destroy i => ∀ h, s.live[i]? = some h →
      s.world.children h.execPid = .absent ∨ ∃ h' ∈ s.live.eraseIdx i, h'.execPid = h.execPid
  | .processAlive _ | .childExits _ => True

/-! ## What is held -/

def Sys.Balanced (s : Sys) : Prop := Ledger.Balanced Handle.owned s.live s.world.held

theorem balanced_enter {s : Sys} {os : Outcomes} {reached : Bool} (h : s.Balanced) {r : Option Handle × World}
    (hr : Creation os reached s.world r) : (s.enter r).Balanced := by
  unfold Sys.Balanced at h ⊢
  cases hr with
  | refused hno hheld hchildren =>
    unfold Sys.enter
    rw [Option.toList_none, List.append_nil, hheld]
    exact h
  | lost hreached hpid hthread hheld hchildren =>
    unfold Sys.enter
    rw [Option.toList_none, List.append_nil, hheld]
    exact h
  | @created w' sess hreached hpid hthread hheld hchildren =>
    unfold Sys.enter
    rw [Option.toList_some, hheld]
    exact h.enter sess

theorem balanced_step {s : Sys} (h : s.Balanced) (e : ApiEvent) : (s.step e).Balanced := by
  cases e with
  | create os containerId rows cols => exact balanced_enter h (ptywrapCreate_spec os containerId rows cols s.world)
  | createDirect os argv rows cols => exact balanced_enter h (ptywrapCreateDirect_spec os argv rows cols s.world)
  | processAlive i => exact h
  | destroy i =>
    unfold Sys.step
    dsimp only
    cases hi : s.live[i]? with
    | none =>
      rw [List.eraseIdx_of_length_le (List.getElem?_eq_none_iff.1 hi)]
      exact h
    | some sess =>
      obtain ⟨rest, hheld, hrest⟩ := Ledger.Balanced.leave h hi
      unfold Sys.Balanced
      rw [(ptywrapDestroy_held hheld).1]
      exact hrest
  | childExits pid => exact h

/-- **In every run the live sessions own all that is held.** -/
theorem balanced_run (es : List ApiEvent) : (Sys.run es).Balanced :=
  Transducer.forall_prefix Sys.step Sys.Balanced Sys.init es rfl (fun _ e _ h => balanced_step h e) es
    (List.prefix_refl es)

/-! ## Children -/

/-- Every child, running or a zombie, has a live session that polls it. -/
def Sys.Tracked (s : Sys) : Prop := Ledger.Covered Handle.execPid s.live fun pid => s.world.children pid ≠ .absent

theorem forkPid_free {os : Outcomes} {children : Int → ChildState} {pid : Int} (h : os.forkPid children = some pid) :
    children pid = .absent := by
  unfold Outcomes.forkPid at h
  rw [Option.filter_eq_some_iff] at h
  exact (of_decide_eq_true h.2).2

theorem used_spawn_iff (children : Int → ChildState) (pid k : Int) :
    ProcTable.spawn children pid k ≠ .absent ↔ k = pid ∨ children k ≠ .absent := by
  by_cases hk : k = pid
  · subst hk
    rw [ProcTable.spawn_self]
    exact iff_of_true (by decide) (.inl rfl)
  · rw [ProcTable.spawn_of_ne _ hk, or_iff_right hk]

theorem exit_eq_absent_iff (children : Int → ChildState) (pid k : Int) :
    ProcTable.exit children pid k = .absent ↔ children k = .absent := by
  by_cases hk : k = pid
  · subst hk
    rw [ProcTable.exit_self]
    cases children k <;> decide
  · rw [ProcTable.exit_of_ne _ hk]

theorem processAlive_children (children : Int → ChildState) (pid : Int) :
    (ptywrapProcessAlive children (some pid)).2 = children ∨
      (ptywrapProcessAlive children (some pid)).2 = ProcTable.wait children pid := by
  by_cases hpos : 0 < pid
  · exact .inr (congrArg Prod.snd (aliveCall_spec .processAlive children hpos))
  · unfold ptywrapProcessAlive processPidAlive
    dsimp only
    rw [if_pos (by omega)]
    exact .inl rfl

/-- A poll takes one child away at most, its session's own. -/
theorem processAlive_used {s : Sys} {i : Nat} {k : Int} (h : s.world.children k ≠ .absent) :
    (s.step (.processAlive i)).world.children k ≠ .absent ∨ ∃ h ∈ s.live, h.execPid = k := by
  unfold Sys.step Sys.withChildren
  dsimp only
  cases hi : s.live[i]? with
  | none => exact .inl h
  | some sess =>
    by_cases hk : sess.execPid = k
    · exact .inr ⟨sess, List.mem_of_getElem? hi, hk⟩
    · left
      rw [Option.map_some]
      rcases processAlive_children s.world.children sess.execPid with heq | heq
      · rw [heq]
        exact h
      · rw [heq, ProcTable.wait_of_ne _ (Ne.symm hk)]
        exact h

theorem used_of_processAlive {s : Sys} {i : Nat} {k : Int}
    (h : (s.step (.processAlive i)).world.children k ≠ .absent) : s.world.children k ≠ .absent := by
  intro habsent
  refine h ?_
  unfold Sys.step Sys.withChildren
  dsimp only
  cases hi : s.live[i]? with
  | none => exact habsent
  | some sess =>
    rw [Option.map_some]
    rcases processAlive_children s.world.children sess.execPid with heq | heq
    · rw [heq, habsent]
    · rw [heq]
      exact ProcTable.step_absent s.world.children k habsent (.wait sess.execPid)

theorem destroy_children {s : Sys} (h : s.Balanced) (i : Nat) :
    (s.step (.destroy i)).world.children = s.world.children := by
  unfold Sys.step
  dsimp only
  cases hi : s.live[i]? with
  | none => rfl
  | some sess =>
    obtain ⟨rest, hheld, -⟩ := Ledger.Balanced.leave h hi
    exact (ptywrapDestroy_held hheld).2

theorem tracked_enter_iff {s : Sys} {os : Outcomes} {reached : Bool} (h : s.Tracked) {r : Option Handle × World}
    (hr : Creation os reached s.world r) : (s.enter r).Tracked ↔ s.KeepsChild os reached := by
  unfold Sys.Tracked Sys.KeepsChild
  unfold Sys.Tracked at h
  cases hr with
  | refused hno hheld hchildren =>
    unfold Sys.enter
    rw [Option.toList_none, List.append_nil, hchildren]
    refine iff_of_true h fun pid hreached hpid _ => ?_
    rcases hno with hno | hno
    · rw [hno] at hreached
      exact absurd hreached (by decide)
    · rw [hno] at hpid
      exact absurd hpid (by simp)
  | @lost w' pid hreached hpid hthread hheld hchildren =>
    unfold Sys.enter
    rw [Option.toList_none, List.append_nil, hchildren, Ledger.covered_insert_iff h pid (used_spawn_iff _ pid)]
    constructor
    · intro howner pid' _ hpid' _
      rw [hpid, Option.some.injEq] at hpid'
      exact hpid' ▸ howner
    · intro hall
      exact hall pid hreached hpid hthread
  | @created w' sess hreached hpid hthread hheld hchildren =>
    unfold Sys.enter
    rw [Option.toList_some, hchildren]
    refine iff_of_true (fun k hk => ?_) fun pid _ _ hno => ?_
    · rcases (used_spawn_iff _ _ k).1 hk with rfl | hk
      · exact ⟨sess, List.mem_append_right _ List.mem_cons_self, rfl⟩
      · obtain ⟨o, ho, hname⟩ := h k hk
        exact ⟨o, List.mem_append_left _ ho, hname⟩
    · rw [hthread] at hno
      exact absurd hno (by decide)

theorem tracked_of_enter {s : Sys} {os : Outcomes} {reached : Bool} {r : Option Handle × World}
    (hr : Creation os reached s.world r) (h : (s.enter r).Tracked) : s.Tracked := by
  intro k hk
  cases hr with
  | refused hno hheld hchildren =>
    unfold Sys.Tracked Sys.enter at h
    rw [Option.toList_none, List.append_nil, hchildren] at h
    exact h k hk
  | @lost w' pid hreached hpid hthread hheld hchildren =>
    unfold Sys.Tracked Sys.enter at h
    rw [Option.toList_none, List.append_nil, hchildren] at h
    exact h k ((used_spawn_iff _ pid k).2 (.inr hk))
  | @created w' sess hreached hpid hthread hheld hchildren =>
    unfold Sys.Tracked Sys.enter at h
    rw [Option.toList_some, hchildren] at h
    obtain ⟨o, ho, hname⟩ := h k ((used_spawn_iff _ _ k).2 (.inr hk))
    rcases List.mem_append.1 ho with ho | ho
    · exact ⟨o, ho, hname⟩
    · -- the new child's pid was free
      obtain rfl := List.mem_singleton.1 ho
      rw [← hname] at hk
      exact absurd (forkPid_free hpid) hk

/-- **A step keeps track of the children exactly when it leaves none without a session that polls it.** -/
theorem tracked_step_iff {s : Sys} (hs : s.Balanced) (h : s.Tracked) (e : ApiEvent) :
    (s.step e).Tracked ↔ s.Keeps e := by
  cases e with
  | create os containerId rows cols => exact tracked_enter_iff h (ptywrapCreate_spec os containerId rows cols s.world)
  | createDirect os argv rows cols => exact tracked_enter_iff h (ptywrapCreateDirect_spec os argv rows cols s.world)
  | processAlive i => exact iff_of_true (Ledger.Covered.mono h fun k hk => used_of_processAlive hk) trivial
  | destroy i =>
    have hchildren := destroy_children hs i
    unfold Sys.Tracked Sys.Keeps
    rw [hchildren]
    cases hi : s.live[i]? with
    | none =>
      have hlive : (s.step (.destroy i)).live = s.live := List.eraseIdx_of_length_le (List.getElem?_eq_none_iff.1 hi)
      rw [hlive]
      refine iff_of_true h fun sess hsess => ?_
      rw [hi] at hsess
      cases hsess
    | some sess =>
      refine (Ledger.covered_eraseIdx_iff h hi).trans ?_
      simp only [hi, Option.some.injEq, forall_eq', not_not]
  | childExits pid =>
    refine iff_of_true (Ledger.Covered.mono h fun k hk => ?_) trivial
    exact fun habsent => hk ((exit_eq_absent_iff _ pid k).2 habsent)

/-- **A child without a session stays without one.** -/
theorem tracked_of_step {s : Sys} (hs : s.Balanced) (e : ApiEvent) (h : (s.step e).Tracked) : s.Tracked := by
  cases e with
  | create os containerId rows cols => exact tracked_of_enter (ptywrapCreate_spec os containerId rows cols s.world) h
  | createDirect os argv rows cols => exact tracked_of_enter (ptywrapCreateDirect_spec os argv rows cols s.world) h
  | processAlive i =>
    intro k hk
    exact (processAlive_used hk).elim (h k) id
  | destroy i =>
    intro k hk
    rw [← destroy_children hs i] at hk
    obtain ⟨o, ho, hname⟩ := h k hk
    exact ⟨o, List.mem_of_mem_eraseIdx ho, hname⟩
  | childExits pid =>
    intro k hk
    exact h k fun habsent => hk ((exit_eq_absent_iff _ pid k).1 habsent)

theorem tracked_run_iff (es : List ApiEvent) :
    (Sys.run es).Tracked ↔ ∀ pre e, pre ++ [e] <+: es → (Sys.run pre).Keeps e :=
  Transducer.invariant_iff Sys.step Sys.Tracked Sys.Balanced Sys.Keeps (fun _ e h => balanced_step h e)
    (fun _ e hs h => tracked_step_iff hs h e) (fun _ e hs h => tracked_of_step hs e h) es Sys.init rfl
    (fun _ hk => absurd rfl hk)

/-- **When no session is live and every child has exited, nothing is held exactly when every step of the run kept track
of the children**: no session was destroyed before its child was reaped, and no creation failed after its `fork`. -/
theorem nothingHeld_iff (es : List ApiEvent) (h : (Sys.run es).Quiescent) :
    (Sys.run es).NothingHeld ↔ ∀ pre e, pre ++ [e] <+: es → (Sys.run pre).Keeps e := by
  obtain ⟨hlive, hexited⟩ := h
  have hheld : (Sys.run es).world.held = 0 := by
    have hbalanced := balanced_run es
    unfold Sys.Balanced at hbalanced
    rw [hlive] at hbalanced
    exact (Ledger.balanced_nil_iff _ _).1 hbalanced
  rw [← tracked_run_iff es, Sys.NothingHeld, and_iff_right hheld, Sys.Tracked, hlive, Ledger.covered_nil_iff]
  refine forall_congr' fun pid => ?_
  have hpid := hexited pid
  rw [not_not]
  cases hstate : (Sys.run es).world.children pid with
  | absent => exact iff_of_true (by decide) rfl
  | running => exact absurd hstate hpid
  | zombie => exact iff_of_false (fun hz => hz rfl) (by decide)

/-- A session on the command `a`, with the child 7. -/
def createOne : ApiEvent := .createDirect (allSucceed 7) (some [⟨[97], by decide⟩]) 24 80

/-- Created, exited, polled, destroyed. -/
theorem nothingHeld_polled :
    let es := [createOne, .childExits 7, .processAlive 0, .destroy 0]
    (Sys.run es).NothingHeld ↔ ∀ pre e, pre ++ [e] <+: es → (Sys.run pre).Keeps e := by
  refine nothingHeld_iff _ ⟨rfl, fun pid => ?_⟩
  have hchildren : (Sys.run [createOne, .childExits 7, .processAlive 0, .destroy 0]).world.children =
      ProcTable.wait (ProcTable.exit (ProcTable.spawn (fun _ => .absent) 7) 7) 7 := rfl
  rw [hchildren]
  by_cases hpid : pid = 7
  · subst hpid
    decide
  · rw [ProcTable.wait_of_ne _ hpid, ProcTable.exit_of_ne _ hpid, ProcTable.spawn_of_ne _ hpid]
    decide

/-- Created, exited and destroyed without a poll: the child stays a zombie. -/
theorem not_nothingHeld : ¬ ∀ es : List ApiEvent, (Sys.run es).Quiescent → (Sys.run es).NothingHeld := by
  intro h
  have hchildren : (Sys.run [createOne, .childExits 7, .destroy 0]).world.children =
      ProcTable.exit (ProcTable.spawn (fun _ => .absent) 7) 7 := rfl
  have hzombie := (h [createOne, .childExits 7, .destroy 0] ⟨rfl, fun pid => ?_⟩).2 7
  · rw [hchildren] at hzombie
    revert hzombie
    decide
  · rw [hchildren]
    by_cases hpid : pid = 7
    · subst hpid
      decide
    · rw [ProcTable.exit_of_ne _ hpid, ProcTable.spawn_of_ne _ hpid]
      decide

end Ptywrap
