import Ptywrap.Alive
import Ptywrap.Lifecycle
/-!
# Exits — whose exit a poll reports (`api.c`, `container.c`)

`ptywrap_process_alive` knows a child by its pid alone, and the poll that reports an exit gives the pid back to the
kernel.  Up to that poll the pid is the child's own, and every poll of it answers for this child; after it every poll is
an error, until a `fork` gives the pid to another child (`reported_once`).
-/
namespace Ptywrap

/-- What a poll of this pid answers. -/
def Sys.answer (s : Sys) (pid : Int) : Int := (ptywrapProcessAlive s.world.children (some pid)).1

/-- The `fork` of a creation gives this pid to a child. -/
def Sys.Forks (s : Sys) (pid : Int) : ApiEvent → Prop
  | .create os containerId _ _ => reachesAttach os containerId = true ∧ os.forkPid s.world.children = some pid
  | .createDirect os argv _ _ => reachesDirect os argv = true ∧ os.forkPid s.world.children = some pid
  | .processAlive _ | .destroy _ | .childExits _ => False

/-- A live session polls this pid and is answered 0. -/
def Sys.Reports (s : Sys) (pid : Int) : ApiEvent → Prop
  | .processAlive i => s.live[i]?.map Handle.execPid = some pid ∧ s.answer pid = 0
  | .create _ _ _ _ | .createDirect _ _ _ _ | .destroy _ | .childExits _ => False

/-! ## One step -/

section Steps

variable {s : Sys} {pid : Int}

theorem answer_eq (s : Sys) (hpos : 0 < pid) :
    s.answer pid =
      match s.world.children pid with
      | .running => 1
      | .zombie => 0
      | .absent => ptywrapErrContainer :=
  congrArg Prod.fst (aliveCall_spec .processAlive s.world.children hpos)

theorem answer_eq_zero_iff (s : Sys) (hpos : 0 < pid) : s.answer pid = 0 ↔ s.world.children pid = .zombie := by
  rw [answer_eq s hpos]
  cases s.world.children pid <;> decide

theorem forkPid_pos {os : Outcomes} {children : Int → ChildState} {pid : Int} (h : os.forkPid children = some pid) :
    0 < pid := by
  unfold Outcomes.forkPid at h
  rw [Option.filter_eq_some_iff] at h
  exact (of_decide_eq_true h.2).1

/-- `fork` gives away a pid that is free. -/
theorem free_of_forks {e : ApiEvent} (h : s.Forks pid e) : 0 < pid ∧ s.world.children pid = .absent := by
  cases e with
  | create os containerId rows cols => exact ⟨forkPid_pos h.2, forkPid_free h.2⟩
  | createDirect os argv rows cols => exact ⟨forkPid_pos h.2, forkPid_free h.2⟩
  | processAlive i => cases h
  | destroy i => cases h
  | childExits k => cases h

/-- A creation spawns the child that its `fork` gives, and touches no other. -/
theorem children_enter (pid : Int) {os : Outcomes} {reached : Bool} {r : Option Handle × World}
    (hr : Creation os reached s.world r) :
    (s.enter r).world.children = s.world.children ∧ ¬ (reached = true ∧ os.forkPid s.world.children = some pid) ∨
      ∃ k, (reached = true ∧ os.forkPid s.world.children = some k) ∧
        (s.enter r).world.children = ProcTable.spawn s.world.children k := by
  cases hr with
  | refused hno hheld hchildren =>
    refine .inl ⟨hchildren, ?_⟩
    rintro ⟨hreached, hpid⟩
    rcases hno with hno | hno
    · exact absurd (hreached.symm.trans hno) nofun
    · exact absurd (hpid.symm.trans hno) nofun
  | lost hreached hpid hthread hheld hchildren => exact .inr ⟨_, ⟨hreached, hpid⟩, hchildren⟩
  | created hreached hpid hthread hheld hchildren => exact .inr ⟨_, ⟨hreached, hpid⟩, hchildren⟩

theorem children_enter_self {os : Outcomes} {reached : Bool} {r : Option Handle × World}
    (hr : Creation os reached s.world r) (hpid : reached = true ∧ os.forkPid s.world.children = some pid) :
    (s.enter r).world.children pid = .running := by
  rcases children_enter pid hr with ⟨-, hnot⟩ | ⟨k, hk, hchildren⟩
  · exact absurd hpid hnot
  · obtain rfl := Option.some.inj (hpid.2.symm.trans hk.2)
    rw [hchildren, ProcTable.spawn_self]

theorem children_enter_other {os : Outcomes} {reached : Bool} {r : Option Handle × World}
    (hr : Creation os reached s.world r) (hpid : ¬ (reached = true ∧ os.forkPid s.world.children = some pid)) :
    (s.enter r).world.children pid = s.world.children pid := by
  rcases children_enter pid hr with ⟨hchildren, -⟩ | ⟨k, hk, hchildren⟩
  · rw [hchildren]
  · rw [hchildren]
    refine ProcTable.spawn_of_ne _ ?_
    rintro rfl
    exact hpid hk

theorem children_of_forks {e : ApiEvent} (h : s.Forks pid e) : (s.step e).world.children pid = .running := by
  cases e with
  | create os containerId rows cols =>
    exact children_enter_self (ptywrapCreate_spec os containerId rows cols s.world) h
  | createDirect os argv rows cols =>
    exact children_enter_self (ptywrapCreateDirect_spec os argv rows cols s.world) h
  | processAlive i => cases h
  | destroy i => cases h
  | childExits k => cases h

theorem children_childExits (s : Sys) (pid : Int) :
    (s.step (.childExits pid)).world.children pid =
      if s.world.children pid = .running then .zombie else s.world.children pid :=
  ProcTable.exit_self _ pid

/-- **A poll that reports an exit gives the pid back.** -/
theorem children_of_reports (hpos : 0 < pid) {e : ApiEvent} (h : s.Reports pid e) :
    (s.step e).world.children pid = .absent := by
  cases e with
  | processAlive i =>
    obtain ⟨hi, hzero⟩ := h
    have hwait : (ptywrapProcessAlive s.world.children (some pid)).2 = ProcTable.wait s.world.children pid :=
      congrArg Prod.snd (aliveCall_spec .processAlive s.world.children hpos)
    unfold Sys.step Sys.withChildren
    dsimp only
    rw [hi, hwait, ProcTable.wait_self, if_pos ((answer_eq_zero_iff s hpos).1 hzero)]
  | create os containerId rows cols => cases h
  | createDirect os argv rows cols => cases h
  | destroy i => cases h
  | childExits k => cases h

/-- **Nothing else touches the entry of a pid.** -/
theorem children_of_not (hs : s.Balanced) (hpos : 0 < pid) {e : ApiEvent} (hforks : ¬ s.Forks pid e)
    (hexit : e ≠ .childExits pid) (hreports : ¬ s.Reports pid e) :
    (s.step e).world.children pid = s.world.children pid := by
  cases e with
  | create os containerId rows cols =>
    exact children_enter_other (ptywrapCreate_spec os containerId rows cols s.world) hforks
  | createDirect os argv rows cols =>
    exact children_enter_other (ptywrapCreateDirect_spec os argv rows cols s.world) hforks
  | destroy i => rw [destroy_children hs i]
  | childExits k =>
    have hne : pid ≠ k := by
      rintro rfl
      exact hexit rfl
    exact ProcTable.exit_of_ne _ hne
  | processAlive i =>
    unfold Sys.step Sys.withChildren
    dsimp only
    cases hi : s.live[i]? with
    | none => rfl
    | some sess =>
      rw [Option.map_some]
      by_cases hpid : pid = sess.execPid
      · subst hpid
        have hanswer : s.answer sess.execPid ≠ 0 := fun hzero => hreports ⟨by rw [hi]; rfl, hzero⟩
        rw [ne_eq, answer_eq_zero_iff s hpos] at hanswer
        rcases processAlive_children s.world.children sess.execPid with heq | heq
        · rw [heq]
        · rw [heq, ProcTable.wait_self, if_neg hanswer]
      · rcases processAlive_children s.world.children sess.execPid with heq | heq
        · rw [heq]
        · rw [heq, ProcTable.wait_of_ne _ hpid]

end Steps

/-! ## Every run -/

theorem run_snoc (es : List ApiEvent) (e : ApiEvent) : Sys.run (es ++ [e]) = (Sys.run es).step e := by
  unfold Sys.run
  rw [List.foldl_append]
  rfl

/-- No event of `es` after `past` is one of these. -/
def Sys.Never (P : Sys → ApiEvent → Prop) (past es : List ApiEvent) : Prop :=
  ∀ pre x, pre ++ [x] <+: es → ¬ P (Sys.run (past ++ pre)) x

theorem Sys.never_nil (P : Sys → ApiEvent → Prop) (past : List ApiEvent) : Sys.Never P past [] :=
  fun pre x hpre => absurd (List.prefix_nil.1 hpre) (by simp)

theorem Sys.never_snoc_iff {P : Sys → ApiEvent → Prop} {past es : List ApiEvent} {x : ApiEvent} :
    Sys.Never P past (es ++ [x]) ↔ Sys.Never P past es ∧ ¬ P (Sys.run (past ++ es)) x := by
  constructor
  · intro h
    exact ⟨fun pre y hpre => h pre y (hpre.trans (List.prefix_append _ _)), h es x (List.prefix_refl _)⟩
  · rintro ⟨hes, hx⟩ pre y hpre
    rcases List.prefix_concat_iff.1 hpre with heq | hpre
    · obtain ⟨rfl, hlast⟩ := List.append_inj' heq rfl
      obtain rfl := List.singleton_inj.1 hlast
      exact hx
    · exact hes pre y hpre

/-- **Until its exit is reported a child has its pid to itself.** -/
theorem children_unreported {past : List ApiEvent} {pid : Int} (hpos : 0 < pid)
    (hrunning : (Sys.run past).world.children pid = .running) (es : List ApiEvent)
    (h : Sys.Never (fun s => s.Reports pid) past es) :
    ((.childExits pid ∈ es → (Sys.run (past ++ es)).world.children pid = .zombie) ∧
      (.childExits pid ∉ es → (Sys.run (past ++ es)).world.children pid = .running)) ∧
      Sys.Never (fun s => s.Forks pid) past es := by
  induction es using List.reverseRecOn with
  | nil =>
    rw [List.append_nil]
    exact ⟨⟨nofun, fun _ => hrunning⟩, Sys.never_nil _ _⟩
  | append_singleton es x ih =>
    obtain ⟨hes, hx⟩ := Sys.never_snoc_iff.1 h
    obtain ⟨⟨hzombie, hrun⟩, hnever⟩ := ih hes
    have hforks : ¬ (Sys.run (past ++ es)).Forks pid x := by
      intro hforks
      have hfree := (free_of_forks hforks).2
      by_cases hmem : .childExits pid ∈ es
      · exact absurd ((hzombie hmem).symm.trans hfree) nofun
      · exact absurd ((hrun hmem).symm.trans hfree) nofun
    refine ⟨?_, ?_⟩
    · rw [← List.append_assoc, run_snoc, List.mem_append, List.mem_singleton]
      by_cases hexit : x = .childExits pid
      · subst hexit
        rw [children_childExits]
        refine ⟨fun _ => ?_, fun hnot => absurd (.inr rfl) hnot⟩
        by_cases hmem : .childExits pid ∈ es
        · rw [hzombie hmem, if_neg nofun]
        · rw [hrun hmem, if_pos rfl]
      · rw [children_of_not (balanced_run _) hpos hforks hexit hx, or_iff_left (Ne.symm hexit)]
        exact ⟨hzombie, hrun⟩
    · exact Sys.never_snoc_iff.2 ⟨hnever, hforks⟩

/-- **A pid that was given back stays free until `fork` gives it away.** -/
theorem children_unforked {past : List ApiEvent} {pid : Int} (hpos : 0 < pid)
    (hfree : (Sys.run past).world.children pid = .absent) (es : List ApiEvent)
    (h : Sys.Never (fun s => s.Forks pid) past es) : (Sys.run (past ++ es)).world.children pid = .absent := by
  induction es using List.reverseRecOn with
  | nil =>
    rw [List.append_nil]
    exact hfree
  | append_singleton es x ih =>
    obtain ⟨hes, hx⟩ := Sys.never_snoc_iff.1 h
    have hprev := ih hes
    rw [← List.append_assoc, run_snoc]
    by_cases hexit : x = .childExits pid
    · subst hexit
      rw [children_childExits, hprev, if_neg nofun]
    by_cases hreports : (Sys.run (past ++ es)).Reports pid x
    · exact children_of_reports hpos hreports
    · rw [children_of_not (balanced_run _) hpos hx hexit hreports, hprev]

/-- **An exit is reported once.** From the `fork` that gives a child its pid to the first poll of that pid which answers
0, whatever the calls and exits: no other child gets the pid, and a poll of it answers 1 before the child's exit and 0
after it.  Past that poll, until `fork` gives the pid to another child, every poll of it answers an error. -/
theorem reported_once {past es : List ApiEvent} {e : ApiEvent} {pid : Int} (hforks : (Sys.run past).Forks pid e)
    (hno : Sys.Never (fun s => s.Reports pid) (past ++ [e]) es) :
    Sys.Never (fun s => s.Forks pid) (past ++ [e]) es ∧
      (.childExits pid ∈ es → (Sys.run (past ++ [e] ++ es)).answer pid = 0) ∧
      (.childExits pid ∉ es → (Sys.run (past ++ [e] ++ es)).answer pid = 1) ∧
      ∀ x es', (Sys.run (past ++ [e] ++ es)).Reports pid x →
        Sys.Never (fun s => s.Forks pid) (past ++ [e] ++ es ++ [x]) es' →
        (Sys.run (past ++ [e] ++ es ++ [x] ++ es')).answer pid = ptywrapErrContainer := by
  have hpos := (free_of_forks hforks).1
  have hrunning : (Sys.run (past ++ [e])).world.children pid = .running := by
    rw [run_snoc]
    exact children_of_forks hforks
  obtain ⟨⟨hzombie, hrun⟩, hnever⟩ := children_unreported hpos hrunning es hno
  refine ⟨hnever, fun hmem => ?_, fun hmem => ?_, fun x es' hreports hfree => ?_⟩
  · rw [answer_eq _ hpos, hzombie hmem]
  · rw [answer_eq _ hpos, hrun hmem]
  · have habsent : (Sys.run (past ++ [e] ++ es ++ [x])).world.children pid = .absent := by
      rw [run_snoc]
      exact children_of_reports hpos hreports
    rw [answer_eq _ hpos, children_unforked hpos habsent es' hfree]

/-- The child 7 of a session exits. -/
theorem reported_once_exited :
    Sys.Never (fun s => s.Forks 7) ([] ++ [createOne]) [.childExits 7] ∧
      (.childExits 7 ∈ [ApiEvent.childExits 7] → (Sys.run ([] ++ [createOne] ++ [.childExits 7])).answer 7 = 0) ∧
      (.childExits 7 ∉ [ApiEvent.childExits 7] → (Sys.run ([] ++ [createOne] ++ [.childExits 7])).answer 7 = 1) ∧
      ∀ x es', (Sys.run ([] ++ [createOne] ++ [.childExits 7])).Reports 7 x →
        Sys.Never (fun s => s.Forks 7) ([] ++ [createOne] ++ [.childExits 7] ++ [x]) es' →
        (Sys.run ([] ++ [createOne] ++ [.childExits 7] ++ [x] ++ es')).answer 7 = ptywrapErrContainer :=
  reported_once ⟨rfl, rfl⟩ (Sys.never_snoc_iff.2 ⟨Sys.never_nil _ _, id⟩)

end Ptywrap
