import Ptywrap.Teardown
/-!
# Progress — the reader catches up (`reader.c`)

Nothing that has arrived is stuck, as long as it leaves the cursor on the screen: while `reader_thread_func` has not
returned, the thread and the caller that holds the lock can go on by themselves until every byte is on the screen,
whatever the threads did before; once it has returned, what `read` has not given is never delivered (`catches_up_iff`).
-/
namespace Ptywrap

variable {g : Geometry} {nonblock : Bool} {s t : Threads g} {es : List ThreadEvent}

/-- A step on what is already there: nothing arrives, and nobody calls or destroys. -/
def ThreadEvent.inward : ThreadEvent → Bool
  | arrives _ | hangsUp | call _ _ | stop | destroyStep => false
  | _ => true

def Stage.ahead : Stage → Nat
  | returned _ | read => 0
  | test => 1
  | sleep => 2
  | process => 3

/-- How far the screen is behind what has arrived. -/
def Threads.behind (s : Threads g) : Nat := 7 * s.pending.length + s.stage.ahead + sectionLeft s.monitor

/-- The reader runs and the session is in use. -/
structure Threads.Reading (s : Threads g) : Prop where
  ok : s.Ok
  live : s.phase = .live
  running : ∀ why, s.stage ≠ .returned why
  contained : Contained g s.arrived

/-- All that has arrived is on the screen. -/
def Threads.Caught (s : Threads g) : Prop := delivered s.monitor.log = s.arrived

/-- An inward step brings the screen nearer to it. -/
def Threads.Advances (nonblock : Bool) (s : Threads g) : Prop :=
  ∃ e : ThreadEvent, e.inward = true ∧ (threads g nonblock).enabled s e ∧ (s.next e).Reading ∧
    (s.next e).behind < s.behind

theorem caught_iff (h : s.Ok) : s.Caught ↔ inFlight s.monitor = [] ∧ s.pending = [] := by
  unfold Threads.Caught
  rw [h.account, flow, List.append_assoc, List.self_eq_append_right, List.append_eq_nil_iff]

theorem shared_of_caught (h : s.Ok) (hcaught : s.Caught) :
    s.monitor.shared = terminalProcessBytes (terminalInit g) s.arrived := by
  obtain ⟨done, hdone, hshared⟩ := shared_eq h
  rw [((caught_iff h).1 hcaught).1] at hdone
  rw [hshared, List.prefix_nil.1 hdone, List.append_nil, hcaught]

/-! ## One step -/

theorem Threads.Reading.enabled (h : s.Reading) {e : ThreadEvent} (he : s.CanTake nonblock e) :
    (threads g nonblock).enabled s e := enabled_of_live h.live he fun _ => not_astray h.ok h.contained

/-- The section under way, or the reader's, goes on. -/
theorem section_advances (h : s.Reading) (hstage : s.stage = .process) : s.Advances nonblock := by
  obtain ⟨e, hstep⟩ : ∃ e, s.SectionStep nonblock e := exists_sectionStep h.ok hstage
  obtain ⟨hphase, hpending, harrived⟩ := hstep.frame
  have hsection := hstep.left
  have he := h.enabled hstep.can
  have hinward : e.inward = true := by rcases hstep.kind with rfl | ⟨u, rfl⟩ | ⟨u, rfl⟩ <;> rfl
  have hrunning : ∀ why, (s.next e).stage ≠ .returned why := by
    rcases hstep.stage with hsame | hsleep
    · rw [hsame]
      exact h.running
    · rw [hsleep]
      exact nofun
  have hahead : (s.next e).stage.ahead ≤ s.stage.ahead := by
    rcases hstep.stage with hsame | hsleep
    · rw [hsame]
    · rw [hsleep, hstage]
      decide
  refine ⟨e, hinward, he, ⟨keeps_ok nonblock s e h.ok he, hphase.trans h.live, hrunning, ?_⟩, ?_⟩
  · rw [harrived]
    exact h.contained
  · unfold Threads.behind
    rw [hpending]
    omega

/-- The reader takes a byte. -/
theorem read_advances (h : s.Reading) (hstage : s.stage = .read) (hpending : s.pending ≠ []) : s.Advances nonblock := by
  obtain ⟨b, bs, hbs⟩ := List.exists_cons_of_ne_nil hpending
  have hout := not_inside_of_stage h.ok (by rw [hstage]; nofun)
  have he : (threads g nonblock).enabled s (.read (.data [b])) := by
    refine h.enabled (canTake_of_onLock rfl hout ⟨hstage, nofun, Nat.succ_le_of_lt (by decide), ?_⟩)
    rw [hbs]
    exact List.prefix_append [b] bs
  refine ⟨.read (.data [b]), rfl, he, ⟨keeps_ok nonblock s _ h.ok he, h.live, nofun, h.contained⟩, ?_⟩
  have hsection := sectionLeft_request (nothing_inFlight h.ok.requested hout).1 [b]
  show 7 * (s.pending.drop 1).length + 3 + sectionLeft ((bufferLock g).next s.monitor (.request .reader (.chunk [b]))) <
    s.behind
  unfold Threads.behind
  rw [hsection, hstage, hbs]
  simp only [Stage.ahead, List.drop_succ_cons, List.drop_zero, List.length_cons, List.length_nil]
  omega

/-- **While the screen is behind, some step brings it nearer.** -/
theorem advances (h : s.Reading) (hbehind : ¬ s.Caught) : s.Advances nonblock := by
  cases hstage : s.stage with
  | process => exact section_advances h hstage
  | read =>
    refine read_advances h hstage fun hpending => hbehind ((caught_iff h.ok).2 ⟨?_, hpending⟩)
    exact inFlight_eq_nil h.ok.requested (not_inside_of_stage h.ok (by rw [hstage]; nofun))
  | test =>
    have he : (threads g nonblock).enabled s .test := h.enabled ⟨nofun, hstage⟩
    have hnext : s.next .test = { s with stage := .read } := by
      show { s with stage := if s.readerRunning then Stage.read else .returned .stopped } = _
      rw [h.ok.running.2 h.live]
      rfl
    have hok : (s.next .test).Ok := keeps_ok nonblock s _ h.ok he
    rw [hnext] at hok
    refine ⟨.test, rfl, he, ?_⟩
    rw [hnext]
    refine ⟨⟨hok, h.live, nofun, h.contained⟩, ?_⟩
    show 7 * s.pending.length + 0 + sectionLeft s.monitor < s.behind
    unfold Threads.behind
    rw [hstage]
    simp only [Stage.ahead]
    omega
  | sleep =>
    have he : (threads g nonblock).enabled s .wake := h.enabled ⟨nofun, hstage⟩
    refine ⟨.wake, rfl, he, ⟨keeps_ok nonblock s _ h.ok he, h.live, nofun, h.contained⟩, ?_⟩
    show 7 * s.pending.length + 1 + sectionLeft s.monitor < s.behind
    unfold Threads.behind
    rw [hstage]
    simp only [Stage.ahead]
    omega
  | returned why => exact absurd hstage (h.running why)

/-! ## Every run -/

/-- Nothing arrives in inward steps. -/
theorem arrived_of_inward (h : (threads g nonblock).Run s es t) (hes : ∀ e ∈ es, e.inward = true) :
    t.arrived = s.arrived := by
  induction h with
  | nil s => rfl
  | @cons s t e es he hrest ih =>
    rw [ih fun e' he' => hes e' (List.mem_cons_of_mem e he')]
    have hinward := hes e List.mem_cons_self
    cases e with
    | arrives bs => cases hinward
    | read r => cases r <;> rfl
    | release u => cases u <;> rfl
    | _ => rfl

/-- Past its end the thread takes nothing more from the terminal. -/
theorem pending_of_returned (h : (threads g nonblock).Run s es t) (hes : ∀ e ∈ es, e.inward = true) (hs : s.Ok)
    {why : Cause} (hstage : s.stage = .returned why) : t.pending = s.pending := by
  have ht := h.invariant (keeps_ok nonblock) hs
  obtain ⟨-, hflow⟩ := flow_of_returned h hs hstage
  have harrived := arrived_of_inward h hes
  rw [ht.account, hs.account, hflow] at harrived
  exact List.append_cancel_left harrived

/-- **Nothing is stuck.** In a session that is in use, while what has arrived leaves the cursor on the screen, whatever the
threads did, the reader and whoever holds the lock can bring all of it to the screen by themselves, exactly if the reader
has not returned or nothing is left to read. -/
theorem catches_up_iff (h : (threads g nonblock).Run (Threads.init g) es s) (hlive : s.phase = .live)
    (hin : Contained g s.arrived) :
    (∃ es' t, (threads g nonblock).Run s es' t ∧ (∀ e ∈ es', e.inward = true) ∧
      t.monitor.shared = terminalProcessBytes (terminalInit g) s.arrived ∧ delivered t.monitor.log = s.arrived) ↔
      (∀ why, s.stage ≠ .returned why) ∨ s.pending = [] := by
  have hok := ok_run h
  by_cases hreturned : ∃ why, s.stage = .returned why
  · obtain ⟨why, hwhy⟩ := hreturned
    rw [or_iff_right fun hrunning => hrunning why hwhy]
    constructor
    · rintro ⟨es', t, hrun, hinward, -, hcaught⟩
      have ht : t.Caught := hcaught.trans (arrived_of_inward hrun hinward).symm
      rw [← pending_of_returned hrun hinward hok hwhy]
      exact ((caught_iff (hrun.invariant (keeps_ok nonblock) hok)).1 ht).2
    · intro hpending
      have hcaught : s.Caught := (caught_iff hok).2
        ⟨inFlight_eq_nil hok.requested (not_inside_of_stage hok (by rw [hwhy]; nofun)), hpending⟩
      exact ⟨[], s, .nil s, nofun, shared_of_caught hok hcaught, hcaught⟩
  · have hrunning : ∀ why, s.stage ≠ .returned why := fun why hwhy => hreturned ⟨why, hwhy⟩
    refine iff_of_true ?_ (.inl hrunning)
    obtain ⟨es', t, hrun, hinward, ht, hcaught⟩ := Machine.exists_run (M := threads g nonblock)
      (fun e => e.inward = true) Threads.behind (fun _ hs hbehind => advances hs hbehind) s.behind s (Nat.le_refl _)
      ⟨hok, hlive, hrunning, hin⟩
    have harrived := arrived_of_inward hrun hinward
    refine ⟨es', t, hrun, hinward, ?_, ?_⟩
    · rw [← harrived]
      exact shared_of_caught ht.ok hcaught
    · rw [← harrived]
      exact hcaught

theorem catches_up_iff_chunkRead :
    let s := chunkRead.foldl Threads.next (Threads.init twoCells)
    (∃ es' t, (threads twoCells true).Run s es' t ∧ (∀ e ∈ es', e.inward = true) ∧
      t.monitor.shared = terminalProcessBytes (terminalInit twoCells) s.arrived ∧ delivered t.monitor.log = s.arrived) ↔
      (∀ why, s.stage ≠ .returned why) ∨ s.pending = [] :=
  catches_up_iff run_chunkRead rfl contained_two

end Ptywrap
