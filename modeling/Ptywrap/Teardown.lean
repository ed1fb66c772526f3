import Ptywrap.Reader
/-!
# Teardown — `ptywrap_destroy` beside the other threads (`api.c`, `reader.c`)

`ptywrap_destroy` clears `reader_running`, waits for the thread and then closes and frees what the session holds.  The
thread is safe from that, and so is a call that holds the lock while the thread waits for it; any other call under way
can come to lose its lock, and so can every later one (`alive_run`).  The thread starts no other `read`, so that the
session is freed after a bounded number of steps, unless a master without `O_NONBLOCK` keeps the thread in the `read` it
is in, or a byte of its last chunk goes outside the buffer (`torn_run`).
-/
namespace Ptywrap

variable {g : Geometry} {nonblock : Bool} {s t : Threads g} {es es' : List ThreadEvent}

theorem inside_of_acquire {u : Thread} (h : Monitor.Enabled s.monitor (.acquire u)) : s.monitor.Inside u := .inl h.2

theorem inside_of_work {u : Thread} (h : Monitor.Enabled s.monitor (.work u)) : s.monitor.Inside u := by
  obtain ⟨held, hheld, howner, -⟩ := h
  exact .inr ⟨held, hheld, howner⟩

theorem inside_of_release {u : Thread} (h : Monitor.Enabled s.monitor (.release u)) : s.monitor.Inside u := by
  obtain ⟨held, hheld, howner, -⟩ := h
  exact .inr ⟨held, hheld, howner⟩

/-! ## The steps of a section -/

/-- The steps of a section that is asked for or under way. -/
def sectionLeft (m : Monitor.State Thread Job (Session g) Output) : Nat :=
  ((m.waiting .reader).elim 0 fun k => ((bufferLock g).steps k).length + 2) + m.held.elim 0 fun h => h.rest.length + 1

theorem length_steps_chunk (bs : List UInt8) : ((bufferLock g).steps (.chunk bs)).length = bs.length :=
  List.length_map _

theorem sectionLeft_request (hwaiting : s.monitor.waiting .reader = none) (bs : List UInt8) :
    sectionLeft ((bufferLock g).next s.monitor (.request .reader (.chunk bs))) =
      sectionLeft s.monitor + (bs.length + 2) := by
  unfold sectionLeft
  show ((Function.update s.monitor.waiting .reader (some (.chunk bs)) .reader).elim 0 _) +
    (s.monitor.held.elim 0 fun h => h.rest.length + 1) = _
  rw [Function.update_self, hwaiting]
  dsimp only [Option.elim]
  rw [length_steps_chunk]
  omega

theorem sectionLeft_acquire (hacquire : Monitor.Enabled s.monitor (.acquire .reader)) :
    sectionLeft ((bufferLock g).next s.monitor (.acquire .reader)) + 1 = sectionLeft s.monitor := by
  obtain ⟨hfree, hwaiting⟩ := hacquire
  obtain ⟨k, hk⟩ := Option.ne_none_iff_exists'.1 hwaiting
  show sectionLeft ((bufferLock g).acquire s.monitor .reader) + 1 = _
  rw [Monitor.acquire_of_waiting hk]
  unfold sectionLeft
  dsimp only
  rw [Function.update_self, hk, hfree]
  dsimp only [Option.elim]
  omega

theorem sectionLeft_work {u : Thread} (hwork : Monitor.Enabled s.monitor (.work u)) :
    sectionLeft ((bufferLock g).next s.monitor (.work u)) + 1 = sectionLeft s.monitor := by
  obtain ⟨held, hheld, -, hrest⟩ := hwork
  obtain ⟨f, rest, hrest⟩ := List.exists_cons_of_ne_nil hrest
  show sectionLeft (Monitor.work s.monitor) + 1 = _
  rw [Monitor.work_of_held hheld hrest]
  unfold sectionLeft
  rw [hheld]
  dsimp only [Option.elim]
  rw [hrest, List.length_cons]
  omega

theorem sectionLeft_release {u : Thread} (hrelease : Monitor.Enabled s.monitor (.release u)) :
    sectionLeft ((bufferLock g).next s.monitor (.release u)) + 1 = sectionLeft s.monitor := by
  obtain ⟨held, hheld, -, hrest⟩ := hrelease
  show sectionLeft (Monitor.release s.monitor) + 1 = _
  rw [Monitor.release_of_held hheld]
  unfold sectionLeft
  rw [hheld]
  dsimp only [Option.elim]
  rw [hrest]
  rfl

/-- The section under way, or the reader's, takes a step. -/
structure Threads.SectionStep (nonblock : Bool) (s : Threads g) (e : ThreadEvent) : Prop where
  can : s.CanTake nonblock e
  kind : e = .acquire .reader ∨ (∃ u, e = .work u) ∨ ∃ u, e = .release u
  left : sectionLeft (s.next e).monitor + 1 = sectionLeft s.monitor

/-- **While the reader is between its two calls on the lock, a section takes steps**: its mutex is free, or somebody's. -/
theorem exists_sectionStep (h : s.Ok) (hstage : s.stage = .process) : ∃ e, s.SectionStep nonblock e := by
  cases hheld : s.monitor.held with
  | none =>
    have hacquire : Monitor.Enabled s.monitor (.acquire .reader) := by
      refine ⟨hheld, (h.process.2 hstage).resolve_right ?_⟩
      rintro ⟨held, hsome, -⟩
      exact absurd (hheld.symm.trans hsome) nofun
    exact ⟨.acquire .reader, canTake_of_onLock rfl hacquire trivial, .inl rfl, sectionLeft_acquire hacquire⟩
  | some held =>
    by_cases hrest : held.rest = []
    · have hrelease : Monitor.Enabled s.monitor (.release held.owner) := ⟨held, hheld, rfl, hrest⟩
      refine ⟨.release held.owner, canTake_of_onLock rfl hrelease trivial, .inr (.inr ⟨_, rfl⟩), ?_⟩
      cases howner : held.owner <;> exact sectionLeft_release (howner ▸ hrelease)
    · have hwork : Monitor.Enabled s.monitor (.work held.owner) := ⟨held, hheld, rfl, hrest⟩
      exact ⟨.work held.owner, canTake_of_onLock rfl hwork trivial, .inr (.inl ⟨_, rfl⟩), sectionLeft_work hwork⟩

namespace Threads.SectionStep

variable {e : ThreadEvent} (h : s.SectionStep nonblock e)
include h

/-- What a section leaves as it is. -/
theorem frame : (s.next e).phase = s.phase ∧ (s.next e).pending = s.pending ∧ (s.next e).arrived = s.arrived := by
  rcases h.kind with rfl | ⟨u, rfl⟩ | ⟨u, rfl⟩
  · exact ⟨rfl, rfl, rfl⟩
  · exact ⟨rfl, rfl, rfl⟩
  · cases u <;> exact ⟨rfl, rfl, rfl⟩

theorem stage : (s.next e).stage = s.stage ∨ (s.next e).stage = .sleep := by
  rcases h.kind with rfl | ⟨u, rfl⟩ | ⟨u, rfl⟩
  · exact .inl rfl
  · exact .inl rfl
  · cases u with
    | reader => exact .inr rfl
    | caller i => exact .inl rfl

/-- A caller that waits goes on waiting. -/
theorem waiting (i : Nat) (hi : s.monitor.waiting (.caller i) ≠ none) : (s.next e).monitor.waiting (.caller i) ≠ none := by
  obtain ⟨hlock, -⟩ := h.can
  rcases h.kind with rfl | ⟨u, rfl⟩ | ⟨u, rfl⟩
  · obtain ⟨-, hwaiting⟩ := hlock _ rfl
    obtain ⟨k, hk⟩ := Option.ne_none_iff_exists'.1 hwaiting
    show ((bufferLock g).acquire s.monitor .reader).waiting (.caller i) ≠ none
    rw [Monitor.acquire_of_waiting hk]
    dsimp only
    rw [Function.update_of_ne (nofun : Thread.caller i ≠ .reader)]
    exact hi
  · obtain ⟨held, hheld, -, hrest⟩ := hlock _ rfl
    obtain ⟨f, rest, hrest⟩ := List.exists_cons_of_ne_nil hrest
    show (Monitor.work s.monitor).waiting (.caller i) ≠ none
    rw [Monitor.work_of_held hheld hrest]
    exact hi
  · obtain ⟨held, hheld, -, -⟩ := hlock _ rfl
    have hrelease : (Monitor.release s.monitor).waiting (.caller i) ≠ none := by
      rw [Monitor.release_of_held hheld]
      exact hi
    cases u <;> exact hrelease

end Threads.SectionStep

/-! ## Who is safe -/

/-- Every call under way holds the lock, and the reader thread waits for it. -/
def Threads.Covered (s : Threads g) : Prop :=
  ∀ i, s.monitor.Inside (.caller i) → s.stage = .process ∧ ∃ held, s.monitor.held = some held ∧ held.owner = .caller i

def ThreadEvent.calls : ThreadEvent → Bool
  | call _ _ => true
  | _ => false

/-- Nobody calls any more. -/
def quiet (g : Geometry) (nonblock : Bool) : Machine (Threads g) ThreadEvent :=
  (threads g nonblock).restrict fun e => e.calls = false

/-- `ptywrap_destroy` was called, and the calls under way are covered. -/
structure Threads.Tearing (s : Threads g) : Prop where
  ok : s.Ok
  destroyed : s.phase ≠ .live
  covered : s.Covered

theorem destroyed_next {e : ThreadEvent} (h : s.phase ≠ .live) : (s.next e).phase ≠ .live := by
  cases e with
  | read r => cases r <;> exact h
  | release u => cases u <;> exact h
  | stop => exact nofun
  | destroyStep =>
    show s.phase.next ≠ .live
    cases s.phase <;> decide
  | _ => exact h

/-- Outside its section the thread has no call beside it. -/
theorem Threads.Tearing.outside (h : s.Tearing) (hstage : s.stage ≠ .process) (u : Thread) : ¬ s.monitor.Inside u := by
  cases u with
  | reader => exact not_inside_of_stage h.ok hstage
  | caller i => exact fun hin => hstage (h.covered i hin).1

theorem covered_next (h : s.Tearing) {e : ThreadEvent} (he : s.CanTake nonblock e) (hcalls : e.calls = false) :
    (s.next e).Covered := by
  obtain ⟨hlock, hguard⟩ := he
  have hout : s.stage ≠ .process → ∀ i, ¬ s.monitor.Inside (.caller i) := fun hstage i => h.outside hstage (.caller i)
  cases e with
  | test => exact fun i hin => absurd hin (hout (by rw [show s.stage = .test from hguard]; nofun) i)
  | wake => exact fun i hin => absurd hin (hout (by rw [show s.stage = .sleep from hguard]; nofun) i)
  | read r =>
    have hnone := hout (by rw [hguard.1]; nofun)
    intro i hin
    cases r with
    | data bs => exact absurd (((Monitor.inside_request (bufferLock g) _ _ _ _).1 hin).resolve_left nofun) (hnone i)
    | _ => exact absurd hin (hnone i)
  | acquire u =>
    intro i hin
    obtain ⟨-, held, hheld, -⟩ := h.covered i ((Monitor.inside_acquire (bufferLock g) (hlock _ rfl) _).1 hin)
    exact absurd ((hlock _ rfl).1.symm.trans hheld) nofun
  | work u =>
    intro i hin
    obtain ⟨hstage, held, hheld, howner⟩ := h.covered i ((Monitor.inside_work (bufferLock g) (hlock _ rfl) _).1 hin)
    obtain ⟨held', hheld', -, hrest⟩ := hlock _ rfl
    obtain rfl := Option.some.inj (hheld.symm.trans hheld')
    obtain ⟨f, rest, hrest⟩ := List.exists_cons_of_ne_nil hrest
    refine ⟨hstage, ?_⟩
    show ∃ held, (Monitor.work s.monitor).held = some held ∧ held.owner = .caller i
    rw [Monitor.work_of_held hheld hrest]
    exact ⟨_, rfl, howner⟩
  | release u =>
    intro i hin
    have hinside := Monitor.inside_release h.ok.serial (hlock _ rfl) (.caller i)
    obtain ⟨hne, hin⟩ : Thread.caller i ≠ u ∧ s.monitor.Inside (.caller i) := by
      cases u <;> exact hinside.1 hin
    obtain ⟨-, held, hheld, howner⟩ := h.covered i hin
    obtain ⟨held', hheld', howner', -⟩ := hlock _ rfl
    obtain rfl := Option.some.inj (hheld.symm.trans hheld')
    exact absurd (howner.symm.trans howner') hne
  | call i c => cases hcalls
  | _ => exact h.covered

theorem keeps_tearing (nonblock : Bool) : (quiet g nonblock).Keeps Threads.Tearing := by
  rintro s e h ⟨he, hcalls⟩
  exact ⟨keeps_ok nonblock s e h.ok he, destroyed_next h.destroyed, covered_next h he.1 hcalls⟩

/-- **Past the join nobody is inside.** -/
theorem Threads.Tearing.outside_of_joined (h : s.Tearing) (hstopping : s.phase ≠ .stopping) (u : Thread) :
    ¬ s.monitor.Inside u := by
  obtain ⟨why, hwhy⟩ := h.ok.joined h.destroyed hstopping
  exact h.outside (by rw [hwhy]; nofun) u

/-- Everything is there as long as somebody is inside. -/
theorem Threads.Tearing.has_of_inside (h : s.Tearing) {u : Thread} (hin : s.monitor.Inside u) (part : Part) :
    s.phase.has part = true := by
  cases hphase : s.phase with
  | live => rfl
  | stopping => rfl
  | _ =>
    refine absurd hin (h.outside_of_joined ?_ u)
    rw [hphase]
    decide

/-- Everything is there until the thread has returned. -/
theorem has_of_stage (h : s.Ok) (hstage : ∀ why, s.stage ≠ .returned why) (part : Part) : s.phase.has part = true := by
  cases hphase : s.phase with
  | live => rfl
  | stopping => rfl
  | _ =>
    obtain ⟨why, hwhy⟩ := h.joined (by rw [hphase]; decide) (by rw [hphase]; decide)
    exact absurd hwhy (hstage why)

/-- **Where the calls are covered, nothing released is made use of.** -/
theorem Threads.Tearing.not_misuses (h : s.Tearing) {e : ThreadEvent} (he : s.CanTake nonblock e)
    (hcalls : e.calls = false) : ¬ s.Misuses e := by
  obtain ⟨hlock, hguard⟩ := he
  have hmutex : s.phase = .bufferFreed → s.monitor.held = none := fun hphase =>
    Monitor.held_eq_none (h.outside_of_joined (by rw [hphase]; decide))
  refine not_misuses_of_has ?_ hmutex
  cases e with
  | arrives bs => exact nofun
  | hangsUp => exact nofun
  | wake => exact nofun
  | test => exact fun part _ => has_of_stage h.ok (by rw [show s.stage = .test from hguard]; nofun) part
  | read r => exact fun part _ => has_of_stage h.ok (by rw [hguard.1]; nofun) part
  | acquire u => exact fun part _ => h.has_of_inside (inside_of_acquire (hlock _ rfl)) part
  | work u => exact fun part _ => h.has_of_inside (inside_of_work (hlock _ rfl)) part
  | release u => exact fun part _ => h.has_of_inside (inside_of_release (hlock _ rfl)) part
  | call i c => cases hcalls
  | stop => exact absurd hguard h.destroyed
  | destroyStep =>
    obtain ⟨hlive, hfreed, -⟩ := hguard
    cases hphase : s.phase with
    | live => exact absurd hphase hlive
    | freed => exact absurd hphase hfreed
    | _ => decide

/-! ## Who is not -/

def Phase.left : Phase → Nat
  | live => 6
  | stopping => 5
  | joined => 4
  | ptyClosed => 3
  | bufferFreed => 2
  | mutexDestroyed => 1
  | freed => 0

/-- The steps of the thread outside its section, from a place in its last turn on. -/
def Stage.left : Stage → Nat
  | returned _ => 0
  | test => 1
  | sleep | process => 2
  | read => 4101

/-- The steps that are left once `reader_running` is cleared. -/
def Threads.left (s : Threads g) : Nat := s.phase.left + s.stage.left + sectionLeft s.monitor

theorem left_stage_le {stage : Stage} (h : stage.left ≤ s.stage.left) :
    ({ s with stage := stage } : Threads g).left ≤ s.left := by
  unfold Threads.left
  dsimp only
  omega

theorem left_stage_lt {stage : Stage} (h : stage.left < s.stage.left) :
    ({ s with stage := stage } : Threads g).left < s.left := by
  unfold Threads.left
  dsimp only
  omega

theorem left_section_lt (hphase : t.phase = s.phase) (hstage : t.stage.left ≤ s.stage.left)
    (hsection : sectionLeft t.monitor + 1 = sectionLeft s.monitor) : t.left < s.left := by
  unfold Threads.left
  rw [hphase]
  omega

theorem left_destroyStep_lt (hlive : s.phase ≠ .live) (hfreed : s.phase ≠ .freed) : (s.next .destroyStep).left < s.left := by
  have hphase : s.phase.next.left < s.phase.left := by
    revert hlive hfreed
    cases s.phase <;> decide
  show s.phase.next.left + s.stage.left + sectionLeft s.monitor < s.left
  unfold Threads.left
  omega

theorem next_test (hok : s.Ok) (hdestroyed : s.phase ≠ .live) : s.next .test = { s with stage := .returned .stopped } := by
  have hrunning : s.readerRunning = false := Bool.eq_false_iff.2 fun hrun => hdestroyed (hok.running.1 hrun)
  show { s with stage := if s.readerRunning then Stage.read else .returned .stopped } = _
  rw [hrunning]
  rfl

/-- A destroyed mutex is nobody's. -/
def Threads.Unlocked (s : Threads g) : Prop := s.phase.has .mutex = false → s.monitor.held = none

theorem keeps_unlocked (nonblock : Bool) : (threads g nonblock).Keeps Threads.Unlocked := by
  rintro s e h ⟨⟨hlock, hguard⟩, hmisuses, -⟩
  cases e with
  | read r => cases r <;> exact h
  | acquire u => exact fun hgone => absurd (.inl ⟨.mutex, by simp [ThreadEvent.uses], hgone⟩) hmisuses
  | work u =>
    obtain ⟨held, hheld, -⟩ := hlock _ rfl
    exact fun hgone => absurd ((h hgone).symm.trans hheld) nofun
  | release u =>
    have hmutex : ¬ s.phase.has .mutex = false := fun hgone =>
      hmisuses (.inl ⟨.mutex, by simp [ThreadEvent.uses], hgone⟩)
    cases u <;> exact fun hgone => absurd hgone hmutex
  | stop => exact nofun
  | destroyStep =>
    -- the mutex goes in the step that has found it free, and is gone in the later ones
    have hfree : s.phase = .bufferFreed → s.monitor.held = none := fun hphase =>
      of_not_not fun hheld => hmisuses (.inr ⟨rfl, hphase, hheld⟩)
    intro hgone
    have hnext : s.phase.next.has .mutex = false := hgone
    cases hphase : s.phase with
    | bufferFreed => exact hfree hphase
    | mutexDestroyed => exact h (by rw [hphase]; rfl)
    | freed => exact h (by rw [hphase]; rfl)
    | _ =>
      rw [hphase] at hnext
      cases hnext
  | _ => exact h

/-- The mutex is destroyed next while somebody holds it, or it is gone and a call comes to lock it. -/
def Threads.LosesLock (s : Threads g) : Prop :=
  (s.phase = .bufferFreed ∧ s.monitor.held ≠ none) ∨
    (s.phase.has .mutex = false ∧ s.monitor.held = none ∧ ∃ i, s.monitor.waiting (.caller i) ≠ none)

/-- **Where the calls are covered, none loses the lock.** -/
theorem Threads.Tearing.not_losesLock (h : s.Tearing) : ¬ s.LosesLock := by
  rintro (⟨hphase, hheld⟩ | ⟨hgone, -, i, hwaiting⟩)
  · exact hheld (Monitor.held_eq_none (h.outside_of_joined (by rw [hphase]; decide)))
  · refine h.outside_of_joined (fun hphase => ?_) (.caller i) (.inl hwaiting)
    rw [hphase] at hgone
    cases hgone

/-- Where a call loses the lock, the next step is one of the misuses. -/
theorem misuses_of_losesLock (nonblock : Bool) (h : s.LosesLock) :
    ∃ e : ThreadEvent, e.calls = false ∧ s.CanTake nonblock e ∧ s.Misuses e := by
  rcases h with ⟨hphase, hheld⟩ | ⟨hgone, hfree, i, hwaiting⟩
  · refine ⟨.destroyStep, rfl, ⟨nofun, ?_⟩, .inr ⟨rfl, hphase, hheld⟩⟩
    show s.phase ≠ .live ∧ s.phase ≠ .freed ∧ _
    rw [hphase]
    exact ⟨nofun, nofun, nofun⟩
  · exact ⟨.acquire (.caller i), rfl, canTake_of_onLock rfl ⟨hfree, hwaiting⟩ trivial,
      .inl ⟨.mutex, by simp [ThreadEvent.uses], hgone⟩⟩

/-- A call waits for the lock, or holds it while the thread does not wait. -/
structure Threads.Exposed (i : Nat) (s : Threads g) : Prop where
  ok : s.Ok
  unlocked : s.Unlocked
  destroyed : s.phase ≠ .live
  contained : Contained g s.arrived
  under : s.monitor.waiting (.caller i) ≠ none ∨
    s.stage ≠ .process ∧ ∃ held, s.monitor.held = some held ∧ held.owner = .caller i

theorem exposed_of_not_covered (hok : s.Ok) (hunlocked : s.Unlocked) (hdestroyed : s.phase ≠ .live)
    (hin : Contained g s.arrived) (h : ¬ s.Covered) : ∃ i, s.Exposed i := by
  obtain ⟨i, hi⟩ := not_forall.1 h
  obtain ⟨hinside, hnot⟩ := Classical.not_imp.1 hi
  exact ⟨i, hok, hunlocked, hdestroyed, hin, hinside.imp id fun hheld => ⟨fun hstage => hnot ⟨hstage, hheld⟩, hheld⟩⟩

/-- Past the mutex the call has lost the lock. -/
theorem has_mutex_of_exposed {i : Nat} (h : s.Exposed i) (hgoal : ¬ s.LosesLock) : s.phase.has .mutex = true := by
  by_contra hgone
  have hgone : s.phase.has .mutex = false := Bool.eq_false_iff.2 hgone
  have hfree := h.unlocked hgone
  refine hgoal (.inr ⟨hgone, hfree, i, h.under.resolve_right ?_⟩)
  rintro ⟨-, held, hheld, -⟩
  exact absurd (hfree.symm.trans hheld) nofun

theorem not_bufferFreed_of_stage (h : s.Ok) (hstage : ∀ why, s.stage ≠ .returned why) : s.phase ≠ .bufferFreed := by
  intro hphase
  have hbuffer := has_of_stage h hstage .buffer
  rw [hphase] at hbuffer
  cases hbuffer

/-- **The thread returns and `ptywrap_destroy` goes on without the call**, until that loses the lock. -/
theorem exposed_advances {i : Nat} (h : s.Exposed i) (hgoal : ¬ s.LosesLock) :
    ∃ e, (quiet g nonblock).enabled s e ∧ (s.next e).Exposed i ∧ (s.next e).left < s.left := by
  -- a step short of the end of the thread finds everything in its place
  have henabled : (∀ why, s.stage ≠ .returned why) → ∀ e : ThreadEvent, e.calls = false → s.CanTake nonblock e →
      (quiet g nonblock).enabled s e := fun hstage e hcalls hcan =>
    ⟨⟨hcan, not_misuses_of_has (fun part _ => has_of_stage h.ok hstage part) fun hphase =>
      absurd hphase (not_bufferFreed_of_stage h.ok hstage), fun _ => not_astray h.ok h.contained⟩, hcalls⟩
  have hkeeps := keeps_ok (g := g) nonblock
  have hunlocked := keeps_unlocked (g := g) nonblock
  cases hstage : s.stage with
  | test =>
    have he := henabled (by rw [hstage]; nofun) .test rfl ⟨nofun, hstage⟩
    refine ⟨.test, he, ⟨hkeeps s _ h.ok he.1, hunlocked s _ h.unlocked he.1, destroyed_next h.destroyed, h.contained, ?_⟩,
      ?_⟩
    · rw [next_test h.ok h.destroyed]
      exact h.under.imp id fun hheld => ⟨nofun, hheld.2⟩
    · rw [next_test h.ok h.destroyed]
      exact left_stage_lt (by rw [hstage]; decide)
  | read =>
    have he := henabled (by rw [hstage]; nofun) (.read .interrupted) rfl ⟨nofun, hstage, trivial⟩
    refine ⟨.read .interrupted, he, ⟨hkeeps s _ h.ok he.1, hunlocked s _ h.unlocked he.1, h.destroyed, h.contained,
      h.under.imp id fun hheld => ⟨nofun, hheld.2⟩⟩, ?_⟩
    have hleft : Stage.sleep.left < s.stage.left := by rw [hstage]; decide
    exact left_stage_lt hleft
  | sleep =>
    have he := henabled (by rw [hstage]; nofun) .wake rfl ⟨nofun, hstage⟩
    refine ⟨.wake, he, ⟨hkeeps s _ h.ok he.1, hunlocked s _ h.unlocked he.1, h.destroyed, h.contained,
      h.under.imp id fun hheld => ⟨nofun, hheld.2⟩⟩, ?_⟩
    have hleft : Stage.test.left < s.stage.left := by rw [hstage]; decide
    exact left_stage_lt hleft
  | process =>
    obtain ⟨e, hstep⟩ : ∃ e, s.SectionStep nonblock e := exists_sectionStep h.ok hstage
    obtain ⟨hphase, -, harrived⟩ := hstep.frame
    have hcalls : e.calls = false := by rcases hstep.kind with rfl | ⟨u, rfl⟩ | ⟨u, rfl⟩ <;> rfl
    have he := henabled (by rw [hstage]; nofun) e hcalls hstep.can
    have hwaiting := h.under.resolve_right fun hheld => hheld.1 hstage
    refine ⟨e, he, ⟨hkeeps s _ h.ok he.1, hunlocked s _ h.unlocked he.1, destroyed_next h.destroyed, ?_,
      .inl (hstep.waiting i hwaiting)⟩, ?_⟩
    · rw [harrived]
      exact h.contained
    · refine left_section_lt hphase ?_ hstep.left
      rcases hstep.stage with hsame | hsleep
      · rw [hsame]
      · rw [hsleep, hstage]
        exact Nat.le_refl 2
  | returned why =>
    have hmutex := has_mutex_of_exposed h hgoal
    have hfree : s.phase = .bufferFreed → s.monitor.held = none := fun hphase =>
      of_not_not fun hheld => hgoal (.inl ⟨hphase, hheld⟩)
    have hhas : ∀ part ∈ ThreadEvent.uses s.phase .destroyStep, s.phase.has part = true := by
      revert hmutex
      cases s.phase <;> decide
    have hfreed : s.phase ≠ .freed := by
      intro hphase
      rw [hphase] at hmutex
      cases hmutex
    have he : (quiet g nonblock).enabled s .destroyStep :=
      ⟨⟨⟨nofun, h.destroyed, hfreed, fun _ => ⟨why, hstage⟩⟩, not_misuses_of_has hhas hfree, nofun⟩, rfl⟩
    exact ⟨.destroyStep, he, ⟨hkeeps s _ h.ok he.1, hunlocked s _ h.unlocked he.1, destroyed_next h.destroyed,
      h.contained, h.under⟩, left_destroyStep_lt h.destroyed hfreed⟩

/-- **A call that is not covered can come to lose the lock.** -/
theorem exists_losesLock (nonblock : Bool) (hok : s.Ok) (hunlocked : s.Unlocked) (hdestroyed : s.phase ≠ .live)
    (hin : Contained g s.arrived) (h : ¬ s.Covered) : ∃ es' t, (quiet g nonblock).Run s es' t ∧ t.LosesLock := by
  obtain ⟨i, hexposed⟩ := exposed_of_not_covered hok hunlocked hdestroyed hin h
  obtain ⟨es', t, hrun, -, -, hloses⟩ := Machine.exists_run (M := quiet g nonblock) (fun _ => True) Threads.left
    (fun s hs hgoal => by
      obtain ⟨e, he, hnext, hleft⟩ := exposed_advances hs hgoal
      exact ⟨e, trivial, he, hnext, hleft⟩) s.left s (Nat.le_refl _) hexposed
  exact ⟨es', t, hrun, hloses⟩

/-- A call that begins later is not covered. -/
theorem not_covered_of_call {i : Nat} {c : Call} (h : s.CanTake nonblock (.call i c)) :
    ¬ (s.next (.call i c)).Covered := by
  intro hcovered
  obtain ⟨-, held, hheld, howner⟩ := hcovered i ((Monitor.inside_request (bufferLock g) _ _ _ _).2 (.inl rfl))
  exact h.1 _ rfl (.inr ⟨held, hheld, howner⟩)

/-- **Nothing is made use of that `ptywrap_destroy` has released**, in whatever order the threads go on, exactly if every
call under way holds the lock and the reader thread waits for it; where one does not, the threads can go on until a call
loses the lock.  No call that begins from then on is covered. -/
theorem alive_run (h : (threads g nonblock).Run (Threads.init g) es s) (hdestroyed : s.phase ≠ .live)
    (hin : Contained g s.arrived) :
    ((∀ es' t e, (quiet g nonblock).Run s es' t → e.calls = false → t.CanTake nonblock e → ¬ t.Misuses e) ↔ s.Covered) ∧
      ((∃ es' t, (quiet g nonblock).Run s es' t ∧ t.LosesLock) ↔ ¬ s.Covered) ∧
      ∀ i c, (threads g nonblock).enabled s (.call i c) → ¬ (s.next (.call i c)).Covered := by
  have hok := ok_run h
  have hunlocked : s.Unlocked := h.invariant (keeps_unlocked nonblock) nofun
  have htearing : ∀ {es' t}, s.Covered → (quiet g nonblock).Run s es' t → t.Tearing := fun hcovered hrun =>
    hrun.invariant (keeps_tearing nonblock) ⟨hok, hdestroyed, hcovered⟩
  refine ⟨⟨fun hsafe => ?_, fun hcovered es' t e hrun hcalls hcan => (htearing hcovered hrun).not_misuses hcan hcalls⟩,
    ⟨?_, exists_losesLock nonblock hok hunlocked hdestroyed hin⟩, fun i c he => not_covered_of_call he.1⟩
  · by_contra hnot
    obtain ⟨es', t, hrun, hloses⟩ := exists_losesLock nonblock hok hunlocked hdestroyed hin hnot
    obtain ⟨e, hcalls, hcan, hmisuses⟩ := misuses_of_losesLock nonblock hloses
    exact hsafe es' t e hrun hcalls hcan hmisuses
  · rintro ⟨es', t, hrun, hloses⟩ hcovered
    exact (htearing hcovered hrun).not_losesLock hloses

/-- A caller asks for the cursor, and the session is destroyed before it gets the lock. -/
def destroyedUnder : List ThreadEvent := [.call 0 (.getCursor 0 0), .test, .stop]

theorem run_destroyedUnder : (threads twoCells true).Run (Threads.init twoCells) destroyedUnder
    (destroyedUnder.foldl Threads.next (Threads.init twoCells)) :=
  .cons (enabled_of_live rfl (canTake_of_onLock rfl (Monitor.not_inside_of_free rfl rfl) ⟨rfl, trivial⟩) nofun) <|
    .cons (enabled_of_live rfl ⟨nofun, rfl⟩ nofun) <| .cons (enabled_of_live rfl ⟨nofun, rfl⟩ nofun) <| .nil _

theorem contained_nil (g : Geometry) : Contained g [] := by
  intro pre hpre
  rw [List.prefix_nil.1 hpre]
  exact inGrid_terminalInit g

theorem alive_run_destroyedUnder :
    let s := destroyedUnder.foldl Threads.next (Threads.init twoCells)
    ((∀ es' t e, (quiet twoCells true).Run s es' t → e.calls = false → t.CanTake true e → ¬ t.Misuses e) ↔ s.Covered) ∧
      ((∃ es' t, (quiet twoCells true).Run s es' t ∧ t.LosesLock) ↔ ¬ s.Covered) ∧
      ∀ i c, (threads twoCells true).enabled s (.call i c) → ¬ (s.next (.call i c)).Covered :=
  alive_run run_destroyedUnder nofun (contained_nil twoCells)

/-! ## How long it takes -/

/-- A step of the library, not of the terminal or of a `read` that fails, and not the beginning of a call. -/
def ThreadEvent.own : ThreadEvent → Bool
  | arrives _ | hangsUp | call _ _ | read .interrupted | read .error => false
  | _ => true

def ThreadEvent.reads : ThreadEvent → Bool
  | read _ => true
  | _ => false

/-- The steps left of a call that holds the lock. -/
def Threads.callLeft (s : Threads g) : Nat :=
  s.monitor.held.elim 0 fun h => if h.owner = .reader then 0 else h.rest.length + 1

/-- **Outside its section the thread has no step of one left.** -/
theorem sectionLeft_eq_zero (h : s.Tearing) (hstage : s.stage ≠ .process) : sectionLeft s.monitor = 0 := by
  have hout := h.outside hstage
  unfold sectionLeft
  rw [Monitor.waiting_eq_none (hout .reader), Monitor.held_eq_none hout]
  rfl

theorem sectionLeft_read (h : s.Tearing) (hstage : s.stage = .read) (bs : List UInt8) :
    sectionLeft ((bufferLock g).next s.monitor (.request .reader (.chunk bs))) = bs.length + 2 := by
  have hprocess : s.stage ≠ .process := by rw [hstage]; nofun
  rw [sectionLeft_request (Monitor.waiting_eq_none (h.outside hprocess .reader)), sectionLeft_eq_zero h hprocess,
    Nat.zero_add]

/-- The mutex is taken by nobody but the thread. -/
theorem acquire_reader (h : s.Tearing) {u : Thread} (hacquire : Monitor.Enabled s.monitor (.acquire u)) : u = .reader := by
  cases u with
  | reader => rfl
  | caller i =>
    obtain ⟨-, held, hheld, -⟩ := h.covered i (inside_of_acquire hacquire)
    exact absurd (hacquire.1.symm.trans hheld) nofun

/-- **Every step of the library brings the end nearer.** -/
theorem left_own (h : s.Tearing) {e : ThreadEvent} (he : s.CanTake nonblock e) (hown : e.own = true) :
    (s.next e).left < s.left := by
  obtain ⟨hlock, hguard⟩ := he
  cases e with
  | arrives bs => cases hown
  | hangsUp => cases hown
  | test =>
    have hstage : s.stage = .test := hguard
    rw [next_test h.ok h.destroyed]
    exact left_stage_lt (by rw [hstage]; decide)
  | read r =>
    obtain ⟨hstage, hread⟩ := hguard
    cases r with
    | data bs =>
      have hlen : bs.length ≤ 4096 := hread.2.1
      have hsection := sectionLeft_read h hstage bs
      show s.phase.left + Stage.left .process + sectionLeft ((bufferLock g).next s.monitor (.request .reader (.chunk bs)))
        < s.left
      unfold Threads.left
      rw [hsection, hstage]
      simp only [Stage.left]
      omega
    | endOfFile =>
      have hleft : (Stage.returned .endOfFile).left < s.stage.left := by rw [hstage]; decide
      exact left_stage_lt hleft
    | again =>
      have hleft : Stage.sleep.left < s.stage.left := by rw [hstage]; decide
      exact left_stage_lt hleft
    | interrupted => cases hown
    | error => cases hown
  | wake =>
    have hleft : Stage.test.left < s.stage.left := by rw [show s.stage = .sleep from hguard]; decide
    exact left_stage_lt hleft
  | acquire u =>
    have hacquire := hlock _ rfl
    obtain rfl := acquire_reader h hacquire
    have hnext : (s.next (.acquire .reader)).phase = s.phase := rfl
    exact left_section_lt hnext (Nat.le_refl _) (sectionLeft_acquire hacquire)
  | work u =>
    have hnext : (s.next (.work u)).phase = s.phase := rfl
    exact left_section_lt hnext (Nat.le_refl _) (sectionLeft_work (hlock _ rfl))
  | release u =>
    have hrelease := hlock _ rfl
    have hsection := sectionLeft_release hrelease
    cases u with
    | reader =>
      have hstage := h.ok.process.1 (inside_of_release hrelease)
      have hnext : (s.next (.release .reader)).phase = s.phase := rfl
      refine left_section_lt hnext ?_ hsection
      rw [hstage]
      exact Nat.le_refl 2
    | caller i =>
      have hnext : (s.next (.release (.caller i))).phase = s.phase := rfl
      exact left_section_lt hnext (Nat.le_refl _) hsection
  | call i c => cases hown
  | stop => exact absurd hguard h.destroyed
  | destroyStep => exact left_destroyStep_lt hguard.1 hguard.2.1

theorem left_other {e : ThreadEvent} (he : s.CanTake nonblock e) (hcalls : e.calls = false) (hown : e.own = false) :
    (s.next e).left ≤ s.left := by
  obtain ⟨-, hguard⟩ := he
  cases e with
  | arrives bs => exact Nat.le_refl _
  | hangsUp => exact Nat.le_refl _
  | read r =>
    obtain ⟨hstage, -⟩ := hguard
    cases r with
    | interrupted =>
      have hleft : Stage.sleep.left ≤ s.stage.left := by rw [hstage]; decide
      exact left_stage_le hleft
    | error =>
      have hleft : (Stage.returned .error).left ≤ s.stage.left := Nat.zero_le _
      exact left_stage_le hleft
    | _ => cases hown
  | call i c => cases hcalls
  | _ => cases hown

/-- A section of the thread has at most a step for each byte of a `read`, and the two on the lock. -/
theorem sectionLeft_le (h : s.Tearing) : sectionLeft s.monitor ≤ 4098 + s.callLeft := by
  have hchunk : ∀ k, MayAsk g .reader k → ((bufferLock g).steps k).length ≤ 4096 := by
    intro k hk
    cases k with
    | chunk bs =>
      rw [length_steps_chunk]
      exact hk.2
    | call c => cases hk
  have hwaits : ((s.monitor.waiting .reader).elim 0 fun k => ((bufferLock g).steps k).length + 2) ≤ 4098 := by
    cases hwaiting : s.monitor.waiting .reader with
    | none => exact Nat.zero_le _
    | some k => exact Nat.add_le_add_right (hchunk k (h.ok.requested.waiting _ k hwaiting)) 2
  unfold sectionLeft Threads.callLeft
  cases hheld : s.monitor.held with
  | none => exact hwaits
  | some held =>
    obtain ⟨hwaiting, done, hsteps, -⟩ := h.ok.serial.taken held hheld
    have hmay := h.ok.requested.held held hheld
    cases howner : held.owner with
    | caller i =>
      dsimp only [Option.elim]
      rw [howner, if_neg (nofun : Thread.caller i ≠ .reader)]
      exact Nat.add_le_add_right hwaits _
    | reader =>
      rw [howner] at hwaiting hmay
      have hlen := hchunk held.job hmay
      rw [hsteps, List.length_append] at hlen
      rw [hwaiting]
      dsimp only [Option.elim]
      omega

theorem left_le (h : s.Tearing) : s.left ≤ 4106 + s.callLeft := by
  have hsection := sectionLeft_le h
  have hphase : s.phase.left ≤ 5 := by
    have hlive := h.destroyed
    revert hlive
    cases s.phase <;> decide
  unfold Threads.left
  by_cases hstage : s.stage = .process
  · rw [hstage]
    simp only [Stage.left]
    omega
  · have hzero := sectionLeft_eq_zero h hstage
    have hleft : s.stage.left ≤ 4101 := by
      cases s.stage <;> simp [Stage.left]
    omega

/-- The `read`s that the thread may still make. -/
def Threads.readsLeft (s : Threads g) : Nat := if s.stage = .read then 1 else 0

/-- **The thread starts no other `read`.** -/
theorem reads_next (h : s.Tearing) {e : ThreadEvent} : (s.next e).stage = .read → e.reads = false ∧ s.stage = .read := by
  intro hstage
  cases e with
  | test =>
    rw [next_test h.ok h.destroyed] at hstage
    cases hstage
  | read r => cases r <;> cases hstage
  | wake => cases hstage
  | release u =>
    cases u with
    | reader => cases hstage
    | caller i => exact ⟨rfl, hstage⟩
  | _ => exact ⟨rfl, hstage⟩

theorem readsLeft_reads (h : s.Tearing) {e : ThreadEvent} (he : s.CanTake nonblock e) (hreads : e.reads = true) :
    (s.next e).readsLeft < s.readsLeft := by
  have hnext : (s.next e).stage ≠ .read := fun hstage => absurd (hreads.symm.trans (reads_next h hstage).1) nofun
  obtain ⟨-, hguard⟩ := he
  unfold Threads.readsLeft
  rw [if_neg hnext]
  cases e with
  | read r =>
    rw [if_pos hguard.1]
    exact Nat.one_pos
  | _ => cases hreads

theorem readsLeft_other (h : s.Tearing) {e : ThreadEvent} : (s.next e).readsLeft ≤ s.readsLeft := by
  unfold Threads.readsLeft
  by_cases hstage : (s.next e).stage = .read
  · rw [if_pos hstage, if_pos (reads_next h hstage).2]
  · rw [if_neg hstage]
    exact Nat.zero_le _

/-- A master without `O_NONBLOCK` keeps the thread in `read`: no byte is there and the terminal is not hung up. -/
def Threads.Blocked (nonblock : Bool) (s : Threads g) : Prop :=
  nonblock = false ∧ s.stage = .read ∧ s.pending = [] ∧ s.hungUp = false

theorem not_own_of_freed (h : s.Tearing) (hphase : s.phase = .freed) {e : ThreadEvent} (he : s.CanTake nonblock e) :
    e.own = false := by
  obtain ⟨hlock, hguard⟩ := he
  have hstopping : s.phase ≠ .stopping := by rw [hphase]; decide
  have hout := h.outside_of_joined hstopping
  obtain ⟨why, hwhy⟩ := h.ok.joined h.destroyed hstopping
  cases e with
  | test => exact absurd (hwhy.symm.trans hguard) nofun
  | read r => exact absurd (hwhy.symm.trans hguard.1) nofun
  | wake => exact absurd (hwhy.symm.trans hguard) nofun
  | acquire u => exact absurd (inside_of_acquire (hlock _ rfl)) (hout u)
  | work u => exact absurd (inside_of_work (hlock _ rfl)) (hout u)
  | release u => exact absurd (inside_of_release (hlock _ rfl)) (hout u)
  | stop => exact absurd hguard h.destroyed
  | destroyStep => exact absurd hphase hguard.2.1
  | _ => rfl

/-- `ptywrap_destroy` waits for a thread that has not returned. -/
theorem not_destroyStep (h : s.Tearing) (hreturned : ∀ why, s.stage ≠ .returned why) :
    ¬ s.CanTake nonblock .destroyStep := by
  rintro ⟨-, -, -, hjoin⟩
  by_cases hstopping : s.phase = .stopping
  · obtain ⟨why, hwhy⟩ := hjoin hstopping
    exact hreturned why hwhy
  · obtain ⟨why, hwhy⟩ := h.ok.joined h.destroyed hstopping
    exact hreturned why hwhy

theorem not_own_of_blocked (h : s.Tearing) (hblocked : s.Blocked nonblock) {e : ThreadEvent} (he : s.CanTake nonblock e) :
    e.own = false := by
  obtain ⟨hlock, hguard⟩ := id he
  obtain ⟨hnonblock, hstage, hpending, hup⟩ := hblocked
  have hout := h.outside (by rw [hstage]; nofun)
  cases e with
  | test => exact absurd (hstage.symm.trans hguard) nofun
  | read r =>
    obtain ⟨-, hread⟩ := hguard
    cases r with
    | data bs =>
      rw [Threads.CanRead, hpending] at hread
      exact absurd (List.prefix_nil.1 hread.2.2) hread.1
    | endOfFile => exact absurd (hup.symm.trans hread.1) nofun
    | again => exact absurd (hnonblock.symm.trans hread) nofun
    | interrupted => rfl
    | error => rfl
  | wake => exact absurd (hstage.symm.trans hguard) nofun
  | acquire u => exact absurd (inside_of_acquire (hlock _ rfl)) (hout u)
  | work u => exact absurd (inside_of_work (hlock _ rfl)) (hout u)
  | release u => exact absurd (inside_of_release (hlock _ rfl)) (hout u)
  | stop => exact absurd hguard h.destroyed
  | destroyStep => exact absurd he (not_destroyStep h (by rw [hstage]; nofun))
  | _ => rfl

/-- The thread holds the lock at a byte of its chunk. -/
theorem held_of_nextByte (h : s.Ok) {b : UInt8} (hb : b ∈ s.nextByte) :
    ∃ held, s.monitor.held = some held ∧ held.owner = .reader ∧ held.rest ≠ [] := by
  obtain ⟨held, hheld, hnext⟩ := Option.bind_eq_some_iff.1 hb
  have hmay := h.requested.held held hheld
  refine ⟨held, hheld, ?_, ?_⟩
  · cases hjob : held.job with
    | call c =>
      rw [hjob] at hnext
      cases hnext
    | chunk bs =>
      rw [hjob] at hmay
      cases howner : held.owner with
      | reader => rfl
      | caller i =>
        rw [howner] at hmay
        cases hmay
  · intro hrest
    cases hjob : held.job with
    | call c =>
      rw [hjob] at hnext
      cases hnext
    | chunk bs =>
      rw [hjob, hrest] at hnext
      exact absurd (List.getElem?_eq_some_iff.1 hnext).1 (Nat.lt_irrefl _)

theorem not_own_of_astray (h : s.Tearing) (hastray : s.Astray) {e : ThreadEvent} (he : (threads g nonblock).enabled s e) :
    e.own = false := by
  obtain ⟨hcan, -, hinside⟩ := he
  obtain ⟨hlock, hguard⟩ := id hcan
  obtain ⟨b, hb, -⟩ := id hastray
  obtain ⟨held, hheld, howner, hrest⟩ := held_of_nextByte h.ok hb
  have hstage : s.stage = .process := h.ok.process.1 (.inr ⟨held, hheld, howner⟩)
  cases e with
  | test => exact absurd (hstage.symm.trans hguard) nofun
  | read r => exact absurd (hstage.symm.trans hguard.1) nofun
  | wake => exact absurd (hstage.symm.trans hguard) nofun
  | acquire u => exact absurd ((hlock _ rfl).1.symm.trans hheld) nofun
  | work u =>
    obtain ⟨held', hheld', howner', -⟩ := hlock _ rfl
    obtain rfl := Option.some.inj (hheld.symm.trans hheld')
    obtain rfl := howner'.symm.trans howner
    exact absurd hastray (hinside rfl)
  | release u =>
    obtain ⟨held', hheld', -, hdone⟩ := hlock _ rfl
    obtain rfl := Option.some.inj (hheld.symm.trans hheld')
    exact absurd hdone hrest
  | stop => exact absurd hguard h.destroyed
  | destroyStep => exact absurd hcan (not_destroyStep h (by rw [hstage]; nofun))
  | _ => rfl

/-- `read` returns what is there, the end of the output, or `EAGAIN`. -/
theorem read_goes_on (h : s.Ok) (hstage : s.stage = .read) (hblocked : ¬ s.Blocked nonblock) :
    ∃ r, (ThreadEvent.read r).own = true ∧ s.CanTake nonblock (.read r) := by
  cases hpending : s.pending with
  | cons b bs =>
    have hout := not_inside_of_stage h (by rw [hstage]; nofun)
    refine ⟨.data [b], rfl, canTake_of_onLock rfl hout ⟨hstage, nofun, by simp, ?_⟩⟩
    rw [hpending]
    exact List.prefix_append [b] bs
  | nil =>
    cases hnonblock : nonblock with
    | true => exact ⟨.again, rfl, nofun, hstage, rfl⟩
    | false =>
      cases hup : s.hungUp with
      | true => exact ⟨.endOfFile, rfl, nofun, hstage, hup, hpending⟩
      | false => exact absurd ⟨hnonblock, hstage, hpending, hup⟩ hblocked

theorem exists_own (h : s.Tearing) (hfreed : s.phase ≠ .freed) (hblocked : ¬ s.Blocked nonblock) :
    ∃ e : ThreadEvent, e.own = true ∧ s.CanTake nonblock e := by
  cases hstage : s.stage with
  | test => exact ⟨.test, rfl, nofun, hstage⟩
  | read =>
    obtain ⟨r, hown, hcan⟩ := read_goes_on h.ok hstage hblocked
    exact ⟨.read r, hown, hcan⟩
  | process =>
    obtain ⟨e, hstep⟩ : ∃ e, s.SectionStep nonblock e := exists_sectionStep h.ok hstage
    refine ⟨e, ?_, hstep.can⟩
    rcases hstep.kind with rfl | ⟨u, rfl⟩ | ⟨u, rfl⟩ <;> rfl
  | sleep => exact ⟨.wake, rfl, nofun, hstage⟩
  | returned why => exact ⟨.destroyStep, rfl, nofun, h.destroyed, hfreed, fun _ => ⟨why, hstage⟩⟩

theorem calls_of_own {e : ThreadEvent} (hown : e.own = true) : e.calls = false := by
  cases e <;> first | rfl | cases hown

/-- **The library can always go on**, until the session is freed, unless the thread is blocked in `read` or its next byte
goes outside the buffer. -/
theorem goes_on_iff (h : s.Tearing) :
    (∃ e : ThreadEvent, e.own = true ∧ (quiet g nonblock).enabled s e) ↔
      s.phase ≠ .freed ∧ ¬ s.Blocked nonblock ∧ ¬ s.Astray := by
  constructor
  · rintro ⟨e, hown, he, -⟩
    have hnot : e.own ≠ false := by rw [hown]; nofun
    exact ⟨fun hphase => hnot (not_own_of_freed h hphase he.1), fun hblocked => hnot (not_own_of_blocked h hblocked he.1),
      fun hastray => hnot (not_own_of_astray h hastray he)⟩
  · rintro ⟨hfreed, hblocked, hastray⟩
    obtain ⟨e, hown, hcan⟩ := exists_own h hfreed hblocked
    have hcalls := calls_of_own hown
    exact ⟨e, hown, ⟨hcan, h.not_misuses hcan hcalls, fun _ => hastray⟩, hcalls⟩

/-- **`ptywrap_destroy` ends.** Once `reader_running` is cleared over covered calls, and nobody calls any more, the library
takes at most 4106 steps besides those left of a call, and one `read`, however much arrives; and it can always go on until
the session is freed, unless the thread is blocked or comes to a byte that goes outside the buffer. -/
theorem torn_run (h : (threads g nonblock).Run (Threads.init g) es s) (hdestroyed : s.phase ≠ .live) (hcovered : s.Covered)
    (h' : (quiet g nonblock).Run s es' t) :
    es'.countP ThreadEvent.own ≤ 4106 + s.callLeft ∧ es'.countP ThreadEvent.reads ≤ 1 ∧
      ((∃ e : ThreadEvent, e.own = true ∧ (quiet g nonblock).enabled t e) ↔
        t.phase ≠ .freed ∧ ¬ t.Blocked nonblock ∧ ¬ t.Astray) := by
  have hs : s.Tearing := ⟨ok_run h, hdestroyed, hcovered⟩
  have htearing := keeps_tearing (g := g) nonblock
  refine ⟨?_, ?_, goes_on_iff (h'.invariant htearing hs)⟩
  · have hcount := h'.countP_le htearing ThreadEvent.own Threads.left (fun _ _ hs he => left_own hs he.1.1)
      (fun _ _ _ he => left_other he.1.1 he.2) hs
    have hleft := left_le hs
    omega
  · have hcount := h'.countP_le htearing ThreadEvent.reads Threads.readsLeft (fun _ _ hs he => readsLeft_reads hs he.1.1)
      (fun _ _ hs _ _ => readsLeft_other hs) hs
    have hleft : s.readsLeft ≤ 1 := by
      unfold Threads.readsLeft
      split <;> decide
    omega

/-- Destroyed while the thread is about to call `read`. -/
def stopped : List ThreadEvent := [.test, .stop]

def freed : List ThreadEvent :=
  [.read .again, .wake, .test, .destroyStep, .destroyStep, .destroyStep, .destroyStep, .destroyStep]

theorem run_stopped : (threads twoCells true).Run (Threads.init twoCells) stopped
    (stopped.foldl Threads.next (Threads.init twoCells)) :=
  .cons (enabled_of_live rfl ⟨nofun, rfl⟩ nofun) <| .cons (enabled_of_live rfl ⟨nofun, rfl⟩ nofun) <| .nil _

theorem covered_stopped : (stopped.foldl Threads.next (Threads.init twoCells)).Covered :=
  fun _ hin => absurd hin (Monitor.not_inside_of_free rfl rfl)

theorem run_freed : (quiet twoCells true).Run (stopped.foldl Threads.next (Threads.init twoCells)) freed
    ((stopped ++ freed).foldl Threads.next (Threads.init twoCells)) :=
  .cons ⟨⟨⟨nofun, rfl, rfl⟩, not_misuses_of_has (by decide) nofun, nofun⟩, rfl⟩ <|
    .cons ⟨⟨⟨nofun, rfl⟩, not_misuses_of_has (by decide) nofun, nofun⟩, rfl⟩ <|
    .cons ⟨⟨⟨nofun, rfl⟩, not_misuses_of_has (by decide) nofun, nofun⟩, rfl⟩ <|
    .cons ⟨⟨⟨nofun, nofun, nofun, fun _ => ⟨_, rfl⟩⟩, not_misuses_of_has (by decide) nofun, nofun⟩, rfl⟩ <|
    .cons ⟨⟨⟨nofun, nofun, nofun, nofun⟩, not_misuses_of_has (by decide) nofun, nofun⟩, rfl⟩ <|
    .cons ⟨⟨⟨nofun, nofun, nofun, nofun⟩, not_misuses_of_has (by decide) nofun, nofun⟩, rfl⟩ <|
    .cons ⟨⟨⟨nofun, nofun, nofun, nofun⟩, not_misuses_of_has (by decide) fun _ => rfl, nofun⟩, rfl⟩ <|
    .cons ⟨⟨⟨nofun, nofun, nofun, nofun⟩, not_misuses_of_has (by decide) nofun, nofun⟩, rfl⟩ <| .nil _

theorem torn_run_freed :
    let s := stopped.foldl Threads.next (Threads.init twoCells)
    let t := (stopped ++ freed).foldl Threads.next (Threads.init twoCells)
    freed.countP ThreadEvent.own ≤ 4106 + s.callLeft ∧ freed.countP ThreadEvent.reads ≤ 1 ∧
      ((∃ e : ThreadEvent, e.own = true ∧ (quiet twoCells true).enabled t e) ↔
        t.phase ≠ .freed ∧ ¬ t.Blocked true ∧ ¬ t.Astray) :=
  torn_run run_stopped nofun covered_stopped run_freed

end Ptywrap
