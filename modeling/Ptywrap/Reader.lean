import Ptywrap.Machine
import Ptywrap.Picture
import Ptywrap.Sections
/-!
# Reader — the reader thread beside its callers (`reader.c`, `api.c`)

A session's threads as one machine: the terminal, where bytes arrive for the master, `reader_thread_func`, the callers'
locked calls and `ptywrap_destroy` in the thread that calls it.  What arrives is what the child writes, as the line
discipline passes it on (`pty_create` leaves it as it is, `\n` to `\r\n` and echo included), and what it echoes.  A run
goes as far as the steps are defined: none makes use of what is already released, none leaves the buffer.

In every run each byte that arrives is delivered once and in order, or still on its way (`account_run`); each call
answers what its function returns on the screen that a prefix of those bytes leaves (`answers_run`), for all of them once
the reader has come to the end of the output (`answers_after_end`).
-/
namespace Ptywrap

variable {g : Geometry}

inductive Thread where
  | reader
  | caller (i : Nat)
deriving DecidableEq, Repr

/-- Why `reader_thread_func` returned: `reader_running` was cleared, `read` found the end of the output, or it failed. -/
inductive Cause where
  | stopped
  | endOfFile
  | error
deriving DecidableEq, Repr

/-- Where `reader_thread_func` is: before the test of its loop, before `read`, between the two calls on the lock, in
`usleep`, or past its end. -/
inductive Stage where
  | test
  | read
  | process
  | sleep
  | returned (why : Cause)
deriving DecidableEq, Repr

/-- How far `ptywrap_destroy` is: not called, `reader_running` cleared, and then past each of its calls. -/
inductive Phase where
  | live
  | stopping
  | joined
  | ptyClosed
  | bufferFreed
  | mutexDestroyed
  | freed
deriving DecidableEq, Repr

def Phase.next : Phase → Phase
  | live => stopping
  | stopping => joined
  | joined => ptyClosed
  | ptyClosed => bufferFreed
  | bufferFreed => mutexDestroyed
  | mutexDestroyed | freed => freed

/-- The master is open. -/
def Phase.masterOpen : Phase → Bool
  | live | stopping | joined => true
  | ptyClosed | bufferFreed | mutexDestroyed | freed => false

/-- `read` on the master: bytes, `0` or the `EIO` of a hung-up terminal, `EAGAIN`, `EINTR`, any other error. -/
inductive ReadResult where
  | data (bs : List UInt8)
  | endOfFile
  | again
  | interrupted
  | error
deriving DecidableEq, Repr

/-- What the threads of a session share besides its cells. -/
inductive Part where
  | block
  | mutex
  | master
  | buffer
  | thread
deriving DecidableEq, Repr

/-- What `ptywrap_destroy` has not released yet. -/
def Phase.has : Phase → Part → Bool
  | live, _ | stopping, _ => true
  | joined, part => part != .thread
  | ptyClosed, part => part != .thread && part != .master
  | bufferFreed, part => part != .thread && part != .master && part != .buffer
  | mutexDestroyed, part => part == .block
  | freed, _ => false

/-- The session with its threads, the bytes the terminal holds for `read`, and all that has arrived there. -/
structure Threads (g : Geometry) where
  monitor : Monitor.State Thread Job (Session g) Output
  stage : Stage
  readerRunning : Bool
  phase : Phase
  pending : List UInt8
  hungUp : Bool
  arrived : List UInt8

inductive ThreadEvent where
  | arrives (bs : List UInt8)
  | hangsUp
  | test
  | read (r : ReadResult)
  | wake
  | acquire (t : Thread)
  | work (t : Thread)
  | release (t : Thread)
  | call (i : Nat) (c : Call)
  | stop
  | destroyStep

/-- A session that was just created, its reader started. -/
def Threads.init (g : Geometry) : Threads g := ⟨Monitor.init (terminalInit g), .test, true, .live, [], false, []⟩

/-- What an event is on `buffer_lock`. -/
def ThreadEvent.onLock : ThreadEvent → Option (Monitor.Event Thread Job)
  | read (.data bs) => some (.request .reader (.chunk bs))
  | call i c => some (.request (.caller i) (.call c))
  | acquire t => some (.acquire t)
  | work t => some (.work t)
  | release t => some (.release t)
  | _ => none

/-- What an event makes use of.  Whoever holds the lock counts as using the buffer at each step. -/
def ThreadEvent.uses (phase : Phase) : ThreadEvent → List Part
  | arrives _ | hangsUp | wake => []
  | test | call _ _ | stop => [.block]
  | read _ => [.block, .master]
  | acquire _ | release _ => [.block, .mutex]
  | work _ => [.block, .buffer]
  | destroyStep =>
    match phase with
    | .live | .freed => []
    | .stopping => [.block, .thread]
    | .joined => [.block, .master]
    | .ptyClosed => [.block, .buffer]
    | .bufferFreed => [.block, .mutex]
    | .mutexDestroyed => [.block]

/-- What the kernel may answer: no byte that has not arrived, in order and at most a bufferful; the end once the last
descriptor of the slave is closed and all is read; `EAGAIN` where `O_NONBLOCK` is set. -/
def Threads.CanRead (nonblock : Bool) (s : Threads g) : ReadResult → Prop
  | .data bs => bs ≠ [] ∧ bs.length ≤ 4096 ∧ bs <+: s.pending
  | .endOfFile => s.hungUp = true ∧ s.pending = []
  | .again => nonblock = true
  | .interrupted | .error => True

/-- Where a thread, the terminal or the kernel comes to an event.  Callers call what `Call.Sound` allows, at any time, and
one of them destroys the session once. -/
def Threads.Guard (nonblock : Bool) (s : Threads g) : ThreadEvent → Prop
  | .arrives _ => s.phase.masterOpen = true
  | .hangsUp => True
  | .test => s.stage = .test
  | .read r => s.stage = .read ∧ s.CanRead nonblock r
  | .wake => s.stage = .sleep
  | .acquire _ | .work _ | .release _ => True
  | .call _ c => c.passes g = true ∧ c.Sound g
  | .stop => s.phase = .live
  | .destroyStep => s.phase ≠ .live ∧ s.phase ≠ .freed ∧ (s.phase = .stopping → ∃ why, s.stage = .returned why)

def Threads.CanTake (nonblock : Bool) (s : Threads g) (e : ThreadEvent) : Prop :=
  (∀ e', e.onLock = some e' → Monitor.Enabled s.monitor e') ∧ s.Guard nonblock e

/-- The event makes use of what is released, or destroys a mutex that is locked. -/
def Threads.Misuses (s : Threads g) (e : ThreadEvent) : Prop :=
  (∃ part ∈ e.uses s.phase, s.phase.has part = false) ∨
    (e = .destroyStep ∧ s.phase = .bufferFreed ∧ s.monitor.held ≠ none)

/-- The byte of a chunk under way that comes next. -/
def Threads.nextByte (s : Threads g) : Option UInt8 :=
  s.monitor.held.bind fun h =>
    match h.job with
    | .chunk bs => bs[bs.length - h.rest.length]?
    | .call _ => none

/-- The next byte goes outside the buffer, as a line erased without an end does (`byte_ends`). -/
def Threads.Astray (s : Threads g) : Prop := ∃ b ∈ s.nextByte, ¬ s.monitor.shared.ByteInside b

instance (s : Threads g) : Decidable s.Astray := by unfold Threads.Astray; exact inferInstance

/-- What an event changes besides the lock. -/
def Threads.move (s : Threads g) : ThreadEvent → Threads g
  | .arrives bs => { s with pending := s.pending ++ bs, arrived := s.arrived ++ bs }
  | .hangsUp => { s with hungUp := true }
  | .test => { s with stage := if s.readerRunning then .read else .returned .stopped }
  | .read (.data bs) => { s with stage := .process, pending := s.pending.drop bs.length }
  | .read .endOfFile => { s with stage := .returned .endOfFile }
  | .read .again | .read .interrupted => { s with stage := .sleep }
  | .read .error => { s with stage := .returned .error }
  | .wake => { s with stage := .test }
  | .release .reader => { s with stage := .sleep }
  | .acquire _ | .work _ | .release (.caller _) | .call _ _ => s
  | .stop => { s with readerRunning := false, phase := .stopping }
  | .destroyStep => { s with phase := s.phase.next }

def Threads.next (s : Threads g) (e : ThreadEvent) : Threads g :=
  match e.onLock with
  | none => s.move e
  | some e' => { s.move e with monitor := (bufferLock g).next s.monitor e' }

/-- The threads, as far as what they do is defined; `nonblock` is whether `fcntl` set `O_NONBLOCK` on the master. -/
def threads (g : Geometry) (nonblock : Bool) : Machine (Threads g) ThreadEvent where
  enabled s e := s.CanTake nonblock e ∧ ¬ s.Misuses e ∧ (e = .work .reader → ¬ s.Astray)
  next := Threads.next

theorem canTake_of_onLock {nonblock : Bool} {s : Threads g} {e : ThreadEvent} {e' : Monitor.Event Thread Job}
    (he : e.onLock = some e') (hlock : Monitor.Enabled s.monitor e') (hguard : s.Guard nonblock e) :
    s.CanTake nonblock e := by
  refine ⟨fun e'' he'' => ?_, hguard⟩
  rw [he, Option.some.injEq] at he''
  exact he'' ▸ hlock

theorem not_misuses_of_has {s : Threads g} {e : ThreadEvent} (hhas : ∀ part ∈ e.uses s.phase, s.phase.has part = true)
    (hmutex : s.phase = .bufferFreed → s.monitor.held = none) : ¬ s.Misuses e := by
  rintro (⟨part, hpart, hgone⟩ | ⟨-, hphase, hheld⟩)
  · exact absurd ((hhas part hpart).symm.trans hgone) nofun
  · exact hheld (hmutex hphase)

/-- **Before `ptywrap_destroy` is called nothing is released.** -/
theorem not_misuses_of_live {s : Threads g} (hlive : s.phase = .live) (e : ThreadEvent) : ¬ s.Misuses e := by
  refine not_misuses_of_has (fun part _ => ?_) fun hphase => absurd (hlive.symm.trans hphase) nofun
  rw [hlive]
  rfl

theorem enabled_of_live {nonblock : Bool} {s : Threads g} {e : ThreadEvent} (hlive : s.phase = .live)
    (hcan : s.CanTake nonblock e) (hinside : e = .work .reader → ¬ s.Astray) : (threads g nonblock).enabled s e :=
  ⟨hcan, not_misuses_of_live hlive e, hinside⟩

/-! ## What is on its way -/

def Job.bytes : Job → List UInt8
  | chunk bs => bs
  | call _ => []

/-- The bytes of the chunks that were processed. -/
def delivered (log : List (Monitor.Entry Thread Job Output)) : List UInt8 := log.flatMap fun e => e.job.bytes

/-- The bytes of the chunk that the reader has read and not yet processed whole. -/
def inFlight (m : Monitor.State Thread Job (Session g) Output) : List UInt8 :=
  (m.waiting .reader).elim [] Job.bytes ++ m.held.elim [] fun h => h.job.bytes

/-- All that was read, in order. -/
def flow (m : Monitor.State Thread Job (Session g) Output) : List UInt8 := delivered m.log ++ inFlight m

/-- The reader's jobs are chunks, the callers' are calls that pass their checks. -/
def MayAsk (g : Geometry) : Thread → Job → Prop
  | .reader, .chunk bs => bs ≠ [] ∧ bs.length ≤ 4096
  | .caller _, .call c => c.passes g = true ∧ c.Sound g
  | _, _ => False

/-- **Completed jobs leave the screen of the bytes they delivered.** -/
theorem replay_eq : ∀ (log : List (Monitor.Entry Thread Job Output)) (s : Session g),
    (bufferLock g).replay s log = terminalProcessBytes s (delivered log)
  | [], _ => rfl
  | e :: log, s => by
    have hrest := replay_eq log ((bufferLock g).atomic e.job s).1
    have hjob : ((bufferLock g).atomic e.job s).1 = terminalProcessBytes s e.job.bytes := by
      cases e.job with
      | chunk bs => rw [atomic_chunk]; rfl
      | call c => exact atomic_call_fst c s
    unfold delivered at hrest ⊢
    rw [List.flatMap_cons, terminalProcessBytes_append, ← hjob]
    exact hrest

/-- What holds in every state of a run. -/
structure Threads.Ok (s : Threads g) : Prop where
  serial : (bufferLock g).Serial (terminalInit g) s.monitor
  requested : Monitor.Requested (MayAsk g) s.monitor
  process : s.monitor.Inside .reader ↔ s.stage = .process
  running : s.readerRunning = true ↔ s.phase = .live
  joined : s.phase ≠ .live → s.phase ≠ .stopping → ∃ why, s.stage = .returned why
  account : s.arrived = flow s.monitor ++ s.pending

/-! ## One step -/

section Flow

variable {m : Monitor.State Thread Job (Session g) Output}

theorem bytes_of_caller {i : Nat} {k : Job} (h : MayAsk g (.caller i) k) : k.bytes = [] := by
  cases k with
  | chunk bs => cases h
  | call c => rfl

theorem nothing_inFlight (hm : Monitor.Requested (MayAsk g) m) (hout : ¬ m.Inside .reader) :
    m.waiting .reader = none ∧ (m.held.elim [] fun h => h.job.bytes) = [] := by
  unfold Monitor.State.Inside at hout
  rw [not_or, not_not] at hout
  obtain ⟨hwaiting, hheld⟩ := hout
  refine ⟨hwaiting, ?_⟩
  cases hh : m.held with
  | none => rfl
  | some h =>
    have hmay := hm.held h hh
    cases howner : h.owner with
    | reader => exact absurd ⟨h, hh, howner⟩ hheld
    | caller i =>
      rw [howner] at hmay
      exact bytes_of_caller hmay

theorem inFlight_eq_nil (hm : Monitor.Requested (MayAsk g) m) (hout : ¬ m.Inside .reader) : inFlight m = [] := by
  obtain ⟨hwaiting, hheld⟩ := nothing_inFlight hm hout
  unfold inFlight
  rw [hwaiting, hheld]
  rfl

theorem flow_read (hm : Monitor.Requested (MayAsk g) m) (hout : ¬ m.Inside .reader) (bs : List UInt8) :
    flow ((bufferLock g).next m (.request .reader (.chunk bs))) = flow m ++ bs := by
  obtain ⟨hwaiting, hheld⟩ := nothing_inFlight hm hout
  unfold flow inFlight
  rw [hwaiting, hheld]
  show delivered m.log ++ ((Function.update m.waiting .reader (some (.chunk bs)) .reader).elim [] Job.bytes ++
    m.held.elim [] fun h => h.job.bytes) = _
  rw [Function.update_self, hheld]
  simp [Job.bytes]

theorem flow_call (i : Nat) (c : Call) : flow ((bufferLock g).next m (.request (.caller i) (.call c))) = flow m := by
  show delivered m.log ++ ((Function.update m.waiting (.caller i) (some (.call c)) .reader).elim [] Job.bytes ++
    m.held.elim [] fun h => h.job.bytes) = _
  rw [Function.update_of_ne (nofun : Thread.reader ≠ .caller i)]
  rfl

theorem flow_acquire (hm : Monitor.Requested (MayAsk g) m) {t : Thread} (h : Monitor.Enabled m (.acquire t)) :
    flow ((bufferLock g).next m (.acquire t)) = flow m := by
  obtain ⟨hfree, hwaiting⟩ := h
  obtain ⟨k, hk⟩ := Option.ne_none_iff_exists'.1 hwaiting
  show flow ((bufferLock g).acquire m t) = _
  rw [Monitor.acquire_of_waiting hk]
  unfold flow inFlight
  rw [hfree]
  cases t with
  | reader =>
    dsimp only
    rw [Function.update_self, hk]
    simp
  | caller i =>
    have hbytes := bytes_of_caller (hm.waiting _ k hk)
    dsimp only
    rw [Function.update_of_ne (nofun : Thread.reader ≠ .caller i)]
    simp [hbytes]

theorem flow_work {t : Thread} (h : Monitor.Enabled m (.work t)) : flow ((bufferLock g).next m (.work t)) = flow m := by
  obtain ⟨held, hheld, -, hrest⟩ := h
  obtain ⟨f, rest, hrest⟩ := List.exists_cons_of_ne_nil hrest
  show flow (Monitor.work m) = _
  rw [Monitor.work_of_held hheld hrest]
  unfold flow inFlight
  rw [hheld]
  rfl

theorem flow_release (hm : Monitor.Requested (MayAsk g) m) (hserial : (bufferLock g).Serial (terminalInit g) m)
    {t : Thread} (h : Monitor.Enabled m (.release t)) : flow ((bufferLock g).next m (.release t)) = flow m := by
  obtain ⟨held, hheld, howner, hrest⟩ := h
  have hwaiting := (hserial.taken held hheld).1
  have hmay := hm.held held hheld
  show flow (Monitor.release m) = _
  rw [Monitor.release_of_held hheld]
  unfold flow inFlight delivered
  rw [hheld, List.flatMap_append, List.flatMap_singleton]
  rw [howner] at hwaiting hmay
  cases t with
  | reader => simp [hwaiting]
  | caller i => simp [bytes_of_caller hmay]

end Flow

theorem ok_init (g : Geometry) : (Threads.init g).Ok where
  serial := (bufferLock g).serial_init (terminalInit g)
  requested := ⟨nofun, nofun, nofun⟩
  process := by simp [Monitor.State.Inside, Threads.init, Monitor.init]
  running := by simp [Threads.init]
  joined := fun h => absurd rfl h
  account := rfl

/-- The reader goes on outside the lock. -/
theorem ok_stage {s : Threads g} (h : s.Ok) {stage : Stage} (hprocess : s.stage ≠ .process)
    (hreturned : ∀ why, s.stage ≠ .returned why) (hstage : stage ≠ .process) : { s with stage := stage }.Ok where
  serial := h.serial
  requested := h.requested
  process := iff_of_false (fun hin => hprocess (h.process.1 hin)) hstage
  running := h.running
  joined := fun hlive hstopping => by
    obtain ⟨why, hwhy⟩ := h.joined hlive hstopping
    exact absurd hwhy (hreturned why)
  account := h.account

theorem ok_read {s : Threads g} {nonblock : Bool} (h : s.Ok) {r : ReadResult} (he : s.CanTake nonblock (.read r)) :
    ((threads g nonblock).next s (.read r)).Ok := by
  obtain ⟨hlock, hstage, hread⟩ := he
  have hprocess : s.stage ≠ .process := by rw [hstage]; decide
  have hreturned : ∀ why, s.stage ≠ .returned why := by rw [hstage]; exact nofun
  cases r with
  | endOfFile => exact ok_stage h hprocess hreturned (by decide)
  | again => exact ok_stage h hprocess hreturned (by decide)
  | interrupted => exact ok_stage h hprocess hreturned (by decide)
  | error => exact ok_stage h hprocess hreturned (by decide)
  | data bs =>
    obtain ⟨hne, hlen, rest, hrest⟩ := hread
    have hrequest := hlock _ rfl
    refine ⟨Monitor.serial_next h.serial hrequest, Monitor.requested_next (bufferLock g) h.requested hrequest ?_, ?_, h.running,
      ?_, ?_⟩
    · rintro i k ⟨⟩
      exact ⟨hne, hlen⟩
    · exact iff_of_true ((Monitor.inside_request (bufferLock g) _ _ _ _).2 (.inl rfl)) rfl
    · intro hlive hstopping
      obtain ⟨why, hwhy⟩ := h.joined hlive hstopping
      exact absurd hwhy (hreturned why)
    · show s.arrived = flow ((bufferLock g).next s.monitor (.request .reader (.chunk bs))) ++ s.pending.drop bs.length
      rw [flow_read h.requested hrequest, h.account, ← hrest, List.drop_left, List.append_assoc]

theorem ok_release {s : Threads g} {nonblock : Bool} (h : s.Ok) {t : Thread} (he : s.CanTake nonblock (.release t)) :
    ((threads g nonblock).next s (.release t)).Ok := by
  have hrelease := he.1 _ rfl
  have hinside := Monitor.inside_release h.serial hrelease
  have hserial := Monitor.serial_next h.serial hrelease
  have hrequested := Monitor.requested_next (bufferLock g) h.requested hrelease nofun
  have haccount : s.arrived = flow ((bufferLock g).next s.monitor (.release t)) ++ s.pending := by
    rw [flow_release h.requested h.serial hrelease]
    exact h.account
  cases t with
  | reader =>
    have hstage : s.stage = .process := by
      obtain ⟨held, hheld, howner, -⟩ := hrelease
      exact h.process.1 (.inr ⟨held, hheld, howner⟩)
    refine ⟨hserial, hrequested, iff_of_false (fun hin => ((hinside _).1 hin).1 rfl) nofun, h.running,
      fun hlive hstopping => ?_, haccount⟩
    obtain ⟨why, hwhy⟩ := h.joined hlive hstopping
    rw [hstage] at hwhy
    cases hwhy
  | caller i =>
    refine ⟨hserial, hrequested, ?_, h.running, h.joined, haccount⟩
    exact (hinside _).trans ((and_iff_right nofun).trans h.process)

/-- **Every event keeps what holds.** -/
theorem keeps_ok (nonblock : Bool) : (threads g nonblock).Keeps Threads.Ok := by
  rintro s e h ⟨he, -, -⟩
  obtain ⟨hlock, hguard⟩ := id he
  cases e with
  | arrives bs =>
    refine ⟨h.serial, h.requested, h.process, h.running, h.joined, ?_⟩
    show s.arrived ++ bs = flow s.monitor ++ (s.pending ++ bs)
    rw [h.account, List.append_assoc]
  | hangsUp => exact ⟨h.serial, h.requested, h.process, h.running, h.joined, h.account⟩
  | test =>
    have hstage : s.stage = .test := hguard
    apply ok_stage h (by rw [hstage]; decide) (by rw [hstage]; exact nofun)
    split <;> decide
  | read r => exact ok_read h he
  | wake =>
    have hstage : s.stage = .sleep := hguard
    exact ok_stage h (by rw [hstage]; decide) (by rw [hstage]; exact nofun) (by decide)
  | acquire t =>
    have hacquire := hlock _ rfl
    have hinside := Monitor.inside_acquire (bufferLock g) hacquire
    refine ⟨Monitor.serial_next h.serial hacquire, Monitor.requested_next (bufferLock g) h.requested hacquire nofun,
      (hinside _).trans h.process, h.running, h.joined, ?_⟩
    show s.arrived = flow ((bufferLock g).next s.monitor (.acquire t)) ++ s.pending
    rw [flow_acquire h.requested hacquire]
    exact h.account
  | work t =>
    have hwork := hlock _ rfl
    have hinside := Monitor.inside_work (bufferLock g) hwork
    refine ⟨Monitor.serial_next h.serial hwork, Monitor.requested_next (bufferLock g) h.requested hwork nofun,
      (hinside _).trans h.process, h.running, h.joined, ?_⟩
    show s.arrived = flow ((bufferLock g).next s.monitor (.work t)) ++ s.pending
    rw [flow_work hwork]
    exact h.account
  | release t => exact ok_release h he
  | call i c =>
    have hcall := hlock _ rfl
    refine ⟨Monitor.serial_next h.serial hcall, Monitor.requested_next (bufferLock g) h.requested hcall ?_,
      (Monitor.inside_request (bufferLock g) _ _ _ _).trans ((or_iff_right nofun).trans h.process), h.running,
      h.joined, ?_⟩
    · rintro j k ⟨⟩
      exact hguard
    · show s.arrived = flow ((bufferLock g).next s.monitor (.request (.caller i) (.call c))) ++ s.pending
      rw [flow_call]
      exact h.account
  | stop =>
    exact ⟨h.serial, h.requested, h.process, iff_of_false nofun nofun, fun _ hnot => absurd rfl hnot, h.account⟩
  | destroyStep =>
    obtain ⟨hlive, hfreed, hjoin⟩ := hguard
    have hnext : s.phase.next ≠ .live := by cases s.phase <;> decide
    refine ⟨h.serial, h.requested, h.process, ?_, fun _ _ => ?_, h.account⟩
    · exact (iff_of_false (fun hrun => hlive (h.running.1 hrun)) hnext)
    · by_cases hstopping : s.phase = .stopping
      · exact hjoin hstopping
      · exact h.joined hlive hstopping

theorem ok_run {nonblock : Bool} {s : Threads g} {es : List ThreadEvent}
    (h : (threads g nonblock).Run (Threads.init g) es s) : s.Ok :=
  h.invariant (keeps_ok nonblock) (ok_init g)

/-! ## Every run -/

variable {nonblock : Bool} {s t : Threads g} {es es' : List ThreadEvent}

theorem shared_of_held (h : s.Ok) {held : Monitor.Held Thread Job (Session g) Output}
    (hheld : s.monitor.held = some held) :
    ∃ done, done <+: inFlight s.monitor ∧
      s.monitor.shared = terminalProcessBytes (terminalInit g) (delivered s.monitor.log ++ done) := by
  obtain ⟨hwaiting, taken, hsteps, hprogress⟩ := h.serial.taken held hheld
  have hmay := h.requested.held held hheld
  have hshared := congrArg Prod.fst hprogress
  rw [replay_eq] at hshared
  simp only [terminalProcessBytes_append]
  cases hjob : held.job with
  | call c =>
    -- a call has only looked at the screen
    rw [hjob] at hsteps hshared
    refine ⟨[], List.nil_prefix, hshared.trans ?_⟩
    refine exec_fst (fun f hf => fst_of_mem_steps c ?_) _ _
    rw [show c.steps g = taken ++ held.rest from hsteps]
    exact List.mem_append_left _ hf
  | chunk bs =>
    have howner : held.owner = .reader := by
      rw [hjob] at hmay
      cases ho : held.owner with
      | reader => rfl
      | caller i =>
        rw [ho] at hmay
        cases hmay
    rw [hjob] at hsteps hshared
    obtain ⟨done, rest, rfl, rfl, -⟩ := List.map_eq_append_iff.1 (show bs.map _ = taken ++ held.rest from hsteps)
    refine ⟨done, ?_, ?_⟩
    · unfold inFlight
      rw [howner] at hwaiting
      rw [hwaiting, hheld]
      dsimp only [Option.elim]
      rw [hjob]
      exact List.prefix_append done rest
    · exact hshared.trans (congrArg Prod.fst (exec_chunk done _ _))

/-- **The session is the one that the bytes processed so far leave.** -/
theorem shared_eq (h : s.Ok) :
    ∃ done, done <+: inFlight s.monitor ∧
      s.monitor.shared = terminalProcessBytes (terminalInit g) (delivered s.monitor.log ++ done) := by
  cases hheld : s.monitor.held with
  | none =>
    refine ⟨[], List.nil_prefix, ?_⟩
    rw [List.append_nil, h.serial.free hheld, replay_eq]
  | some held => exact shared_of_held h hheld

/-- **While what arrives leaves the cursor on the screen**, the next byte stays inside the buffer. -/
theorem inGrid_shared (h : s.Ok) (hin : Contained g s.arrived) : s.monitor.shared.InGrid := by
  obtain ⟨done, hdone, hshared⟩ := shared_eq h
  rw [hshared]
  refine hin _ ?_
  rw [h.account, flow, List.append_assoc]
  exact (List.prefix_append_right_inj _).2 (hdone.trans (List.prefix_append _ _))

theorem not_astray (h : s.Ok) (hin : Contained g s.arrived) : ¬ s.Astray := by
  rintro ⟨b, -, hout⟩
  exact hout (byteInside_of_inGrid (inGrid_shared h hin) b)

/-- **Each byte that arrives is delivered once and in order**: what has arrived is what was processed, then the chunk being
processed, then what `read` has not returned yet.  The session is at any moment the one that the bytes processed so far
leave on a new screen. -/
theorem account_run (h : (threads g nonblock).Run (Threads.init g) es s) :
    s.arrived = delivered s.monitor.log ++ inFlight s.monitor ++ s.pending ∧
      ∃ done, done <+: inFlight s.monitor ∧
        s.monitor.shared = terminalProcessBytes (terminalInit g) (delivered s.monitor.log ++ done) :=
  ⟨(ok_run h).account, shared_eq (ok_run h)⟩

/-- `AB` has arrived, the reader has read the `A` and holds the lock. -/
def chunkRead : List ThreadEvent := [.arrives [65, 66], .test, .read (.data [65]), .acquire .reader]

theorem run_chunkRead : (threads twoCells true).Run (Threads.init twoCells) chunkRead
    (chunkRead.foldl Threads.next (Threads.init twoCells)) :=
  .cons (enabled_of_live rfl ⟨nofun, rfl⟩ nofun) <| .cons (enabled_of_live rfl ⟨nofun, rfl⟩ nofun) <|
    .cons (enabled_of_live rfl (canTake_of_onLock rfl (Monitor.not_inside_of_free rfl rfl)
      ⟨rfl, nofun, by decide, [66], rfl⟩) nofun) <|
    .cons (enabled_of_live rfl (canTake_of_onLock rfl ⟨rfl, nofun⟩ trivial) nofun) <| .nil _

theorem contained_two : Contained twoCells [65, 66] := by
  have hall : ∀ pre ∈ [65, 66].inits, (terminalProcessBytes (terminalInit twoCells) pre).InGrid := by decide
  exact fun pre hpre => hall pre ((List.mem_inits pre _).2 hpre)

theorem account_run_chunkRead :
    let s := chunkRead.foldl Threads.next (Threads.init twoCells)
    s.arrived = delivered s.monitor.log ++ inFlight s.monitor ++ s.pending ∧
      ∃ done, done <+: inFlight s.monitor ∧
        s.monitor.shared = terminalProcessBytes (terminalInit twoCells) (delivered s.monitor.log ++ done) :=
  account_run run_chunkRead

theorem answer_of_mem (h : s.Ok) {pre post : List (Monitor.Entry Thread Job Output)} {i : Nat} {c : Call} {out : Output}
    (hlog : s.monitor.log = pre ++ ⟨.caller i, .call c, out⟩ :: post) :
    c.finish g out = c.answer (terminalProcessBytes (terminalInit g) (delivered pre)) := by
  obtain ⟨hpasses, hsound⟩ : c.passes g = true ∧ c.Sound g := by
    apply h.requested.log ⟨.caller i, .call c, out⟩
    rw [hlog]
    exact List.mem_append_right _ List.mem_cons_self
  have hreply := h.serial.replies pre _ post hlog
  dsimp only at hreply
  rw [hreply, replay_eq]
  exact finish_atomic c _ hpasses hsound

theorem delivered_mono (log log' : List (Monitor.Entry Thread Job Output)) :
    delivered log <+: delivered (log ++ log') := by
  unfold delivered
  rw [List.flatMap_append]
  exact List.prefix_append _ _

theorem delivered_prefix (h : s.Ok) {pre post : List (Monitor.Entry Thread Job Output)}
    (hlog : s.monitor.log = pre ++ post) : delivered pre <+: s.arrived := by
  rw [h.account, flow, hlog, List.append_assoc]
  exact (delivered_mono pre post).trans (List.prefix_append _ _)

/-- **A call never sees half a chunk**: whatever the other threads did meanwhile, it answers what its function returns on
the screen of whole chunks, a prefix of what has arrived. -/
theorem answers_run (h : (threads g nonblock).Run (Threads.init g) es s)
    {pre post : List (Monitor.Entry Thread Job Output)} {i : Nat} {c : Call} {out : Output}
    (hlog : s.monitor.log = pre ++ ⟨.caller i, .call c, out⟩ :: post) :
    c.finish g out = c.answer (terminalProcessBytes (terminalInit g) (delivered pre)) ∧
      delivered pre <+: s.arrived :=
  ⟨answer_of_mem (ok_run h) hlog, delivered_prefix (ok_run h) hlog⟩

/-- The `A` is processed, and then a caller gets the cursor. -/
def cursorRead : List ThreadEvent :=
  [.work .reader, .release .reader, .call 0 (.getCursor 0 0), .acquire (.caller 0), .work (.caller 0), .work (.caller 0),
    .release (.caller 0)]

theorem inside_chunkRead : ¬ (chunkRead.foldl Threads.next (Threads.init twoCells)).Astray := by decide

theorem run_cursorRead : (threads twoCells true).Run (chunkRead.foldl Threads.next (Threads.init twoCells)) cursorRead
    ((chunkRead ++ cursorRead).foldl Threads.next (Threads.init twoCells)) :=
  .cons (enabled_of_live rfl (canTake_of_onLock rfl ⟨_, rfl, rfl, nofun⟩ trivial) fun _ => inside_chunkRead) <|
    .cons (enabled_of_live rfl (canTake_of_onLock rfl ⟨_, rfl, rfl, rfl⟩ trivial) nofun) <|
    .cons (enabled_of_live rfl (canTake_of_onLock rfl (Monitor.not_inside_of_free rfl rfl) ⟨rfl, trivial⟩) nofun) <|
    .cons (enabled_of_live rfl (canTake_of_onLock rfl ⟨rfl, nofun⟩ trivial) nofun) <|
    .cons (enabled_of_live rfl (canTake_of_onLock rfl ⟨_, rfl, rfl, nofun⟩ trivial) nofun) <|
    .cons (enabled_of_live rfl (canTake_of_onLock rfl ⟨_, rfl, rfl, nofun⟩ trivial) nofun) <|
    .cons (enabled_of_live rfl (canTake_of_onLock rfl ⟨_, rfl, rfl, rfl⟩ trivial) nofun) <| .nil _

theorem answers_run_cursorRead :
    Call.finish twoCells ⟨[], [0, 1], [], RowStyle.init⟩ (.getCursor 0 0) =
        Call.answer (terminalProcessBytes (terminalInit twoCells) [65]) (.getCursor 0 0) ∧
      [65] <+: ((chunkRead ++ cursorRead).foldl Threads.next (Threads.init twoCells)).arrived := by
  have hlog : ((chunkRead ++ cursorRead).foldl Threads.next (Threads.init twoCells)).monitor.log =
      [⟨.reader, .chunk [65], ⟨[], [], [], RowStyle.init⟩⟩] ++
        ⟨.caller 0, .call (.getCursor 0 0), ⟨[], [0, 1], [], RowStyle.init⟩⟩ :: [] := rfl
  exact answers_run (run_chunkRead.append run_cursorRead) hlog

/-! ## Past the end of the thread -/

theorem not_inside_of_stage (h : s.Ok) (hstage : s.stage ≠ .process) : ¬ s.monitor.Inside .reader :=
  fun hin => hstage (h.process.1 hin)

theorem flow_of_outside (h : s.Ok) (hstage : s.stage ≠ .process) : flow s.monitor = delivered s.monitor.log := by
  unfold flow
  rw [inFlight_eq_nil h.requested (not_inside_of_stage h hstage), List.append_nil]

/-- The thread stays where it returned, and nothing more is read. -/
theorem flow_of_returned (h : (threads g nonblock).Run s es t) (hs : s.Ok) {why : Cause}
    (hstage : s.stage = .returned why) : t.stage = .returned why ∧ flow t.monitor = flow s.monitor := by
  refine h.relates (keeps_ok nonblock)
    (R := fun s t => s.stage = .returned why → t.stage = .returned why ∧ flow t.monitor = flow s.monitor)
    (fun _ hs => ⟨hs, rfl⟩) (fun s t u hst htu hs => ?_) (fun s e hok he hs => ?_) hs hstage
  · obtain ⟨ht, hflow⟩ := hst hs
    obtain ⟨hu, hflow'⟩ := htu ht
    exact ⟨hu, hflow'.trans hflow⟩
  · obtain ⟨⟨hlock, hguard⟩, -, -⟩ := he
    cases e with
    | test => exact absurd (hs.symm.trans hguard) nofun
    | read r => exact absurd (hs.symm.trans hguard.1) nofun
    | wake => exact absurd (hs.symm.trans hguard) nofun
    | acquire u => exact ⟨hs, flow_acquire hok.requested (hlock _ rfl)⟩
    | work u => exact ⟨hs, flow_work (hlock _ rfl)⟩
    | release u =>
      have hrelease := hlock _ rfl
      refine ⟨?_, flow_release hok.requested hok.serial hrelease⟩
      cases u with
      | reader =>
        obtain ⟨held, hheld, howner, -⟩ := hrelease
        exact absurd (hs.symm.trans (hok.process.1 (.inr ⟨held, hheld, howner⟩))) nofun
      | caller i => exact hs
    | call i c => exact ⟨hs, flow_call i c⟩
    | _ => exact ⟨hs, rfl⟩

/-- **Once `read` has returned the end of the output, every call answers for all that had arrived**, whatever arrives
later. -/
theorem answers_after_end (h : (threads g nonblock).Run (Threads.init g) es s)
    (hend : (threads g nonblock).enabled s (.read .endOfFile))
    (h' : (threads g nonblock).Run (s.next (.read .endOfFile)) es' t)
    {mid post : List (Monitor.Entry Thread Job Output)} {i : Nat} {c : Call} {out : Output}
    (hlog : t.monitor.log = s.monitor.log ++ mid ++ ⟨.caller i, .call c, out⟩ :: post) :
    c.finish g out = c.answer (terminalProcessBytes (terminalInit g) s.arrived) := by
  have hs := ok_run h
  have hu : (s.next (.read .endOfFile)).Ok := keeps_ok nonblock s _ hs hend
  have ht := h'.invariant (keeps_ok nonblock) hu
  obtain ⟨⟨-, hstage, -, hpending⟩, -, -⟩ := hend
  obtain ⟨hreturned, hflow⟩ := flow_of_returned h' hu rfl
  have hall : s.arrived = delivered s.monitor.log := by
    rw [hs.account, hpending, List.append_nil]
    exact flow_of_outside hs (by rw [hstage]; exact nofun)
  have hlate : delivered t.monitor.log = s.arrived := by
    rw [← flow_of_outside ht (by rw [hreturned]; exact nofun), hflow, hs.account, hpending, List.append_nil]
    rfl
  -- nothing was delivered in between
  have hmid : delivered (s.monitor.log ++ mid) = s.arrived := by
    have hbefore := delivered_mono s.monitor.log mid
    have hafter := delivered_mono (s.monitor.log ++ mid) (⟨.caller i, .call c, out⟩ :: post)
    rw [← hlog, hlate] at hafter
    rw [← hall] at hbefore
    exact hafter.eq_of_length_le hbefore.length_le
  rw [answer_of_mem ht hlog, hmid]

/-- `A` arrives, the terminal is hung up, and the reader comes to the end of the output. -/
def outputEnds : List ThreadEvent :=
  [.arrives [65], .hangsUp, .test, .read (.data [65]), .acquire .reader, .work .reader, .release .reader, .wake, .test]

theorem run_outputEnds : (threads twoCells true).Run (Threads.init twoCells) outputEnds
    (outputEnds.foldl Threads.next (Threads.init twoCells)) :=
  .cons (enabled_of_live rfl ⟨nofun, rfl⟩ nofun) <| .cons (enabled_of_live rfl ⟨nofun, trivial⟩ nofun) <|
    .cons (enabled_of_live rfl ⟨nofun, rfl⟩ nofun) <|
    .cons (enabled_of_live rfl (canTake_of_onLock rfl (Monitor.not_inside_of_free rfl rfl)
      ⟨rfl, nofun, by decide, [], rfl⟩) nofun) <|
    .cons (enabled_of_live rfl (canTake_of_onLock rfl ⟨rfl, nofun⟩ trivial) nofun) <|
    .cons (enabled_of_live rfl (canTake_of_onLock rfl ⟨_, rfl, rfl, nofun⟩ trivial) fun _ => by decide) <|
    .cons (enabled_of_live rfl (canTake_of_onLock rfl ⟨_, rfl, rfl, rfl⟩ trivial) nofun) <|
    .cons (enabled_of_live rfl ⟨nofun, rfl⟩ nofun) <| .cons (enabled_of_live rfl ⟨nofun, rfl⟩ nofun) <| .nil _

theorem enabled_outputEnds : (threads twoCells true).enabled (outputEnds.foldl Threads.next (Threads.init twoCells))
    (.read .endOfFile) := enabled_of_live rfl ⟨nofun, rfl, rfl, rfl⟩ nofun

/-- More arrives, and there is a call. -/
def calledLate : List ThreadEvent :=
  [.arrives [66], .call 0 (.getCursor 0 0), .acquire (.caller 0), .work (.caller 0), .work (.caller 0),
    .release (.caller 0)]

theorem run_calledLate : (threads twoCells true).Run
    ((outputEnds.foldl Threads.next (Threads.init twoCells)).next (.read .endOfFile)) calledLate
    ((outputEnds ++ .read .endOfFile :: calledLate).foldl Threads.next (Threads.init twoCells)) :=
  .cons (enabled_of_live rfl ⟨nofun, rfl⟩ nofun) <|
    .cons (enabled_of_live rfl (canTake_of_onLock rfl (Monitor.not_inside_of_free rfl rfl) ⟨rfl, trivial⟩) nofun) <|
    .cons (enabled_of_live rfl (canTake_of_onLock rfl ⟨rfl, nofun⟩ trivial) nofun) <|
    .cons (enabled_of_live rfl (canTake_of_onLock rfl ⟨_, rfl, rfl, nofun⟩ trivial) nofun) <|
    .cons (enabled_of_live rfl (canTake_of_onLock rfl ⟨_, rfl, rfl, nofun⟩ trivial) nofun) <|
    .cons (enabled_of_live rfl (canTake_of_onLock rfl ⟨_, rfl, rfl, rfl⟩ trivial) nofun) <| .nil _

theorem answers_after_end_calledLate :
    Call.finish twoCells ⟨[], [0, 1], [], RowStyle.init⟩ (.getCursor 0 0) =
      Call.answer (terminalProcessBytes (terminalInit twoCells) [65]) (.getCursor 0 0) := by
  have hlog : ((outputEnds ++ .read .endOfFile :: calledLate).foldl Threads.next (Threads.init twoCells)).monitor.log =
      (outputEnds.foldl Threads.next (Threads.init twoCells)).monitor.log ++ [] ++
        ⟨.caller 0, .call (.getCursor 0 0), ⟨[], [0, 1], [], RowStyle.init⟩⟩ :: [] := rfl
  exact answers_after_end run_outputEnds enabled_outputEnds run_calledLate hlog

end Ptywrap
