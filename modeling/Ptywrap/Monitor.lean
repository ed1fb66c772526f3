import Mathlib.Data.List.Basic
import Mathlib.Logic.Function.Basic
/-!
# Monitor — jobs on a state behind a mutex

A thread asks for the mutex with a job, takes it once it is free, works through the steps of the job and gives it back.
Between two steps any other thread may run, but none can take the mutex.  So whatever the interleaving, every job
replies what it replies when it runs in one piece on the state that the jobs completed before it leave, and the state
is theirs at any moment, with the steps taken so far of the job under way (`serial_next`).
-/

/-- The jobs: what a thread's register holds at the start, and the steps on the shared state and the register. -/
structure Monitor (κ σ ρ : Type) where
  start : κ → ρ
  steps : κ → List (σ → ρ → σ × ρ)

namespace Monitor

variable {ι κ σ ρ : Type} (P : Monitor κ σ ρ)

/-- A completed job. -/
structure Entry (ι κ ρ : Type) where
  thread : ι
  job : κ
  reply : ρ

/-- The job under way, with the steps still to come. -/
structure Held (ι κ σ ρ : Type) where
  owner : ι
  job : κ
  rest : List (σ → ρ → σ × ρ)
  reg : ρ

structure State (ι κ σ ρ : Type) where
  shared : σ
  waiting : ι → Option κ
  held : Option (Held ι κ σ ρ)
  log : List (Entry ι κ ρ)

inductive Event (ι κ : Type) where
  | request (i : ι) (k : κ)
  | acquire (i : ι)
  | work (i : ι)
  | release (i : ι)
deriving DecidableEq, Repr

def init (s : σ) : State ι κ σ ρ := ⟨s, fun _ => none, none, []⟩

/-- The thread waits for the mutex or holds it. -/
def State.Inside (m : State ι κ σ ρ) (i : ι) : Prop := m.waiting i ≠ none ∨ ∃ h, m.held = some h ∧ h.owner = i

def Enabled (m : State ι κ σ ρ) : Event ι κ → Prop
  | .request i _ => ¬ m.Inside i
  | .acquire i => m.held = none ∧ m.waiting i ≠ none
  | .work i => ∃ h, m.held = some h ∧ h.owner = i ∧ h.rest ≠ []
  | .release i => ∃ h, m.held = some h ∧ h.owner = i ∧ h.rest = []

def work (m : State ι κ σ ρ) : State ι κ σ ρ :=
  match m.held with
  | none => m
  | some h =>
    match h.rest with
    | [] => m
    | f :: rest =>
      let (shared, reg) := f m.shared h.reg
      { m with shared := shared, held := some { h with rest := rest, reg := reg } }

def release (m : State ι κ σ ρ) : State ι κ σ ρ :=
  match m.held with
  | none => m
  | some h => { m with held := none, log := m.log ++ [⟨h.owner, h.job, h.reg⟩] }

/-! ## What an event does -/

theorem work_of_held {m : State ι κ σ ρ} {h : Held ι κ σ ρ} {f : σ → ρ → σ × ρ} {rest : List (σ → ρ → σ × ρ)}
    (hheld : m.held = some h) (hrest : h.rest = f :: rest) :
    work m = { m with
      shared := (f m.shared h.reg).1, held := some { h with rest := rest, reg := (f m.shared h.reg).2 } } := by
  unfold work
  simp only [hheld, hrest]

theorem release_of_held {m : State ι κ σ ρ} {h : Held ι κ σ ρ} (hheld : m.held = some h) :
    release m = { m with held := none, log := m.log ++ [⟨h.owner, h.job, h.reg⟩] } := by
  unfold release
  rw [hheld]

/-! ## One piece -/

def exec (fs : List (σ → ρ → σ × ρ)) (p : σ × ρ) : σ × ρ := fs.foldl (fun p f => f p.1 p.2) p

/-- A job in one piece: the state it leaves and its reply. -/
def atomic (k : κ) (s : σ) : σ × ρ := exec (P.steps k) (s, P.start k)

/-- The state that completed jobs leave, one after the other. -/
def replay (s : σ) (log : List (Entry ι κ ρ)) : σ := log.foldl (fun s e => (P.atomic e.job s).1) s

theorem exec_append (fs gs : List (σ → ρ → σ × ρ)) (p : σ × ρ) : exec (fs ++ gs) p = exec gs (exec fs p) := by
  unfold exec
  exact List.foldl_append

theorem replay_append (s : σ) (log log' : List (Entry ι κ ρ)) :
    P.replay s (log ++ log') = P.replay (P.replay s log) log' := by
  unfold replay
  exact List.foldl_append

/-- What the mutex makes of the steps: completed jobs ran in one piece, one after the other, and the job under way has
taken its first steps on what they left. -/
structure Serial (s₀ : σ) (m : State ι κ σ ρ) : Prop where
  replies : ∀ pre e post, m.log = pre ++ e :: post → e.reply = (P.atomic e.job (P.replay s₀ pre)).2
  free : m.held = none → m.shared = P.replay s₀ m.log
  taken : ∀ h, m.held = some h →
    m.waiting h.owner = none ∧
    ∃ done, P.steps h.job = done ++ h.rest ∧ (m.shared, h.reg) = exec done (P.replay s₀ m.log, P.start h.job)

theorem serial_init (s₀ : σ) : P.Serial s₀ (init s₀ : State ι κ σ ρ) where
  replies := fun pre e post h => by
    have hlen := congrArg List.length h
    rw [List.length_append, List.length_cons] at hlen
    have hzero : (init s₀ : State ι κ σ ρ).log.length = 0 := rfl
    omega
  free := fun _ => rfl
  taken := fun h hheld => by cases hheld

theorem append_cons_eq_snoc {α : Type} {log pre post : List α} {e x : α} (h : log ++ [x] = pre ++ e :: post) :
    (∃ post', log = pre ++ e :: post') ∨ (pre = log ∧ e = x) := by
  rcases List.eq_nil_or_concat post with rfl | ⟨post', y, rfl⟩
  · have hsnoc := List.append_inj' h rfl
    exact .inr ⟨hsnoc.1.symm, ((List.cons.inj hsnoc.2).1).symm⟩
  · rw [List.concat_eq_append, ← List.cons_append, ← List.append_assoc] at h
    exact .inl ⟨post', (List.append_inj' h rfl).1⟩

variable {P}

theorem serial_work {s₀ : σ} {m : State ι κ σ ρ} (h : P.Serial s₀ m) {held : Held ι κ σ ρ} {f : σ → ρ → σ × ρ}
    {rest : List (σ → ρ → σ × ρ)} (hheld : m.held = some held) (hrest : held.rest = f :: rest) :
    P.Serial s₀ { m with
      shared := (f m.shared held.reg).1,
      held := some { held with rest := rest, reg := (f m.shared held.reg).2 } } where
  replies := h.replies
  free := fun hfree => by cases hfree
  taken := fun held' hheld' => by
    obtain rfl := Option.some.inj hheld'
    obtain ⟨hwaiting, done, hsteps, hprogress⟩ := h.taken held hheld
    refine ⟨hwaiting, done ++ [f], ?_, ?_⟩
    · rw [List.append_assoc, List.singleton_append, ← hrest]
      exact hsteps
    · rw [exec_append, ← hprogress]
      rfl

theorem serial_release {s₀ : σ} {m : State ι κ σ ρ} (h : P.Serial s₀ m) {held : Held ι κ σ ρ}
    (hheld : m.held = some held) (hrest : held.rest = []) :
    P.Serial s₀ { m with held := none, log := m.log ++ [⟨held.owner, held.job, held.reg⟩] } := by
  obtain ⟨-, done, hsteps, hprogress⟩ := h.taken held hheld
  -- the whole job is done
  rw [hrest, List.append_nil] at hsteps
  have hatomic : (m.shared, held.reg) = P.atomic held.job (P.replay s₀ m.log) := by
    unfold atomic
    rw [hsteps]
    exact hprogress
  refine ⟨fun pre e post hlog => ?_, fun _ => ?_, fun held' hheld' => by cases hheld'⟩
  · rcases append_cons_eq_snoc hlog with ⟨post', hlog'⟩ | ⟨rfl, rfl⟩
    · exact h.replies pre e post' hlog'
    · exact congrArg Prod.snd hatomic
  · rw [replay_append]
    exact congrArg Prod.fst hatomic

theorem not_inside_of_free {m : State ι κ σ ρ} {i : ι} (hwaiting : m.waiting i = none) (hfree : m.held = none) :
    ¬ m.Inside i := by
  rintro (h | ⟨h, hheld, -⟩)
  · exact h hwaiting
  · rw [hfree] at hheld
    cases hheld

theorem held_eq_none {m : State ι κ σ ρ} (hout : ∀ i, ¬ m.Inside i) : m.held = none := by
  cases hheld : m.held with
  | none => rfl
  | some h => exact absurd (.inr ⟨h, hheld, rfl⟩) (hout h.owner)

theorem waiting_eq_none {m : State ι κ σ ρ} {i : ι} (hout : ¬ m.Inside i) : m.waiting i = none :=
  of_not_not fun hwaiting => hout (.inl hwaiting)

/-! ## The machine -/

variable [DecidableEq ι]

section Definitions

variable (P)

def acquire (m : State ι κ σ ρ) (i : ι) : State ι κ σ ρ :=
  match m.waiting i with
  | none => m
  | some k => { m with waiting := Function.update m.waiting i none, held := some ⟨i, k, P.steps k, P.start k⟩ }

def next (m : State ι κ σ ρ) : Event ι κ → State ι κ σ ρ
  | .request i k => { m with waiting := Function.update m.waiting i (some k) }
  | .acquire i => acquire P m i
  | .work _ => work m
  | .release _ => release m

end Definitions

theorem acquire_of_waiting {m : State ι κ σ ρ} {i : ι} {k : κ} (h : m.waiting i = some k) :
    acquire P m i =
      { m with waiting := Function.update m.waiting i none, held := some ⟨i, k, P.steps k, P.start k⟩ } := by
  unfold acquire
  rw [h]

theorem serial_request {s₀ : σ} {m : State ι κ σ ρ} (h : P.Serial s₀ m) {i : ι} (k : κ) (hi : ¬ m.Inside i) :
    P.Serial s₀ { m with waiting := Function.update m.waiting i (some k) } where
  replies := h.replies
  free := h.free
  taken := fun held hheld => by
    obtain ⟨hwaiting, hprogress⟩ := h.taken held hheld
    have hne : held.owner ≠ i := fun howner => hi (.inr ⟨held, hheld, howner⟩)
    exact ⟨(Function.update_of_ne hne _ _).trans hwaiting, hprogress⟩

theorem serial_acquire {s₀ : σ} {m : State ι κ σ ρ} (h : P.Serial s₀ m) {i : ι} {k : κ} (hfree : m.held = none) :
    P.Serial s₀ { m with
      waiting := Function.update m.waiting i none, held := some ⟨i, k, P.steps k, P.start k⟩ } where
  replies := h.replies
  free := fun hheld => by cases hheld
  taken := fun held hheld => by
    obtain rfl := Option.some.inj hheld
    refine ⟨Function.update_self i none m.waiting, [], rfl, ?_⟩
    rw [h.free hfree]
    rfl

/-- **Whatever happens next, the jobs run as if one after the other.** -/
theorem serial_next {s₀ : σ} {m : State ι κ σ ρ} (h : P.Serial s₀ m) {e : Event ι κ} (he : Enabled m e) :
    P.Serial s₀ (P.next m e) := by
  cases e with
  | request i k => exact serial_request h k he
  | acquire i =>
    obtain ⟨hfree, hwaiting⟩ := he
    obtain ⟨k, hk⟩ := Option.ne_none_iff_exists'.1 hwaiting
    show P.Serial s₀ (P.acquire m i)
    rw [acquire_of_waiting hk]
    exact serial_acquire h hfree
  | work i =>
    obtain ⟨held, hheld, -, hrest⟩ := he
    obtain ⟨f, rest, hrest⟩ := List.exists_cons_of_ne_nil hrest
    show P.Serial s₀ (work m)
    rw [work_of_held hheld hrest]
    exact serial_work h hheld hrest
  | release i =>
    obtain ⟨held, hheld, -, hrest⟩ := he
    show P.Serial s₀ (release m)
    rw [release_of_held hheld]
    exact serial_release h hheld hrest

/-! ## Who is inside -/

theorem inside_request (P : Monitor κ σ ρ) (m : State ι κ σ ρ) (i j : ι) (k : κ) :
    (P.next m (.request i k)).Inside j ↔ j = i ∨ m.Inside j := by
  show (Function.update m.waiting i (some k) j ≠ none ∨ _) ↔ _
  by_cases hj : j = i
  · subst hj
    rw [Function.update_self]
    exact iff_of_true (.inl (by simp)) (.inl rfl)
  · rw [Function.update_of_ne hj, or_iff_right hj]
    rfl

theorem inside_acquire (P : Monitor κ σ ρ) {m : State ι κ σ ρ} {i : ι} (h : Enabled m (.acquire i)) (j : ι) :
    (P.next m (.acquire i)).Inside j ↔ m.Inside j := by
  obtain ⟨hfree, hwaiting⟩ := h
  obtain ⟨k, hk⟩ := Option.ne_none_iff_exists'.1 hwaiting
  show (P.acquire m i).Inside j ↔ _
  rw [acquire_of_waiting hk]
  unfold State.Inside
  simp only [hfree, Option.some.injEq, exists_eq_left', reduceCtorEq, false_and, exists_false, or_false]
  by_cases hj : j = i
  · subst hj
    exact iff_of_true (.inr rfl) hwaiting
  · rw [Function.update_of_ne hj, or_iff_left (Ne.symm hj)]

theorem inside_work (P : Monitor κ σ ρ) {m : State ι κ σ ρ} {i : ι} (h : Enabled m (.work i)) (j : ι) :
    (P.next m (.work i)).Inside j ↔ m.Inside j := by
  obtain ⟨held, hheld, -, hrest⟩ := h
  obtain ⟨f, rest, hrest⟩ := List.exists_cons_of_ne_nil hrest
  show (work m).Inside j ↔ _
  rw [work_of_held hheld hrest]
  unfold State.Inside
  simp only [hheld, Option.some.injEq, exists_eq_left']

/-- **The one who gives the mutex back is outside, everyone else stays.** -/
theorem inside_release {s₀ : σ} {m : State ι κ σ ρ} (hm : P.Serial s₀ m) {i : ι} (h : Enabled m (.release i)) (j : ι) :
    (P.next m (.release i)).Inside j ↔ j ≠ i ∧ m.Inside j := by
  obtain ⟨held, hheld, rfl, -⟩ := h
  obtain ⟨hwaiting, -⟩ := hm.taken held hheld
  show (release m).Inside j ↔ _
  rw [release_of_held hheld]
  unfold State.Inside
  simp only [hheld, Option.some.injEq, exists_eq_left', reduceCtorEq, false_and, exists_false, or_false]
  by_cases hj : j = held.owner
  · subst hj
    exact iff_of_false (fun hne => hne hwaiting) (fun h => h.1 rfl)
  · rw [and_iff_right hj, or_iff_left (Ne.symm hj)]

/-! ## Who asked for what -/

/-- Every job in sight was one the thread may ask for. -/
structure Requested (Q : ι → κ → Prop) (m : State ι κ σ ρ) : Prop where
  waiting : ∀ i k, m.waiting i = some k → Q i k
  held : ∀ h, m.held = some h → Q h.owner h.job
  log : ∀ e ∈ m.log, Q e.thread e.job

theorem requested_next (P : Monitor κ σ ρ) {Q : ι → κ → Prop} {m : State ι κ σ ρ} (h : Requested Q m) {e : Event ι κ}
    (he : Enabled m e) (hQ : ∀ i k, e = .request i k → Q i k) : Requested Q (P.next m e) := by
  cases e with
  | request i k =>
    refine ⟨fun i' k' hk' => ?_, h.held, h.log⟩
    by_cases hi : i' = i
    · subst hi
      have hself : Function.update m.waiting i' (some k) i' = some k' := hk'
      rw [Function.update_self, Option.some.injEq] at hself
      exact hself ▸ hQ i' k rfl
    · have hother : Function.update m.waiting i (some k) i' = some k' := hk'
      rw [Function.update_of_ne hi] at hother
      exact h.waiting i' k' hother
  | acquire i =>
    obtain ⟨k, hk⟩ := Option.ne_none_iff_exists'.1 he.2
    show Requested Q (P.acquire m i)
    rw [acquire_of_waiting hk]
    refine ⟨fun i' k' hk' => ?_, fun held hheld => ?_, h.log⟩
    · by_cases hi : i' = i
      · subst hi
        have hself : Function.update m.waiting i' none i' = some k' := hk'
        rw [Function.update_self] at hself
        cases hself
      · have hother : Function.update m.waiting i none i' = some k' := hk'
        rw [Function.update_of_ne hi] at hother
        exact h.waiting i' k' hother
    · obtain rfl := Option.some.inj hheld
      exact h.waiting i k hk
  | work i =>
    obtain ⟨held, hheld, -, hrest⟩ := he
    obtain ⟨f, rest, hrest⟩ := List.exists_cons_of_ne_nil hrest
    show Requested Q (work m)
    rw [work_of_held hheld hrest]
    refine ⟨h.waiting, fun held' hheld' => ?_, h.log⟩
    obtain rfl := Option.some.inj hheld'
    exact h.held held hheld
  | release i =>
    obtain ⟨held, hheld, -, -⟩ := he
    show Requested Q (release m)
    rw [release_of_held hheld]
    refine ⟨h.waiting, nofun, fun entry hentry => ?_⟩
    rcases List.mem_append.1 hentry with hentry | hentry
    · exact h.log entry hentry
    · obtain rfl := List.mem_singleton.1 hentry
      exact h.held held hheld

end Monitor
