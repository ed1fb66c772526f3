import Mathlib.Algebra.Order.Group.Multiset
import Ptywrap.Alive
import Ptywrap.Send
/-!
# Handle — what a session acquires (`api.c`, `pty.c`, `terminal.c`, `container.c`, `reader.c`)

Creating a session acquires seven kinds of things and a child process, each by a call that may fail, with an unwinding
of what came before at every failure.  Whatever an API call acquires it leaves with the session or has released again
(`ptywrapCreate_spec`, `ptywrapCreateDirect_spec`, `ptywrapDestroy_held`): the child is the one exception, which no
unwinding and no `ptywrap_destroy` waits for.
-/
namespace Ptywrap

def ptywrapErrThread : Int := -4
def ptywrapErrNomem : Int := -5

/-- Something acquired and not yet released, under the name it was given. -/
inductive Resource where
  | sessionBlock (id : Nat)
  | mutex (id : Nat)
  | ptyMaster (fd : Int)
  | slaveName (id : Nat)
  | cellBuffer (id : Nat)
  | containerId (id : Nat)
  | readerThread (id : Nat)
deriving DecidableEq, Repr

/-- The process the library runs in: a fresh name for what it acquires next, what it holds, and its children. -/
structure World where
  next : Nat
  held : Multiset Resource
  children : Int → ChildState

/-- What the calls inside one API call do: which of them succeed, and the pid of the child. -/
structure Outcomes where
  callocSession : Bool
  mutexInit : Bool
  posixOpenpt : Bool
  grantpt : Bool
  unlockpt : Bool
  ptsname : Bool
  strdupSlave : Bool
  callocBuffer : Bool
  strdupContainer : Bool
  fork : Option Int
  pthreadCreate : Bool
deriving DecidableEq, Repr

/-- Outcomes of a creation in which nothing fails. -/
def allSucceed (pid : Int) : Outcomes := ⟨true, true, true, true, true, true, true, true, true, some pid, true⟩

structure CellBuffer where
  id : Nat
  length : Nat
deriving DecidableEq, Repr

/-- The fields of `struct ptywrap_session` that name something acquired, and the size of the screen. -/
structure Handle where
  address : Nat
  masterFd : Int
  slaveName : Option Nat
  execPid : Int
  containerId : Option Nat
  rows : Int
  cols : Int
  buffer : Option CellBuffer
  readerThread : Nat
  readerRunning : Bool
deriving DecidableEq, Repr

def World.acquire (w : World) (r : Resource) : World := ⟨w.next + 1, r ::ₘ w.held, w.children⟩

def World.release (w : World) (r : Resource) : World := ⟨w.next, w.held.erase r, w.children⟩

/-- `fork` in the parent: the kernel refuses, or gives a pid that is free. -/
def Outcomes.forkPid (os : Outcomes) (children : Int → ChildState) : Option Int :=
  os.fork.filter fun pid => decide (0 < pid ∧ children pid = .absent)

/-! ## Acquiring -/

def ptyCreate (os : Outcomes) (sess : Handle) (w : World) : Int × Handle × World :=
  if os.posixOpenpt = false then (ptywrapErrPty, { sess with masterFd := -1 }, w)
  else
    let sess := { sess with masterFd := w.next }
    let w := w.acquire (.ptyMaster w.next)
    let closed := ({ sess with masterFd := -1 }, w.release (.ptyMaster sess.masterFd))
    if os.grantpt = false ∨ os.unlockpt = false then (ptywrapErrPty, closed)
    else if os.ptsname = false then (ptywrapErrPty, closed)
    else if os.strdupSlave = false then (ptywrapErrNomem, closed)
    else (ptywrapOk, { sess with slaveName := some w.next }, w.acquire (.slaveName w.next))

/-- `terminal_init` up to its loops: the buffer it allocates for the announced size.  `calloc` gives all the cells asked
for or none. -/
def Handle.terminalInit (os : Outcomes) (sess : Handle) (w : World) : Int × Handle × World :=
  if os.callocBuffer = false then (ptywrapErrNomem, { sess with buffer := none }, w)
  else
    (ptywrapOk, { sess with buffer := some ⟨w.next, bufferSize sess.rows sess.cols⟩ }, w.acquire (.cellBuffer w.next))

/-- The `fork` of `container_attach` and `direct_spawn`; the child's side runs in another process. -/
def spawnChild (os : Outcomes) (sess : Handle) (w : World) : Int × Handle × World :=
  match os.forkPid w.children with
  | none => (ptywrapErrContainer, sess, w)
  | some pid => (ptywrapOk, { sess with execPid := pid }, { w with children := ProcTable.spawn w.children pid })

def containerAttach (os : Outcomes) (sess : Handle) (containerId : Option CString) (w : World) :
    Int × Handle × World :=
  if containerId.isNone ∨ sess.slaveName.isNone then (ptywrapErrInval, sess, w) else spawnChild os sess w

/-- `direct_spawn`; `argv` is `none` for a null pointer, and its list ends before the null `argv[n]`. -/
def directSpawn (os : Outcomes) (sess : Handle) (argv : Option (List CString)) (w : World) : Int × Handle × World :=
  if argv.getD [] = [] ∨ sess.slaveName.isNone then (ptywrapErrInval, sess, w) else spawnChild os sess w

def readerStart (os : Outcomes) (sess : Handle) (w : World) : Int × Handle × World :=
  if os.pthreadCreate = false then (ptywrapErrThread, { sess with readerRunning := false }, w)
  else
    (ptywrapOk, { sess with readerRunning := true, readerThread := w.next }, w.acquire (.readerThread w.next))

/-! ## Releasing -/

def ptyClose (sess : Handle) (w : World) : Handle × World :=
  let (sess, w) :=
    if 0 ≤ sess.masterFd then ({ sess with masterFd := -1 }, w.release (.ptyMaster sess.masterFd)) else (sess, w)
  match sess.slaveName with
  | none => (sess, w)
  | some id => ({ sess with slaveName := none }, w.release (.slaveName id))

def terminalFree (sess : Handle) (w : World) : Handle × World :=
  match sess.buffer with
  | none => (sess, w)
  | some b => ({ sess with buffer := none }, w.release (.cellBuffer b.id))

/-- `pthread_join` returns once the thread has ended. -/
def readerStop (sess : Handle) (w : World) : Handle × World :=
  if sess.readerRunning then ({ sess with readerRunning := false }, w.release (.readerThread sess.readerThread))
  else (sess, w)

/-- `free(sess->container_id)`, which a null pointer makes a no-op. -/
def freeContainerId (sess : Handle) (w : World) : World :=
  match sess.containerId with
  | none => w
  | some id => w.release (.containerId id)

/-- `pthread_mutex_destroy` and `free(sess)`, the end of every unwinding. -/
def freeSession (sess : Handle) (w : World) : World :=
  (w.release (.mutex sess.address)).release (.sessionBlock sess.address)

/-! ## The API calls -/

/-- The size a session announces: the size passed to its creation, or the default. -/
def announcedRows (rows : Int) : Int := if rows ≤ 0 then 40 else rows
def announcedCols (cols : Int) : Int := if cols ≤ 0 then 150 else cols

def ptywrapSessionAlloc (os : Outcomes) (rows cols : Int) (w : World) : Option Handle × World :=
  if os.callocSession = false then (none, w)
  else
    let sess : Handle := ⟨w.next, -1, none, -1, none, announcedRows rows, announcedCols cols, none, 0, false⟩
    let w := w.acquire (.sessionBlock w.next)
    if os.mutexInit = false then (none, w.release (.sessionBlock sess.address))
    else
      let w := w.acquire (.mutex sess.address)
      let (ret, sess, w) := ptyCreate os sess w
      if ret ≠ ptywrapOk then (none, freeSession sess w)
      else
        let (ret, sess, w) := sess.terminalInit os w
        if ret ≠ ptywrapOk then
          let (sess, w) := ptyClose sess w
          (none, freeSession sess w)
        else (some sess, w)

/-- The unwinding of a creation whose session was allocated. -/
def unwind (sess : Handle) (w : World) : World :=
  let (sess, w) := terminalFree sess w
  let (sess, w) := ptyClose sess w
  freeSession sess (freeContainerId sess w)

/-- The end of a creation: the reader is started, or everything is unwound. -/
def startReader (os : Outcomes) (sess : Handle) (w : World) : Option Handle × World :=
  let (ret, sess, w) := readerStart os sess w
  if ret ≠ ptywrapOk then (none, unwind sess w) else (some sess, w)

def ptywrapCreate (os : Outcomes) (containerId : Option CString) (rows cols : Int) (w : World) :
    Option Handle × World :=
  if containerId.isNone then (none, w)
  else
    match ptywrapSessionAlloc os rows cols w with
    | (none, w) => (none, w)
    | (some sess, w) =>
      if os.strdupContainer = false then (none, unwind sess w)
      else
        let sess := { sess with containerId := some w.next }
        let w := w.acquire (.containerId w.next)
        let (ret, sess, w) := containerAttach os sess containerId w
        if ret ≠ ptywrapOk then (none, unwind sess w) else startReader os sess w

def ptywrapCreateDirect (os : Outcomes) (argv : Option (List CString)) (rows cols : Int) (w : World) :
    Option Handle × World :=
  if argv.getD [] = [] then (none, w)
  else
    match ptywrapSessionAlloc os rows cols w with
    | (none, w) => (none, w)
    | (some sess, w) =>
      let sess := { sess with containerId := none }
      let (ret, sess, w) := directSpawn os sess argv w
      if ret ≠ ptywrapOk then (none, unwind sess w) else startReader os sess w

def ptywrapDestroy (session : Option Handle) (w : World) : World :=
  match session with
  | none => w
  | some sess =>
    let (sess, w) := readerStop sess w
    let (sess, w) := ptyClose sess w
    let (sess, w) := terminalFree sess w
    freeSession sess (freeContainerId sess w)

/-! ## What a session owns -/

def Handle.threadOwned (h : Handle) : Multiset Resource := if h.readerRunning then {.readerThread h.readerThread} else 0

def Handle.ptyOwned (h : Handle) : Multiset Resource :=
  (if 0 ≤ h.masterFd then {.ptyMaster h.masterFd} else 0) + h.slaveName.elim 0 fun id => {.slaveName id}

def Handle.bufferOwned (h : Handle) : Multiset Resource := h.buffer.elim 0 fun b => {.cellBuffer b.id}

def Handle.containerOwned (h : Handle) : Multiset Resource := h.containerId.elim 0 fun id => {.containerId id}

def Handle.blockOwned (h : Handle) : Multiset Resource := {.mutex h.address, .sessionBlock h.address}

def Handle.owned (h : Handle) : Multiset Resource :=
  h.threadOwned + (h.ptyOwned + (h.bufferOwned + (h.containerOwned + h.blockOwned)))

theorem Handle.owned_idle {h : Handle} (hidle : h.readerRunning = false) :
    h.owned = h.ptyOwned + (h.bufferOwned + (h.containerOwned + h.blockOwned)) := by
  unfold Handle.owned Handle.threadOwned
  rw [if_neg (by rw [hidle]; decide), zero_add]

theorem release_held {w : World} {r : Resource} {rest : Multiset Resource} (h : w.held = {r} + rest) :
    (w.release r).held = rest := by
  unfold World.release
  rw [h, Multiset.singleton_add]
  exact Multiset.erase_cons_head r rest

theorem readerStop_fst (sess : Handle) (w : World) :
    (readerStop sess w).1.address = sess.address ∧ (readerStop sess w).1.ptyOwned = sess.ptyOwned ∧
      (readerStop sess w).1.buffer = sess.buffer ∧ (readerStop sess w).1.containerId = sess.containerId := by
  unfold readerStop
  split
  · exact ⟨rfl, rfl, rfl, rfl⟩
  · exact ⟨rfl, rfl, rfl, rfl⟩

theorem readerStop_snd {sess : Handle} {w : World} {rest : Multiset Resource} (h : w.held = sess.threadOwned + rest) :
    (readerStop sess w).2.held = rest ∧ (readerStop sess w).2.children = w.children := by
  unfold Handle.threadOwned at h
  unfold readerStop
  by_cases hrun : sess.readerRunning = true
  · rw [if_pos hrun] at h ⊢
    exact ⟨release_held h, rfl⟩
  · rw [if_neg hrun] at h ⊢
    exact ⟨h.trans (zero_add rest), rfl⟩

theorem ptyClose_fst (sess : Handle) (w : World) :
    (ptyClose sess w).1.address = sess.address ∧ (ptyClose sess w).1.buffer = sess.buffer ∧
      (ptyClose sess w).1.containerId = sess.containerId := by
  unfold ptyClose
  by_cases hfd : 0 ≤ sess.masterFd
  · rw [if_pos hfd]
    dsimp only
    cases sess.slaveName with
    | none => exact ⟨rfl, rfl, rfl⟩
    | some id => exact ⟨rfl, rfl, rfl⟩
  · rw [if_neg hfd]
    dsimp only
    cases sess.slaveName with
    | none => exact ⟨rfl, rfl, rfl⟩
    | some id => exact ⟨rfl, rfl, rfl⟩

theorem ptyClose_snd {sess : Handle} {w : World} {rest : Multiset Resource} (h : w.held = sess.ptyOwned + rest) :
    (ptyClose sess w).2.held = rest ∧ (ptyClose sess w).2.children = w.children := by
  unfold Handle.ptyOwned at h
  unfold ptyClose
  rw [add_assoc] at h
  by_cases hfd : 0 ≤ sess.masterFd
  · rw [if_pos hfd] at h ⊢
    have hmaster := release_held h
    cases hslave : sess.slaveName with
    | none =>
      rw [hslave] at hmaster
      exact ⟨hmaster.trans (zero_add rest), rfl⟩
    | some id =>
      rw [hslave] at hmaster
      exact ⟨release_held hmaster, rfl⟩
  · rw [if_neg hfd, zero_add] at h
    rw [if_neg hfd]
    dsimp only
    cases hslave : sess.slaveName with
    | none =>
      rw [hslave] at h
      exact ⟨h.trans (zero_add rest), rfl⟩
    | some id =>
      rw [hslave] at h
      exact ⟨release_held h, rfl⟩

theorem terminalFree_fst (sess : Handle) (w : World) :
    (terminalFree sess w).1.address = sess.address ∧ (terminalFree sess w).1.ptyOwned = sess.ptyOwned ∧
      (terminalFree sess w).1.containerId = sess.containerId := by
  unfold terminalFree
  cases sess.buffer with
  | none => exact ⟨rfl, rfl, rfl⟩
  | some b => exact ⟨rfl, rfl, rfl⟩

theorem terminalFree_snd {sess : Handle} {w : World} {rest : Multiset Resource} (h : w.held = sess.bufferOwned + rest) :
    (terminalFree sess w).2.held = rest ∧ (terminalFree sess w).2.children = w.children := by
  unfold Handle.bufferOwned at h
  unfold terminalFree
  cases hbuffer : sess.buffer with
  | none =>
    rw [hbuffer] at h
    exact ⟨h.trans (zero_add rest), rfl⟩
  | some b =>
    rw [hbuffer] at h
    exact ⟨release_held h, rfl⟩

theorem freeContainerId_held {sess : Handle} {w : World} {rest : Multiset Resource}
    (h : w.held = sess.containerOwned + rest) :
    (freeContainerId sess w).held = rest ∧ (freeContainerId sess w).children = w.children := by
  unfold Handle.containerOwned at h
  unfold freeContainerId
  cases hcontainer : sess.containerId with
  | none =>
    rw [hcontainer] at h
    exact ⟨h.trans (zero_add rest), rfl⟩
  | some id =>
    rw [hcontainer] at h
    exact ⟨release_held h, rfl⟩

theorem Handle.bufferOwned_eq {h h' : Handle} (hbuffer : h'.buffer = h.buffer) : h'.bufferOwned = h.bufferOwned := by
  unfold Handle.bufferOwned
  rw [hbuffer]

theorem Handle.containerOwned_eq {h h' : Handle} (hcontainer : h'.containerId = h.containerId) :
    h'.containerOwned = h.containerOwned := by
  unfold Handle.containerOwned
  rw [hcontainer]

theorem Handle.blockOwned_eq {h h' : Handle} (haddress : h'.address = h.address) : h'.blockOwned = h.blockOwned := by
  unfold Handle.blockOwned
  rw [haddress]

theorem freeSession_held {sess : Handle} {w : World} {rest : Multiset Resource} (h : w.held = sess.blockOwned + rest) :
    (freeSession sess w).held = rest ∧ (freeSession sess w).children = w.children := by
  unfold Handle.blockOwned at h
  rw [Multiset.insert_eq_cons, ← Multiset.singleton_add, add_assoc] at h
  exact ⟨release_held (release_held h), rfl⟩

/-- **An unwinding releases all a session without a reader owns.** -/
theorem unwind_held {sess : Handle} {w : World} {rest : Multiset Resource} (hidle : sess.readerRunning = false)
    (h : w.held = sess.owned + rest) : (unwind sess w).held = rest ∧ (unwind sess w).children = w.children := by
  have howned : w.held = sess.bufferOwned + (sess.ptyOwned + (sess.containerOwned + (sess.blockOwned + rest))) := by
    rw [h, Handle.owned_idle hidle, add_assoc, add_assoc, add_assoc, add_left_comm]
  obtain ⟨haddress, hpty, hcontainer⟩ := terminalFree_fst sess w
  obtain ⟨h1, hc1⟩ := terminalFree_snd howned
  rw [← hpty] at h1
  obtain ⟨haddress', -, hcontainer'⟩ := ptyClose_fst (terminalFree sess w).1 (terminalFree sess w).2
  obtain ⟨h2, hc2⟩ := ptyClose_snd h1
  rw [← Handle.containerOwned_eq (hcontainer'.trans hcontainer),
    ← Handle.blockOwned_eq (haddress'.trans haddress)] at h2
  obtain ⟨h3, hc3⟩ := freeContainerId_held h2
  obtain ⟨h4, hc4⟩ := freeSession_held h3
  exact ⟨h4, hc4.trans (hc3.trans (hc2.trans hc1))⟩

/-- **`ptywrap_destroy` releases all a session owns**, and leaves its child alone. -/
theorem ptywrapDestroy_held {sess : Handle} {w : World} {rest : Multiset Resource} (h : w.held = sess.owned + rest) :
    (ptywrapDestroy (some sess) w).held = rest ∧ (ptywrapDestroy (some sess) w).children = w.children := by
  have howned : w.held = sess.threadOwned + (sess.ptyOwned + (sess.bufferOwned + (sess.containerOwned +
      (sess.blockOwned + rest)))) := by
    unfold Handle.owned at h
    rw [h]
    simp only [add_assoc]
  obtain ⟨haddress, hpty, hbuffer, hcontainer⟩ := readerStop_fst sess w
  obtain ⟨h1, hc1⟩ := readerStop_snd howned
  rw [← hpty] at h1
  obtain ⟨haddress', hbuffer', hcontainer'⟩ := ptyClose_fst (readerStop sess w).1 (readerStop sess w).2
  obtain ⟨h2, hc2⟩ := ptyClose_snd h1
  rw [← Handle.bufferOwned_eq (hbuffer'.trans hbuffer)] at h2
  obtain ⟨haddress'', -, hcontainer''⟩ := terminalFree_fst (ptyClose (readerStop sess w).1 (readerStop sess w).2).1
    (ptyClose (readerStop sess w).1 (readerStop sess w).2).2
  obtain ⟨h3, hc3⟩ := terminalFree_snd h2
  rw [← Handle.containerOwned_eq (hcontainer''.trans (hcontainer'.trans hcontainer)),
    ← Handle.blockOwned_eq (haddress''.trans (haddress'.trans haddress))] at h3
  obtain ⟨h4, hc4⟩ := freeContainerId_held h3
  obtain ⟨h5, hc5⟩ := freeSession_held h4
  exact ⟨h5, hc5.trans (hc4.trans (hc3.trans (hc2.trans hc1)))⟩

/-! ## What a creation leaves -/

/-- The calls of `pty_create` succeed. -/
def Outcomes.ptyOk (os : Outcomes) : Bool := os.posixOpenpt && os.grantpt && os.unlockpt && os.ptsname && os.strdupSlave

/-- The calls of `ptywrap_session_alloc` succeed. -/
def Outcomes.allocOk (os : Outcomes) : Bool := os.callocSession && os.mutexInit && os.ptyOk && os.callocBuffer

/-- `pty_create` succeeded on `sess` and left `sess'`. -/
structure Handle.Opened (sess sess' : Handle) (w w' : World) : Prop where
  held : w'.held = sess'.ptyOwned + w.held
  children : w'.children = w.children
  slave : sess'.slaveName.isNone = false
  address : sess'.address = sess.address
  container : sess'.containerId = sess.containerId
  running : sess'.readerRunning = sess.readerRunning

/-- A session just allocated: it owns what it holds, has a slave and no reader yet. -/
structure Handle.Fresh (sess : Handle) (w w' : World) : Prop where
  held : w'.held = sess.owned + w.held
  children : w'.children = w.children
  slave : sess.slaveName.isNone = false
  container : sess.containerId = none
  idle : sess.readerRunning = false

theorem release_acquire (w : World) (r : Resource) : ((w.acquire r).release r).held = w.held :=
  Multiset.erase_cons_head r w.held

/-- **`pty_create` opens the PTY or leaves nothing of it.** -/
theorem ptyCreate_cases (os : Outcomes) (sess : Handle) (w : World) (hfd : sess.masterFd = -1) :
    (os.ptyOk = false ∧ ∃ ret w', ptyCreate os sess w = (ret, sess, w') ∧ ret ≠ ptywrapOk ∧ w'.held = w.held ∧
        w'.children = w.children) ∨
      (os.ptyOk = true ∧ ∃ sess' w', ptyCreate os sess w = (ptywrapOk, sess', w') ∧ sess.Opened sess' w w') := by
  have hclosed : { sess with masterFd := -1 } = sess := by rw [← hfd]
  unfold ptyCreate Outcomes.ptyOk
  cases hopen : os.posixOpenpt with
  | false =>
    rw [if_pos rfl, hclosed]
    exact .inl ⟨rfl, _, _, rfl, by decide, rfl, rfl⟩
  | true =>
    rw [if_neg (by decide)]
    dsimp only
    rw [hclosed]
    by_cases hgrant : os.grantpt = false ∨ os.unlockpt = false
    · rw [if_pos hgrant]
      refine .inl ⟨?_, _, _, rfl, by decide, release_acquire w _, rfl⟩
      rcases hgrant with hgrant | hunlock
      · rw [hgrant]
        rfl
      · rw [hunlock, Bool.and_false]
        rfl
    · rw [if_neg hgrant]
      simp only [not_or, Bool.not_eq_false] at hgrant
      rw [hgrant.1, hgrant.2]
      cases hname : os.ptsname with
      | false =>
        rw [if_pos rfl]
        exact .inl ⟨rfl, _, _, rfl, by decide, release_acquire w _, rfl⟩
      | true =>
        rw [if_neg (by decide)]
        cases hdup : os.strdupSlave with
        | false =>
          rw [if_pos rfl]
          exact .inl ⟨rfl, _, _, rfl, by decide, release_acquire w _, rfl⟩
        | true =>
          rw [if_neg (by decide)]
          refine .inr ⟨rfl, _, _, rfl, ⟨?_, rfl, rfl, rfl, rfl, rfl⟩⟩
          unfold Handle.ptyOwned
          dsimp only
          rw [if_pos (Int.natCast_nonneg _), Option.elim_some, add_assoc, Multiset.singleton_add, Multiset.singleton_add]
          exact Multiset.cons_swap _ _ _

theorem acquireBuffer_held {h : Handle} {w : World} {rest : Multiset Resource} {length : Nat}
    (hidle : h.readerRunning = false) (hcontainer : h.containerId = none)
    (hheld : w.held = h.ptyOwned + (h.blockOwned + rest)) :
    (w.acquire (.cellBuffer w.next)).held = ({ h with buffer := some ⟨w.next, length⟩ } : Handle).owned + rest := by
  have howned : ({ h with buffer := some ⟨w.next, length⟩ } : Handle).owned =
      h.ptyOwned + ({.cellBuffer w.next} + (h.containerOwned + h.blockOwned)) := Handle.owned_idle hidle
  unfold World.acquire
  rw [howned, hheld, Handle.containerOwned, hcontainer, Option.elim_none, zero_add, ← Multiset.singleton_add, add_assoc,
    add_assoc, add_left_comm]

/-- **`ptywrap_session_alloc` gives a session or leaves nothing.** -/
theorem ptywrapSessionAlloc_cases (os : Outcomes) (rows cols : Int) (w : World) :
    (os.allocOk = false ∧ ∃ w', ptywrapSessionAlloc os rows cols w = (none, w') ∧ w'.held = w.held ∧
        w'.children = w.children) ∨
      (os.allocOk = true ∧ ∃ sess w', ptywrapSessionAlloc os rows cols w = (some sess, w') ∧ sess.Fresh w w') := by
  unfold ptywrapSessionAlloc Outcomes.allocOk
  cases hcalloc : os.callocSession with
  | false =>
    rw [if_pos rfl]
    exact .inl ⟨rfl, _, rfl, rfl, rfl⟩
  | true =>
    rw [if_neg (by decide)]
    cases hmutex : os.mutexInit with
    | false =>
      rw [if_pos rfl]
      exact .inl ⟨rfl, _, rfl, release_acquire w _, rfl⟩
    | true =>
      rw [if_neg (by decide)]
      dsimp only
      generalize hblock : (w.acquire (.sessionBlock w.next)).acquire (.mutex w.next) = w₁
      generalize hfields : (⟨w.next, -1, none, -1, none, announcedRows rows, announcedCols cols, none, 0, false⟩ : Handle) =
        sess
      have hheld : w₁.held = sess.blockOwned + w.held := by
        unfold Handle.blockOwned
        rw [← hblock, ← hfields, Multiset.insert_eq_cons, Multiset.cons_add, Multiset.singleton_add]
        rfl
      have hchildren : w₁.children = w.children := by rw [← hblock]; rfl
      rcases ptyCreate_cases os sess w₁ (by rw [← hfields]) with
        ⟨hok, ret, w₂, heq, hret, hheld₂, hchildren₂⟩ | ⟨hok, sess₂, w₂, heq, hopened⟩
      · rw [heq, hok]
        dsimp only
        rw [if_pos hret]
        obtain ⟨h1, h2⟩ := freeSession_held (hheld₂.trans hheld)
        exact .inl ⟨rfl, _, rfl, h1, h2.trans (hchildren₂.trans hchildren)⟩
      · rw [heq, hok]
        dsimp only
        rw [if_neg (not_not.2 rfl)]
        have hheld₂ : w₂.held = sess₂.ptyOwned + (sess₂.blockOwned + w.held) := by
          rw [hopened.held, hheld, Handle.blockOwned_eq hopened.address]
        have hchildren₂ := hopened.children.trans hchildren
        unfold Handle.terminalInit
        cases hbuffer : os.callocBuffer with
        | false =>
          rw [if_pos rfl]
          dsimp only
          rw [if_pos (by decide)]
          have hheld₃ : w₂.held = ({ sess₂ with buffer := none } : Handle).ptyOwned + (sess₂.blockOwned + w.held) := hheld₂
          obtain ⟨h1, hc1⟩ := ptyClose_snd hheld₃
          have haddress : (ptyClose { sess₂ with buffer := none } w₂).1.address = sess₂.address := (ptyClose_fst _ _).1
          rw [← Handle.blockOwned_eq haddress] at h1
          obtain ⟨h2, hc2⟩ := freeSession_held h1
          exact .inl ⟨rfl, _, rfl, h2, hc2.trans (hc1.trans hchildren₂)⟩
        | true =>
          rw [if_neg Bool.false_ne_true.symm]
          dsimp only
          rw [if_neg (not_not.2 rfl)]
          have hcontainer : sess₂.containerId = none := by rw [hopened.container, ← hfields]
          have hidle : sess₂.readerRunning = false := by rw [hopened.running, ← hfields]
          refine .inr ⟨rfl, _, _, rfl, ⟨?_, hchildren₂, hopened.slave, hcontainer, hidle⟩⟩
          exact acquireBuffer_held hidle hcontainer hheld₂

/-- What a creation leaves, if it gets to `fork` (`reached`) and if not: no session and nothing held; the same, but a
child spawned; or a session that owns what was acquired, the child with it. -/
inductive Creation (os : Outcomes) (reached : Bool) (w : World) : Option Handle × World → Prop where
  | refused {w' : World} (hno : reached = false ∨ os.forkPid w.children = none) (hheld : w'.held = w.held)
      (hchildren : w'.children = w.children) : Creation os reached w (none, w')
  | lost {w' : World} {pid : Int} (hreached : reached = true) (hpid : os.forkPid w.children = some pid)
      (hthread : os.pthreadCreate = false) (hheld : w'.held = w.held)
      (hchildren : w'.children = ProcTable.spawn w.children pid) : Creation os reached w (none, w')
  | created {w' : World} {sess : Handle} (hreached : reached = true)
      (hpid : os.forkPid w.children = some sess.execPid) (hthread : os.pthreadCreate = true)
      (hheld : w'.held = sess.owned + w.held) (hchildren : w'.children = ProcTable.spawn w.children sess.execPid) :
      Creation os reached w (some sess, w')

theorem startReader_creation {os : Outcomes} {sess : Handle} {w w₁ : World}
    (hpid : os.forkPid w.children = some sess.execPid) (hheld : w₁.held = sess.owned + w.held)
    (hchildren : w₁.children = ProcTable.spawn w.children sess.execPid) (hidle : sess.readerRunning = false) :
    Creation os true w (startReader os sess w₁) := by
  unfold startReader readerStart
  cases hthread : os.pthreadCreate with
  | false =>
    rw [if_pos rfl]
    dsimp only
    rw [if_pos (by decide), ← hidle]
    obtain ⟨h1, h2⟩ := unwind_held hidle hheld
    exact .lost rfl hpid hthread h1 (h2.trans hchildren)
  | true =>
    rw [if_neg Bool.false_ne_true.symm]
    dsimp only
    rw [if_neg (not_not.2 rfl)]
    refine .created rfl hpid hthread ?_ hchildren
    unfold World.acquire
    rw [hheld, Handle.owned_idle hidle, ← Multiset.singleton_add, ← add_assoc]
    rfl

/-- **From `fork` on** both creations do the same. -/
theorem spawnChild_creation {os : Outcomes} {sess : Handle} {w w₁ : World} (hheld : w₁.held = sess.owned + w.held)
    (hchildren : w₁.children = w.children) (hidle : sess.readerRunning = false) :
    Creation os true w
      (if (spawnChild os sess w₁).1 ≠ ptywrapOk then
        (none, unwind (spawnChild os sess w₁).2.1 (spawnChild os sess w₁).2.2)
      else startReader os (spawnChild os sess w₁).2.1 (spawnChild os sess w₁).2.2) := by
  unfold spawnChild
  rw [hchildren]
  cases hpid : os.forkPid w.children with
  | none =>
    dsimp only
    rw [if_pos (by decide)]
    obtain ⟨h1, h2⟩ := unwind_held hidle hheld
    exact .refused (.inr hpid) h1 (h2.trans hchildren)
  | some pid =>
    rw [if_neg (not_not.2 rfl)]
    exact startReader_creation hpid hheld rfl hidle

/-- `ptywrap_create_direct` gets to `fork`. -/
def reachesDirect (os : Outcomes) (argv : Option (List CString)) : Bool := !(argv.getD []).isEmpty && os.allocOk

/-- `ptywrap_create` gets to `fork`. -/
def reachesAttach (os : Outcomes) (containerId : Option CString) : Bool :=
  containerId.isSome && os.allocOk && os.strdupContainer

theorem ptywrapCreateDirect_spec (os : Outcomes) (argv : Option (List CString)) (rows cols : Int) (w : World) :
    Creation os (reachesDirect os argv) w (ptywrapCreateDirect os argv rows cols w) := by
  unfold ptywrapCreateDirect reachesDirect
  by_cases hargv : argv.getD [] = []
  · rw [if_pos hargv, hargv]
    exact .refused (.inl rfl) rfl rfl
  rw [if_neg hargv]
  rcases ptywrapSessionAlloc_cases os rows cols w with ⟨hok, w', heq, hheld, hchildren⟩ | ⟨hok, sess, w', heq, hfresh⟩
  · rw [heq, hok, Bool.and_false]
    exact .refused (.inl rfl) hheld hchildren
  · have hslave : ¬ (argv.getD [] = [] ∨ sess.slaveName.isNone = true) := by
      rintro (h | h)
      · exact hargv h
      · rw [hfresh.slave] at h
        exact absurd h (by decide)
    have hsame : { sess with containerId := none } = sess := by rw [← hfresh.container]
    have hempty : (!(argv.getD []).isEmpty) = true := by
      rw [Bool.not_eq_true', List.isEmpty_eq_false_iff]
      exact hargv
    rw [heq, hok, hempty]
    dsimp only
    rw [hsame]
    unfold directSpawn
    rw [if_neg hslave]
    exact spawnChild_creation hfresh.held hfresh.children hfresh.idle

theorem acquireContainer_held {h : Handle} {w : World} {rest : Multiset Resource} (hidle : h.readerRunning = false)
    (hcontainer : h.containerId = none) (hheld : w.held = h.owned + rest) :
    (w.acquire (.containerId w.next)).held = ({ h with containerId := some w.next } : Handle).owned + rest := by
  have howned : ({ h with containerId := some w.next } : Handle).owned =
      h.ptyOwned + (h.bufferOwned + ({.containerId w.next} + h.blockOwned)) := Handle.owned_idle hidle
  unfold World.acquire
  rw [howned, hheld, Handle.owned_idle hidle, Handle.containerOwned, hcontainer, Option.elim_none, zero_add,
    ← Multiset.singleton_add, ← add_assoc, add_left_comm, add_left_comm h.bufferOwned]

theorem ptywrapCreate_spec (os : Outcomes) (containerId : Option CString) (rows cols : Int) (w : World) :
    Creation os (reachesAttach os containerId) w (ptywrapCreate os containerId rows cols w) := by
  unfold ptywrapCreate reachesAttach
  cases containerId with
  | none => exact .refused (.inl rfl) rfl rfl
  | some id =>
    rcases ptywrapSessionAlloc_cases os rows cols w with ⟨hok, w', heq, hheld, hchildren⟩ | ⟨hok, sess, w', heq, hfresh⟩
    · rw [heq, hok]
      exact .refused (.inl rfl) hheld hchildren
    rw [heq, hok]
    cases hdup : os.strdupContainer with
    | false =>
      obtain ⟨h1, h2⟩ := unwind_held hfresh.idle hfresh.held
      exact .refused (.inl rfl) h1 (h2.trans hfresh.children)
    | true =>
      have hsome : ¬ (some id).isNone = true := Bool.false_ne_true
      have hslave : ¬ ((some id).isNone = true ∨ sess.slaveName.isNone = true) := by
        rintro (h | h)
        · exact hsome h
        · rw [hfresh.slave] at h
          exact absurd h (by decide)
      have hheld := acquireContainer_held hfresh.idle hfresh.container hfresh.held
      unfold containerAttach
      dsimp only
      rw [if_neg hsome, if_neg Bool.false_ne_true.symm, if_neg hslave]
      exact spawnChild_creation hheld hfresh.children hfresh.idle

end Ptywrap
