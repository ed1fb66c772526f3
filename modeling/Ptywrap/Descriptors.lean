import Ptywrap.FdTable
import Ptywrap.Transducer
/-!
# Descriptors — who holds which end of a terminal (`container.c`, `pty.c`)

The child's side of `container_attach` and `direct_spawn`, which is the same text in both: whatever descriptors the
library's process has open, the child's program starts with the slave as its standard streams, without the master of its
own session, and with everything else that is not to be closed at `exec` (`file_childProgram`).  `posix_openpt` sets no
close-on-exec flag, so the masters of the other live sessions are among that.  In every run a slave is held by its
session's own child and what that has forked, and a master by the session while it lives and by the children of the
sessions created meanwhile, unless it is one of their standard streams (`held_run`).
-/
namespace Ptywrap

/-- An open file: an end of the terminal of a session, or one of the application's own. -/
inductive File where
  | master (session : Nat)
  | slave (session : Nat)
  | other (n : Nat)
deriving DecidableEq, Repr

/-- The child of `fork` up to its `exec`, where `open` succeeds. -/
def childSide (masterFd session : Nat) (t : FdTable File) : FdTable File :=
  let t := t.close masterFd
  let (slaveFd, t) := t.openFile (.slave session) false
  let t := t.dup2 slaveFd 0
  let t := t.dup2 slaveFd 1
  let t := t.dup2 slaveFd 2
  if 2 < slaveFd then t.close slaveFd else t

theorem childSide_eq (masterFd session : Nat) (t : FdTable File) :
    childSide masterFd session t = (t.close masterFd).streams (.slave session) := rfl

/-- The descriptors of the program, where `exec` succeeds as well. -/
def childProgram (masterFd session : Nat) (t : FdTable File) : FdTable File := (childSide masterFd session t).exec

theorem entry_childProgram (t : FdTable File) (masterFd session i : Nat) :
    (childProgram masterFd session t).entry i =
      if i ≤ 2 then some ⟨.slave session, false⟩ else if i = masterFd then none
      else (t.entry i).filter fun e => !e.closeOnExec := by
  unfold childProgram
  rw [FdTable.entry_exec, childSide_eq, FdTable.entry_streams, FdTable.entry_close]
  split
  · rfl
  split
  · rfl
  · rfl

/-- **What the child's program starts with**, at whatever descriptor the slave was opened. -/
theorem file_childProgram (t : FdTable File) (masterFd session i : Nat) :
    (childProgram masterFd session t).file i =
      if i ≤ 2 then some (.slave session) else if i = masterFd then none
      else (t.entry i).bind fun e => if e.closeOnExec then none else some e.file := by
  unfold FdTable.file
  rw [entry_childProgram]
  split
  · rfl
  split
  · rfl
  · cases t.entry i with
    | none => rfl
    | some e =>
      cases hflag : e.closeOnExec <;> simp [hflag]

/-! ## All the processes -/

/-- How a creation ends: before its `fork`, with the master closed again if it was open; after it, without a reader; or
with a session. -/
inductive Ending where
  | refused (opened : Bool)
  | lost
  | created
deriving DecidableEq, Repr

structure LiveSession where
  session : Nat
  masterFd : Nat
deriving DecidableEq, Repr

/-- A child that runs its program, or what such a process has forked, and the sessions that were live when the child was
forked. -/
structure ChildProcess where
  session : Nat
  table : FdTable File
  older : List LiveSession

/-- The process of the library with its sessions, and their children. -/
structure Host where
  next : Nat
  table : FdTable File
  live : List LiveSession
  children : List ChildProcess

inductive HostEvent where
  | create (how : Ending) (runs : Bool)
  | destroy (i : Nat)
  | childForks (i : Nat)
  | childExits (i : Nat)
  | appOpens (n : Nat) (closeOnExec : Bool)
  | appCloses (fd : Nat)

/-- The application's own files. -/
def Host.init (files : List (Option (FileDescriptor Nat))) : Host :=
  ⟨0, ⟨files.map (Option.map fun e => ⟨.other e.file, e.closeOnExec⟩)⟩, [], []⟩

/-- The child forked with a table; one that does not come to run its program is gone. -/
def Host.fork (s : Host) (masterFd : Nat) (t : FdTable File) (runs : Bool) : List ChildProcess :=
  if runs then s.children ++ [⟨s.next, childProgram masterFd s.next t, s.live⟩] else s.children

def Host.step (s : Host) : HostEvent → Host
  | .create how runs =>
    let (masterFd, t) := s.table.openFile (.master s.next) false
    match how with
    | .refused opened => { s with next := s.next + 1, table := if opened then t.close masterFd else s.table }
    | .lost => { s with
        next := s.next + 1, table := t.close masterFd, children := s.fork masterFd t runs }
    | .created => { s with
        next := s.next + 1, table := t, live := s.live ++ [⟨s.next, masterFd⟩]
        children := s.fork masterFd t runs }
  | .destroy i =>
    match s.live[i]? with
    | none => s
    | some l => { s with table := s.table.close l.masterFd, live := s.live.eraseIdx i }
  | .childForks i => { s with children := s.children ++ s.children[i]?.toList }
  | .childExits i => { s with children := s.children.eraseIdx i }
  | .appOpens n closeOnExec => { s with table := (s.table.openFile (.other n) closeOnExec).2 }
  | .appCloses fd =>
    match s.table.file fd with
    | some (.other _) => { s with table := s.table.close fd }
    | _ => s

/-- The table has the file, at some descriptor. -/
def HasOpen (t : FdTable File) (f : File) : Prop := ∃ fd, t.file fd = some f

/-- Some process has the file open. -/
def Host.Held (s : Host) (f : File) : Prop := HasOpen s.table f ∨ ∃ c ∈ s.children, HasOpen c.table f

/-! ## Every run -/

/-- A process has the slave of its session, and the masters it inherited above the standard streams. -/
structure ChildProcess.Ok (c : ChildProcess) : Prop where
  slaves : ∀ k, HasOpen c.table (.slave k) ↔ k = c.session
  masters : ∀ k, HasOpen c.table (.master k) ↔ ∃ l ∈ c.older, l.session = k ∧ 2 < l.masterFd

/-- What holds in every state. -/
structure Host.Ok (s : Host) : Prop where
  masters : ∀ fd k flag, s.table.entry fd = some ⟨.master k, flag⟩ ↔ (⟨k, fd⟩ : LiveSession) ∈ s.live ∧ flag = false
  noSlave : ∀ fd k flag, s.table.entry fd ≠ some ⟨.slave k, flag⟩
  nodup : s.live.Nodup
  fresh : ∀ l ∈ s.live, l.session < s.next
  children : ∀ c ∈ s.children, c.Ok

theorem hostOk_init (files : List (Option (FileDescriptor Nat))) : (Host.init files).Ok := by
  have hother : ∀ fd e, (Host.init files).table.entry fd = some e → ∃ n, e.file = .other n := by
    intro fd e h
    obtain ⟨n, -, rfl⟩ : ∃ n, files[fd]? = some (some n) ∧ ⟨.other n.file, n.closeOnExec⟩ = e := by
      have hget : ((files.map (Option.map fun e => (⟨.other e.file, e.closeOnExec⟩ : FileDescriptor File)))[fd]?).getD
          none = some e := by
        rw [← List.getD_eq_getElem?_getD]
        exact h
      rw [List.getElem?_map] at hget
      cases hfd : files[fd]? with
      | none =>
        rw [hfd] at hget
        cases hget
      | some o =>
        rw [hfd] at hget
        cases o with
        | none => cases hget
        | some n => exact ⟨n, rfl, Option.some.inj hget⟩
    exact ⟨n.file, rfl⟩
  refine ⟨fun fd k flag => iff_of_false (fun h => ?_) nofun, fun fd k flag h => ?_, List.nodup_nil, nofun, nofun⟩
  · obtain ⟨n, hn⟩ := hother fd _ h
    cases hn
  · obtain ⟨n, hn⟩ := hother fd _ h
    cases hn

/-- What a child's program starts with. -/
theorem ok_childProgram {s : Host} (h : s.Ok) {masterFd : Nat} {t : FdTable File}
    (ht : s.table.openFile (.master s.next) false = (masterFd, t)) :
    (⟨s.next, childProgram masterFd s.next t, s.live⟩ : ChildProcess).Ok := by
  obtain ⟨rfl, rfl⟩ := Prod.mk.inj ht
  have hfree := FdTable.entry_lowestFree s.table
  have hchild : ∀ fd, (childProgram s.table.lowestFree s.next
      (s.table.put s.table.lowestFree (some ⟨.master s.next, false⟩))).entry fd =
      if fd ≤ 2 then some ⟨.slave s.next, false⟩ else if fd = s.table.lowestFree then none
      else (s.table.entry fd).filter fun e => !e.closeOnExec := by
    intro fd
    rw [entry_childProgram, FdTable.entry_put]
    split
    · rfl
    split
    · rfl
    · rfl
  generalize s.table.lowestFree = m at hfree hchild
  refine ⟨fun k => ⟨?_, ?_⟩, fun k => ⟨?_, ?_⟩⟩
  · rintro ⟨fd, hfd⟩
    obtain ⟨flag, hentry⟩ := (FdTable.file_eq_some_iff _ _ _).1 hfd
    rw [hchild] at hentry
    split at hentry
    · cases hentry
      rfl
    split at hentry
    · cases hentry
    · exact absurd (Option.filter_eq_some_iff.1 hentry).1 (h.noSlave fd k flag)
  · rintro rfl
    exact ⟨0, (FdTable.file_eq_some_iff _ _ _).2 ⟨false, by rw [hchild, if_pos (Nat.zero_le _)]⟩⟩
  · rintro ⟨fd, hfd⟩
    obtain ⟨flag, hentry⟩ := (FdTable.file_eq_some_iff _ _ _).1 hfd
    rw [hchild] at hentry
    split at hentry
    · cases hentry
    split at hentry
    · cases hentry
    · next hstd _ =>
      have hlive := (h.masters fd k flag).1 (Option.filter_eq_some_iff.1 hentry).1
      exact ⟨⟨k, fd⟩, hlive.1, rfl, Nat.lt_of_not_le hstd⟩
  · rintro ⟨l, hl, rfl, hstd⟩
    have hentry := (h.masters l.masterFd l.session false).2 ⟨hl, rfl⟩
    refine ⟨l.masterFd, (FdTable.file_eq_some_iff _ _ _).2 ⟨false, ?_⟩⟩
    rw [hchild, if_neg (Nat.not_le.2 hstd), if_neg, hentry]
    · rfl
    · rintro rfl
      rw [hfree] at hentry
      cases hentry

/-- The children after a `fork` hold what they should. -/
theorem children_fork {s : Host} (h : s.Ok) {masterFd : Nat} {t : FdTable File}
    (ht : s.table.openFile (.master s.next) false = (masterFd, t)) (runs : Bool) :
    ∀ c ∈ s.fork masterFd t runs, c.Ok := by
  intro c hc
  unfold Host.fork at hc
  split at hc
  · rcases List.mem_append.1 hc with hc | hc
    · exact h.children c hc
    · obtain rfl := List.mem_singleton.1 hc
      exact ok_childProgram h ht
  · exact h.children c hc

/-- A table with the same files does as well. -/
theorem Host.Ok.congr_table {s : Host} (h : s.Ok) {t : FdTable File} (ht : ∀ fd, t.entry fd = s.table.entry fd)
    {next : Nat} (hnext : s.next ≤ next) {children : List ChildProcess} (hchildren : ∀ c ∈ children, c.Ok) :
    (⟨next, t, s.live, children⟩ : Host).Ok where
  masters := fun fd k flag => by
    dsimp only
    rw [ht]
    exact h.masters fd k flag
  noSlave := fun fd k flag => by
    dsimp only
    rw [ht]
    exact h.noSlave fd k flag
  nodup := h.nodup
  fresh := fun l hl => Nat.lt_of_lt_of_le (h.fresh l hl) hnext
  children := hchildren

theorem close_openFile {s : Host} {f : File} {flag : Bool} {fd : Nat} {t : FdTable File}
    (ht : s.table.openFile f flag = (fd, t)) (i : Nat) : (t.close fd).entry i = s.table.entry i := by
  obtain ⟨rfl, rfl⟩ := Prod.mk.inj ht
  rw [FdTable.entry_close, FdTable.entry_put]
  split
  · next hi => rw [hi, FdTable.entry_lowestFree]
  · rfl

theorem hostOk_create {s : Host} (h : s.Ok) (how : Ending) (runs : Bool) : (s.step (.create how runs)).Ok := by
  obtain ⟨masterFd, t, ht⟩ : ∃ masterFd t, s.table.openFile (.master s.next) false = (masterFd, t) := ⟨_, _, rfl⟩
  have hchildren := children_fork h ht runs
  have hclosed := close_openFile ht
  unfold Host.step
  rw [ht]
  dsimp only
  cases how with
  | refused opened =>
    refine h.congr_table (fun fd => ?_) (Nat.le_succ _) h.children
    cases opened with
    | false => rfl
    | true => exact hclosed fd
  | lost => exact h.congr_table hclosed (Nat.le_succ _) hchildren
  | created =>
    obtain ⟨rfl, rfl⟩ := Prod.mk.inj ht
    have hfree := FdTable.entry_lowestFree s.table
    refine ⟨fun fd k flag => ?_, fun fd k flag => ?_, ?_, fun l hl => ?_, hchildren⟩
    · dsimp only
      rw [FdTable.entry_put, List.mem_append, List.mem_singleton]
      split
      · next hfd =>
        rw [Option.some.injEq, FileDescriptor.mk.injEq, File.master.injEq, LiveSession.mk.injEq]
        constructor
        · rintro ⟨rfl, rfl⟩
          exact ⟨.inr ⟨rfl, hfd⟩, rfl⟩
        · rintro ⟨hlive | ⟨rfl, -⟩, rfl⟩
          · have hentry := (h.masters fd k false).2 ⟨hlive, rfl⟩
            rw [hfd, hfree] at hentry
            cases hentry
          · exact ⟨rfl, rfl⟩
      · next hfd =>
        rw [h.masters, LiveSession.mk.injEq]
        exact and_congr_left fun _ => (or_iff_left fun hsame => hfd hsame.2).symm
    · dsimp only
      rw [FdTable.entry_put]
      split
      · exact nofun
      · exact h.noSlave fd k flag
    · refine List.nodup_append.2 ⟨h.nodup, List.pairwise_singleton _ _, fun l hl l' hl' heq => ?_⟩
      have hlt := h.fresh l hl
      rw [heq, List.mem_singleton.1 hl'] at hlt
      exact Nat.lt_irrefl _ hlt
    · rcases List.mem_append.1 hl with hl | hl
      · exact Nat.lt_succ_of_lt (h.fresh l hl)
      · rw [List.mem_singleton.1 hl]
        exact Nat.lt_succ_self _

theorem hostOk_destroy {s : Host} (h : s.Ok) (i : Nat) : (s.step (.destroy i)).Ok := by
  unfold Host.step
  dsimp only
  cases hi : s.live[i]? with
  | none => exact h
  | some l =>
    obtain ⟨hlt, rfl⟩ := List.getElem?_eq_some_iff.1 hi
    have hmem : ∀ l', l' ∈ s.live.eraseIdx i ↔ l' ∈ s.live ∧ l' ≠ s.live[i] := by
      intro l'
      rw [← (List.erase_getElem hlt).mem_iff]
      exact (h.nodup.mem_erase_iff).trans and_comm
    refine ⟨fun fd k flag => ?_, fun fd k flag => ?_, ?_, fun l hl => ?_, h.children⟩
    · dsimp only
      rw [FdTable.entry_close, hmem]
      split
      · next hfd =>
        refine iff_of_false nofun ?_
        rintro ⟨⟨hlive, hne⟩, -⟩
        refine hne ?_
        have h1 := (h.masters fd k false).2 ⟨hlive, rfl⟩
        have h2 := (h.masters s.live[i].masterFd s.live[i].session false).2 ⟨List.getElem_mem hlt, rfl⟩
        rw [hfd, h2, Option.some.injEq, FileDescriptor.mk.injEq, File.master.injEq] at h1
        rw [← h1.1, hfd]
      · next hfd =>
        rw [h.masters]
        refine and_congr_left fun _ => (and_iff_left ?_).symm
        intro heq
        exact hfd (congrArg LiveSession.masterFd heq)
    · dsimp only
      rw [FdTable.entry_close]
      split
      · exact nofun
      · exact h.noSlave fd k flag
    · exact h.nodup.eraseIdx i
    · exact h.fresh l (List.mem_of_mem_eraseIdx hl)

theorem hostOk_step {s : Host} (h : s.Ok) (e : HostEvent) : (s.step e).Ok := by
  cases e with
  | create how runs => exact hostOk_create h how runs
  | destroy i => exact hostOk_destroy h i
  | childForks i =>
    refine h.congr_table (fun _ => rfl) (Nat.le_refl _) fun c hc => h.children c ?_
    exact (List.mem_append.1 hc).elim id fun hc => List.mem_of_getElem? (Option.mem_toList.1 hc)
  | childExits i =>
    exact h.congr_table (fun _ => rfl) (Nat.le_refl _) fun c hc => h.children c (List.mem_of_mem_eraseIdx hc)
  | appOpens n closeOnExec =>
    have hfree := FdTable.entry_lowestFree s.table
    refine ⟨fun fd k flag => ?_, fun fd k flag => ?_, h.nodup, h.fresh, h.children⟩
    · show (s.table.openFile (.other n) closeOnExec).2.entry fd = _ ↔ (⟨k, fd⟩ : LiveSession) ∈ s.live ∧ flag = false
      rw [FdTable.entry_openFile, ← h.masters]
      split
      · next hfd =>
        rw [hfd, hfree]
        exact iff_of_false nofun nofun
      · rfl
    · show (s.table.openFile (.other n) closeOnExec).2.entry fd ≠ _
      rw [FdTable.entry_openFile]
      split
      · exact nofun
      · exact h.noSlave fd k flag
  | appCloses fd =>
    unfold Host.step
    dsimp only
    split
    · next n hfd =>
      obtain ⟨flag', hentry⟩ := (FdTable.file_eq_some_iff _ _ _).1 hfd
      refine ⟨fun fd' k flag => ?_, fun fd' k flag => ?_, h.nodup, h.fresh, h.children⟩
      · dsimp only
        rw [FdTable.entry_close, ← h.masters]
        split
        · next heq =>
          rw [heq, hentry]
          exact iff_of_false nofun nofun
        · rfl
      · dsimp only
        rw [FdTable.entry_close]
        split
        · exact nofun
        · exact h.noSlave fd' k flag
    · exact h

/-- **Who holds which end of a terminal, in every run.** A slave is open in its session's own child and what that has
forked, so that the end of the output is their end.  A master is open as long as its session lives, and beyond it in every
running process that comes from a child forked for another session meanwhile, unless the master was one of the standard
streams. -/
theorem held_run (files : List (Option (FileDescriptor Nat))) (es : List HostEvent) (k : Nat) :
    let s := es.foldl Host.step (Host.init files)
    (s.Held (.slave k) ↔ ∃ c ∈ s.children, c.session = k) ∧
      (s.Held (.master k) ↔ (∃ l ∈ s.live, l.session = k) ∨
        ∃ c ∈ s.children, ∃ l ∈ c.older, l.session = k ∧ 2 < l.masterFd) := by
  intro s
  have h : s.Ok := Transducer.forall_prefix Host.step Host.Ok (Host.init files) es (hostOk_init files)
    (fun _ e _ h => hostOk_step h e) es (List.prefix_refl es)
  constructor
  · constructor
    · rintro (⟨fd, hfd⟩ | ⟨c, hc, hholds⟩)
      · obtain ⟨flag, hentry⟩ := (FdTable.file_eq_some_iff _ _ _).1 hfd
        exact absurd hentry (h.noSlave fd k flag)
      · exact ⟨c, hc, (((h.children c hc).slaves k).1 hholds).symm⟩
    · rintro ⟨c, hc, rfl⟩
      exact .inr ⟨c, hc, ((h.children c hc).slaves _).2 rfl⟩
  · refine or_congr ⟨?_, ?_⟩ (exists_congr fun c => and_congr_right fun hc => (h.children c hc).masters k)
    · rintro ⟨fd, hfd⟩
      obtain ⟨flag, hentry⟩ := (FdTable.file_eq_some_iff _ _ _).1 hfd
      exact ⟨_, ((h.masters fd k flag).1 hentry).1, rfl⟩
    · rintro ⟨l, hl, rfl⟩
      exact ⟨l.masterFd, (FdTable.file_eq_some_iff _ _ _).2 ⟨false, (h.masters _ _ false).2 ⟨hl, rfl⟩⟩⟩

/-- Two sessions, the first destroyed: what the second one's child has forked still has the first master, at
descriptor 3. -/
example :
    let s := [HostEvent.create .created true, .create .created true, .destroy 0, .childForks 1, .childExits 1].foldl
      Host.step (Host.init [some ⟨0, false⟩, some ⟨1, false⟩, some ⟨2, false⟩])
    s.live = [⟨1, 4⟩] ∧
      s.children.map (fun c => (c.session, c.table.file 3)) = [(0, none), (1, some (.master 0))] := by
  decide

end Ptywrap
