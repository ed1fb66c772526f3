import Mathlib.Data.List.Basic
/-!
# FdTable — the descriptors of a process

A table of open files, indexed by descriptors, each with its close-on-exec flag.  A file is opened at the lowest
descriptor that is free, `dup2` copies an entry over another one and clears the flag, a copy of the table is another
process's, and `exec` drops what is flagged.  Each operation has one entrywise law, and so has the opening of a file as
the standard streams (`entry_streams`).
-/

structure FileDescriptor (φ : Type) where
  file : φ
  closeOnExec : Bool
deriving DecidableEq, Repr

structure FdTable (φ : Type) where
  entries : List (Option (FileDescriptor φ))

namespace FdTable

variable {φ : Type}

def entry (t : FdTable φ) (fd : Nat) : Option (FileDescriptor φ) := t.entries.getD fd none

/-- The file at a descriptor. -/
def file (t : FdTable φ) (fd : Nat) : Option φ := (t.entry fd).map FileDescriptor.file

def put (t : FdTable φ) (fd : Nat) (e : Option (FileDescriptor φ)) : FdTable φ :=
  ⟨(t.entries ++ List.replicate (fd + 1 - t.entries.length) none).set fd e⟩

def lowestFree (t : FdTable φ) : Nat := t.entries.findIdx Option.isNone

/-- `open`: the descriptor, and the table with it. -/
def openFile (t : FdTable φ) (f : φ) (closeOnExec : Bool) : Nat × FdTable φ :=
  (t.lowestFree, t.put t.lowestFree (some ⟨f, closeOnExec⟩))

def close (t : FdTable φ) (fd : Nat) : FdTable φ := t.put fd none

/-- `dup2`: nothing where the old descriptor is not open, or is the new one. -/
def dup2 (t : FdTable φ) (oldFd newFd : Nat) : FdTable φ :=
  match t.entry oldFd with
  | none => t
  | some e => if oldFd = newFd then t else t.put newFd (some ⟨e.file, false⟩)

def exec (t : FdTable φ) : FdTable φ := ⟨t.entries.map (Option.filter fun e => !e.closeOnExec)⟩

theorem file_eq_some_iff (t : FdTable φ) (fd : Nat) (f : φ) :
    t.file fd = some f ↔ ∃ closeOnExec, t.entry fd = some ⟨f, closeOnExec⟩ := by
  unfold file
  rw [Option.map_eq_some_iff]
  constructor
  · rintro ⟨e, he, rfl⟩
    exact ⟨e.closeOnExec, he⟩
  · rintro ⟨closeOnExec, he⟩
    exact ⟨_, he, rfl⟩

theorem entry_put (t : FdTable φ) (fd i : Nat) (e : Option (FileDescriptor φ)) :
    (t.put fd e).entry i = if i = fd then e else t.entry i := by
  have hpad : ∀ n, (t.entries ++ List.replicate n none).getD i none = t.entries.getD i none := by
    intro n
    simp only [List.getD_eq_getElem?_getD, List.getElem?_append, List.getElem?_replicate]
    split
    · rfl
    · next h =>
      rw [List.getElem?_eq_none (Nat.le_of_not_lt h)]
      split <;> rfl
  unfold put entry
  by_cases hi : i = fd
  · subst hi
    rw [if_pos rfl, List.getD_eq_getElem?_getD, List.getElem?_set_self (by simp; omega), Option.getD_some]
  · rw [if_neg hi, List.getD_eq_getElem?_getD, List.getElem?_set_ne (Ne.symm hi), ← List.getD_eq_getElem?_getD, hpad]

theorem entry_lowestFree (t : FdTable φ) : t.entry t.lowestFree = none := by
  unfold entry lowestFree
  rw [List.getD_eq_getElem?_getD]
  by_cases h : t.entries.findIdx Option.isNone < t.entries.length
  · have hfree := List.findIdx_getElem (w := h)
    rw [List.getElem?_eq_getElem h]
    exact Option.isNone_iff_eq_none.1 hfree
  · rw [List.getElem?_eq_none (Nat.le_of_not_lt h)]
    rfl

@[simp] theorem entry_openFile (t : FdTable φ) (f : φ) (closeOnExec : Bool) (i : Nat) :
    (t.openFile f closeOnExec).2.entry i = if i = t.lowestFree then some ⟨f, closeOnExec⟩ else t.entry i :=
  entry_put t _ i _

@[simp] theorem entry_close (t : FdTable φ) (fd i : Nat) :
    (t.close fd).entry i = if i = fd then none else t.entry i := entry_put t fd i none

@[simp] theorem entry_exec (t : FdTable φ) (i : Nat) :
    t.exec.entry i = (t.entry i).filter fun e => !e.closeOnExec := by
  unfold exec entry
  rw [List.getD_eq_getElem?_getD, List.getD_eq_getElem?_getD, List.getElem?_map]
  cases t.entries[i]? <;> rfl

theorem entry_dup2 (t : FdTable φ) {oldFd : Nat} {f : φ} (h : t.entry oldFd = some ⟨f, false⟩) (newFd i : Nat) :
    (t.dup2 oldFd newFd).entry i = if i = newFd then some ⟨f, false⟩ else t.entry i := by
  unfold dup2
  rw [h]
  dsimp only
  by_cases hsame : oldFd = newFd
  · rw [if_pos hsame]
    by_cases hi : i = newFd
    · rw [if_pos hi, hi, ← hsame, h]
    · rw [if_neg hi]
  · rw [if_neg hsame, entry_put]

/-! ## Standard streams -/

/-- A file is opened and becomes the first three descriptors; the one it was opened at is closed, if it is another. -/
def streams (t : FdTable φ) (f : φ) : FdTable φ :=
  let (fd, t) := t.openFile f false
  let t := ((t.dup2 fd 0).dup2 fd 1).dup2 fd 2
  if 2 < fd then t.close fd else t

theorem ite_standard {α : Type} (i : Nat) (x y : α) :
    (if i = 2 then x else if i = 1 then x else if i = 0 then x else y) = if i ≤ 2 then x else y := by
  by_cases hi : i ≤ 2
  · rw [if_pos hi]
    split
    · rfl
    split
    · rfl
    · rw [if_pos (by omega)]
  · rw [if_neg hi, if_neg (by omega), if_neg (by omega), if_neg (by omega)]

/-- **The file is at the standard streams, and nothing else changes**, at whatever descriptor it was opened. -/
theorem entry_streams (t : FdTable φ) (f : φ) (i : Nat) :
    (t.streams f).entry i = if i ≤ 2 then some ⟨f, false⟩ else t.entry i := by
  have hfree := t.entry_lowestFree
  unfold streams openFile
  dsimp only
  generalize t.lowestFree = fd at hfree ⊢
  generalize hopen : t.put fd (some ⟨f, false⟩) = u
  have hu : ∀ j, u.entry j = if j = fd then some ⟨f, false⟩ else t.entry j := by
    intro j
    rw [← hopen, entry_put]
  have h0 : ∀ j, (u.dup2 fd 0).entry j = if j = 0 then some ⟨f, false⟩ else u.entry j :=
    entry_dup2 u (by rw [hu, if_pos rfl]) 0
  have h1 : ∀ j, ((u.dup2 fd 0).dup2 fd 1).entry j = if j = 1 then some ⟨f, false⟩ else (u.dup2 fd 0).entry j :=
    entry_dup2 _ (by rw [h0, hu, if_pos rfl, ite_self]) 1
  have h2 : ∀ j, (((u.dup2 fd 0).dup2 fd 1).dup2 fd 2).entry j =
      if j = 2 then some ⟨f, false⟩ else ((u.dup2 fd 0).dup2 fd 1).entry j :=
    entry_dup2 _ (by rw [h1, h0, hu, if_pos rfl, ite_self, ite_self]) 2
  have hstd : ∀ j, (((u.dup2 fd 0).dup2 fd 1).dup2 fd 2).entry j = if j ≤ 2 then some ⟨f, false⟩ else u.entry j := by
    intro j
    rw [h2, h1, h0, ite_standard]
  by_cases hfd : 2 < fd
  · -- the first descriptor of the file is closed again, and was free
    rw [if_pos hfd, entry_close, hstd, hu]
    by_cases hi : i = fd
    · subst hi
      rw [if_pos rfl, if_neg (Nat.not_le.2 hfd), hfree]
    · rw [if_neg hi, if_neg hi]
  · rw [if_neg hfd, hstd, hu]
    by_cases hi : i ≤ 2
    · rw [if_pos hi, if_pos hi]
    · have hne : i ≠ fd := by omega
      rw [if_neg hi, if_neg hi, if_neg hne]

end FdTable
