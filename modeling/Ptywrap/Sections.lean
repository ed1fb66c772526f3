import Ptywrap.Api
import Ptywrap.Monitor
import Ptywrap.Screenshot
/-!
# Sections — what runs under `buffer_lock` (`reader.c`, `api.c`, `screenshot.c`)

The critical sections as jobs of a monitor: the bytes of a chunk one by one, a row's cells or characters one by one, the
two stores of `ptywrap_get_cursor`, a screenshot cell by cell.  A section's register is the memory it writes, which is
the caller's own.  In one piece a chunk is `terminal_process_bytes`, and a call answers what its function returns on
the session it finds (`atomic_chunk`, `finish_atomic`).
-/
namespace Ptywrap

open CInt (wrap32)
open RowMajor (intRange)

variable {g : Geometry}

/-- A call that locks, with the memory it was given. -/
inductive Call where
  | getCell (row col : Int) (cell : Cell)
  | getRow (row : Int) (cells : List Cell)
  | getCursor (row col : Int)
  | getRowText (row : Int) (buf : List UInt8) (buflen : Nat)
  | screenshotMarkdown (startRow endRow : Int)

/-- What a call returns, with the memory as it leaves it. -/
inductive Answer where
  | cell (ret : Int × Option Cell)
  | row (ret : Int × Option (List Cell))
  | cursor (ret : Int × Option Int × Option Int)
  | rowText (ret : Int × Option (List UInt8))
  | document (doc : Option (List UInt8))

/-- The function that is called. -/
def Call.answer (s : Session g) : Call → Answer
  | getCell row col cell => .cell (ptywrapGetCell (some s) row col (some cell))
  | getRow row cells => .row (ptywrapGetRow (some s) row (some cells))
  | getCursor row col => .cursor (ptywrapGetCursor (some s) (some row) (some col))
  | getRowText row buf buflen => .rowText (ptywrapGetRowText (some s) row (some buf) buflen)
  | screenshotMarkdown startRow endRow => .document (ptywrapScreenshotMarkdown (some s) startRow endRow)

/-- The checks before `pthread_mutex_lock`. -/
def Call.passes (g : Geometry) : Call → Bool
  | getCell row col _ => decide (¬ (row < 0 ∨ (g.rows : Int) ≤ row ∨ col < 0 ∨ (g.cols : Int) ≤ col))
  | getRow row _ => decide (¬ (row < 0 ∨ (g.rows : Int) ≤ row))
  | getCursor _ _ => true
  | getRowText row _ buflen => decide (¬ (buflen = 0 ∨ row < 0 ∨ (g.rows : Int) ≤ row))
  | screenshotMarkdown _ _ => true

/-- `chars_to_copy`. -/
def charsToCopy (g : Geometry) (buflen : Nat) : Nat := if buflen ≤ g.cols then buflen - 1 else g.cols

/-- What no check asks for and the caller answers for: memory that holds what the call writes, and a screenshot that
starts on the screen. -/
def Call.Sound (g : Geometry) : Call → Prop
  | getCell _ _ _ | getCursor _ _ => True
  | getRow _ cells => g.cols ≤ cells.length
  | getRowText _ buf buflen => charsToCopy g buflen < buf.length
  | screenshotMarkdown startRow _ => startRow < g.rows

/-- **A call that fails its checks answers without looking at the screen.** -/
theorem answer_of_not_passes {c : Call} (h : c.passes g = false) (s t : Session g) : c.answer s = c.answer t := by
  cases c with
  | getCell row col cell =>
    have hout : row < 0 ∨ (g.rows : Int) ≤ row ∨ col < 0 ∨ (g.cols : Int) ≤ col :=
      of_not_not (of_decide_eq_false h)
    simp only [Call.answer, ptywrapGetCell, if_pos hout]
  | getRow row cells =>
    have hout : row < 0 ∨ (g.rows : Int) ≤ row :=
      of_not_not (of_decide_eq_false h)
    simp only [Call.answer, ptywrapGetRow, if_pos hout]
  | getCursor row col => cases h
  | getRowText row buf buflen =>
    have hout : buflen = 0 ∨ row < 0 ∨ (g.rows : Int) ≤ row :=
      of_not_not (of_decide_eq_false h)
    by_cases hzero : buflen = 0
    · simp only [Call.answer, ptywrapGetRowText, if_pos hzero]
    · simp only [Call.answer, ptywrapGetRowText, if_neg hzero, if_pos (hout.resolve_left hzero)]
  | screenshotMarkdown startRow endRow => cases h

/-! ## The sections -/

/-- What a section writes: the caller's cells, integers or characters, and the formatting variables of a line. -/
structure Output where
  cells : List Cell
  ints : List Int
  text : List UInt8
  style : RowStyle

abbrev Step (g : Geometry) := Session g → Output → Session g × Output

/-- A step that only reads the screen. -/
def readOnly (f : Screen g → Output → Output) : Step g := fun s out => (s, f s.screen out)

def Output.append (out : Output) (str : List UInt8) : Output := { out with text := out.text ++ str }

/-- The body of the screenshot's column loop. -/
def Output.styled (out : Output) (cell : Cell) : Output :=
  { out with text := out.text ++ out.style.out cell, style := out.style.next cell }

/-- One turn of the screenshot's row loop. -/
def lineSteps (g : Geometry) (row : Int) : List (Step g) :=
  readOnly (fun _ out => { out with style := RowStyle.init }) ::
    (rowReads g row).map (fun i => readOnly fun s out => out.styled (s.read i)) ++
    [readOnly fun _ out => out.append (out.style.close ++ ascii "\n")]

/-- A screenshot, from the lock on. -/
def documentSteps (g : Geometry) (rng : RowRange) : List (Step g) :=
  readOnly (fun _ out => out.append (ascii "```\n")) ::
    ((intRange rng.first (rng.last + 1)).flatMap (lineSteps g) ++
      [readOnly fun _ out => out.append (ascii "```\n"), readOnly fun s out => out.append (footer s rng)])

namespace Call

def start : Call → Output
  | getCell _ _ cell => ⟨[cell], [], [], RowStyle.init⟩
  | getRow _ cells => ⟨cells, [], [], RowStyle.init⟩
  | getCursor row col => ⟨[], [row, col], [], RowStyle.init⟩
  | getRowText _ buf _ => ⟨[], [], buf, RowStyle.init⟩
  | screenshotMarkdown _ _ => ⟨[], [], [], RowStyle.init⟩

def steps (g : Geometry) : Call → List (Step g)
  | getCell row col _ => [readOnly fun s out => { out with cells := out.cells.set 0 (s.read (cellIndex g.cols row col)) }]
  | getRow row _ =>
    (List.range g.cols).map fun i => readOnly fun s out =>
      { out with cells := out.cells.set i (s.read (wrap32 (row * g.cols) + (i : Int))) }
  | getCursor _ _ =>
    [readOnly fun s out => { out with ints := out.ints.set 0 s.cursorRow },
      readOnly fun s out => { out with ints := out.ints.set 1 s.cursorCol }]
  | getRowText row _ buflen =>
    (List.range (charsToCopy g buflen)).map (fun i => readOnly fun s out =>
      { out with text := out.text.set i (s.read (wrap32 (row * g.cols) + (i : Int))).ch }) ++
    [readOnly fun _ out => { out with text := out.text.set (charsToCopy g buflen) 0 }]
  | screenshotMarkdown startRow endRow => documentSteps g (screenshotRange g startRow (apiEndRow g endRow))

/-- What the call returns once it has unlocked. -/
def finish (g : Geometry) (out : Output) : Call → Answer
  | getCell _ _ _ => .cell (ptywrapOk, out.cells[0]?)
  | getRow _ _ => .row (ptywrapOk, some out.cells)
  | getCursor _ _ => .cursor (ptywrapOk, out.ints[0]?, out.ints[1]?)
  | getRowText _ _ buflen => .rowText (wrap32 (charsToCopy g buflen), some out.text)
  | screenshotMarkdown _ _ => .document (some out.text)

end Call

inductive Job where
  | chunk (bs : List UInt8)
  | call (c : Call)

def Job.steps (g : Geometry) : Job → List (Step g)
  | chunk bs => bs.map fun b s out => (terminalProcessByte s b, out)
  | call c => c.steps g

def Job.start : Job → Output
  | chunk _ => ⟨[], [], [], RowStyle.init⟩
  | call c => c.start

/-- What `buffer_lock` protects. -/
def bufferLock (g : Geometry) : Monitor Job (Session g) Output := ⟨Job.start, Job.steps g⟩

/-! ## In one piece -/

theorem exec_chunk (bs : List UInt8) (s : Session g) (out : Output) :
    Monitor.exec ((Job.chunk bs).steps g) (s, out) = (terminalProcessBytes s bs, out) := by
  induction bs generalizing s with
  | nil => rfl
  | cons b bs ih => exact ih (terminalProcessByte s b)

/-- **A chunk in one piece is `terminal_process_bytes`.** -/
theorem atomic_chunk (bs : List UInt8) (s : Session g) :
    (bufferLock g).atomic (.chunk bs) s = (terminalProcessBytes s bs, (Job.chunk bs).start) :=
  exec_chunk bs s _

/-- **Reading steps leave the session.** -/
theorem exec_readOnly {α : Type} (f : α → Screen g → Output → Output) : ∀ (xs : List α) (s : Session g) (out : Output),
    Monitor.exec (xs.map fun x => readOnly (f x)) (s, out) = (s, xs.foldl (fun out x => f x s.screen out) out)
  | [], _, _ => rfl
  | x :: xs, s, out => exec_readOnly f xs s (f x s.screen out)

theorem exec_cons (f : Step g) (fs : List (Step g)) (p : Session g × Output) :
    Monitor.exec (f :: fs) p = Monitor.exec fs (f p.1 p.2) := rfl

theorem readOnly_of_mem_lineSteps {row : Int} {f : Step g} (hf : f ∈ lineSteps g row) : ∃ h, f = readOnly h := by
  unfold lineSteps at hf
  rcases List.mem_append.1 hf with hf | hf
  · rcases List.mem_cons.1 hf with rfl | hf
    · exact ⟨_, rfl⟩
    · obtain ⟨i, -, rfl⟩ := List.mem_map.1 hf
      exact ⟨_, rfl⟩
  · exact ⟨_, List.mem_singleton.1 hf⟩

theorem readOnly_of_mem_documentSteps {rng : RowRange} {f : Step g} (hf : f ∈ documentSteps g rng) :
    ∃ h, f = readOnly h := by
  unfold documentSteps at hf
  rcases List.mem_cons.1 hf with rfl | hf
  · exact ⟨_, rfl⟩
  rcases List.mem_append.1 hf with hf | hf
  · obtain ⟨row, -, hf⟩ := List.mem_flatMap.1 hf
    exact readOnly_of_mem_lineSteps hf
  rcases List.mem_cons.1 hf with rfl | hf
  · exact ⟨_, rfl⟩
  · exact ⟨_, List.mem_singleton.1 hf⟩

theorem foldl_cells (f : Nat → Cell) : ∀ (is : List Nat) (out : Output),
    is.foldl (fun out i => { out with cells := out.cells.set i (f i) }) out =
      { out with cells := is.foldl (fun cells i => cells.set i (f i)) out.cells }
  | [], _ => rfl
  | i :: is, out => foldl_cells f is { out with cells := out.cells.set i (f i) }

theorem foldl_text (f : Nat → UInt8) : ∀ (is : List Nat) (out : Output),
    is.foldl (fun out i => { out with text := out.text.set i (f i) }) out =
      { out with text := is.foldl (fun text i => text.set i (f i)) out.text }
  | [], _ => rfl
  | i :: is, out => foldl_text f is { out with text := out.text.set i (f i) }

theorem foldl_styled (cell : Int → Cell) : ∀ (is : List Int) (out : Output),
    is.foldl (fun out i => out.styled (cell i)) out =
      { out with
        text := out.text ++ styler.outputs out.style (is.map cell), style := styler.after out.style (is.map cell) }
  | [], out => by
    rw [List.map_nil, Transducer.outputs_nil, List.append_nil]
    rfl
  | i :: is, out => by
    rw [List.foldl_cons, foldl_styled cell is, List.map_cons, Transducer.outputs_cons, Transducer.after_cons,
      ← List.append_assoc]
    rfl

/-- **A turn of the row loop appends the line.** -/
theorem exec_lineSteps (row : Int) (s : Session g) (out : Output) :
    ∃ style, Monitor.exec (lineSteps g row) (s, out) =
      (s, { out with text := out.text ++ renderRow ((rowReads g row).map s.screen.read), style := style }) := by
  unfold lineSteps renderRow
  rw [List.cons_append, exec_cons, Monitor.exec_append,
    exec_readOnly (fun i scr out => out.styled (scr.read i)) (rowReads g row), foldl_styled]
  refine ⟨styler.after RowStyle.init ((rowReads g row).map s.screen.read), ?_⟩
  simp only [Monitor.exec, readOnly, Output.append, List.foldl_cons, List.foldl_nil, List.append_assoc]

theorem exec_lines : ∀ (rows : List Int) (s : Session g) (out : Output),
    ∃ style, Monitor.exec (rows.flatMap (lineSteps g)) (s, out) =
      (s, { out with
        text := out.text ++ rows.flatMap fun row => renderRow ((rowReads g row).map s.screen.read), style := style })
  | [], s, out => ⟨out.style, by rw [List.flatMap_nil, List.flatMap_nil, List.append_nil]; rfl⟩
  | row :: rows, s, out => by
    obtain ⟨style, hline⟩ := exec_lineSteps row s out
    obtain ⟨style', hrest⟩ := exec_lines rows s
      { out with text := out.text ++ renderRow ((rowReads g row).map s.screen.read), style := style }
    refine ⟨style', ?_⟩
    rw [List.flatMap_cons, Monitor.exec_append, hline, hrest, List.flatMap_cons, List.append_assoc]

theorem exec_documentSteps (rng : RowRange) (s : Session g) (out : Output) :
    ∃ style, Monitor.exec (documentSteps g rng) (s, out) =
      (s, { out with
        text := out.text ++ (ascii "```\n" ++
          (intRange rng.first (rng.last + 1)).flatMap (fun row => renderRow ((rowReads g row).map s.screen.read)) ++
          ascii "```\n" ++ footer s.screen rng)
        style := style }) := by
  obtain ⟨style, hlines⟩ := exec_lines (intRange rng.first (rng.last + 1)) s (out.append (ascii "```\n"))
  refine ⟨style, ?_⟩
  unfold documentSteps
  rw [exec_cons, Monitor.exec_append]
  dsimp only [readOnly]
  rw [hlines]
  simp only [Monitor.exec, readOnly, Output.append, List.foldl_cons, List.foldl_nil, List.append_assoc]

/-- **No step of a call writes the session.** -/
theorem fst_of_mem_steps (c : Call) {f : Step g} (hf : f ∈ c.steps g) (s : Session g) (out : Output) : (f s out).1 = s := by
  have hreadOnly : ∃ h, f = readOnly h := by
    cases c with
    | getCell row col cell => exact ⟨_, List.mem_singleton.1 hf⟩
    | getRow row cells =>
      obtain ⟨i, -, rfl⟩ := List.mem_map.1 hf
      exact ⟨_, rfl⟩
    | getCursor row col =>
      rcases List.mem_cons.1 hf with rfl | hf
      · exact ⟨_, rfl⟩
      · exact ⟨_, List.mem_singleton.1 hf⟩
    | getRowText row buf buflen =>
      rcases List.mem_append.1 hf with hf | hf
      · obtain ⟨i, -, rfl⟩ := List.mem_map.1 hf
        exact ⟨_, rfl⟩
      · exact ⟨_, List.mem_singleton.1 hf⟩
    | screenshotMarkdown startRow endRow => exact readOnly_of_mem_documentSteps hf
  obtain ⟨h, rfl⟩ := hreadOnly
  rfl

theorem exec_fst {fs : List (Step g)} (hfs : ∀ f ∈ fs, ∀ s out, (f s out).1 = s) (s : Session g) (out : Output) :
    (Monitor.exec fs (s, out)).1 = s := by
  induction fs generalizing out with
  | nil => rfl
  | cons f fs ih =>
    rw [exec_cons]
    have hrest := ih (fun f' hf' => hfs f' (List.mem_cons_of_mem f hf')) (f s out).2
    have hhead := hfs f List.mem_cons_self s out
    rw [show f s out = (s, (f s out).2) from Prod.ext hhead rfl]
    exact hrest

theorem atomic_call_fst (c : Call) (s : Session g) : ((bufferLock g).atomic (.call c) s).1 = s :=
  exec_fst (fun _ hf => fst_of_mem_steps c hf) s _

/-- **A call in one piece answers what its function returns on the session it finds.** -/
theorem finish_atomic (c : Call) (s : Session g) (hpasses : c.passes g = true) (hsound : c.Sound g) :
    c.finish g ((bufferLock g).atomic (.call c) s).2 = c.answer s := by
  cases c with
  | getCell row col cell =>
    have hin := of_decide_eq_true hpasses
    simp only [Call.answer, ptywrapGetCell, if_neg hin]
    rfl
  | getRow row cells =>
    have hin := of_decide_eq_true hpasses
    have hrun : (bufferLock g).atomic (.call (.getRow row cells)) s = _ :=
      exec_readOnly (fun i scr out =>
        { out with cells := out.cells.set i (scr.read (wrap32 (row * g.cols) + (i : Int))) }) (List.range g.cols) s _
    rw [hrun, foldl_cells]
    have hcells : ((bufferLock g).start (.call (.getRow row cells))).cells = cells := rfl
    simp only [Call.answer, ptywrapGetRow, if_neg hin, Call.finish, hcells]
    rw [foldl_set_range _ cells g.cols hsound]
  | getCursor row col => rfl
  | getRowText row buf buflen =>
    have hin := of_decide_eq_true hpasses
    have hrun : (bufferLock g).atomic (.call (.getRowText row buf buflen)) s = _ :=
      Monitor.exec_append _ _ _
    rw [hrun, exec_readOnly (fun i scr out =>
        { out with text := out.text.set i (scr.read (wrap32 (row * g.cols) + (i : Int))).ch }), foldl_text]
    rw [not_or] at hin
    simp only [Call.answer, ptywrapGetRowText, if_neg hin.1, if_neg hin.2]
    rfl
  | screenshotMarkdown startRow endRow =>
    obtain ⟨style, hrun⟩ := exec_documentSteps (screenshotRange g startRow (apiEndRow g endRow)) s
      (Call.screenshotMarkdown startRow endRow).start
    have hatomic : (bufferLock g).atomic (.call (.screenshotMarkdown startRow endRow)) s = _ := hrun
    rw [hatomic]
    rfl

end Ptywrap
