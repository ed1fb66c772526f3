import Mathlib.Data.List.Induction
import Mathlib.Data.List.Infix
import Ptywrap.Contain
/-!
# Transcript — the screen as a window on a growing list of rows

The reference terminal keeps every row it ever had: leaving the last row of the window appends one, and every other
operation acts on the window, the last `rows` rows.  The session holds the window alone, flat and scrolled in place.
`shows_exec` is the simulation of one action, `window_of_transcript` that of any byte stream along which the cursor
stays on the screen.
-/
namespace Ptywrap

open CInt (wrap32)
open RowMajor (rowOf store scrollUp)

variable {g : Geometry}

abbrev Row (g : Geometry) := Vector Cell g.cols

/-- The reference terminal's screen: all rows so far, at least a window of them, and the pen. -/
structure Transcript (g : Geometry) extends Pen where
  lines : List (Row g)
  full : g.rows ≤ lines.length

namespace Transcript

def top (t : Transcript g) : Nat := t.lines.length - g.rows

/-- An update of the window row the cursor is in. -/
def modifyRow (t : Transcript g) (f : Row g → Row g) : Transcript g :=
  { t with
    lines := t.lines.modify (t.top + t.cursorRow.toNat) f
    full := by rw [List.length_modify]; exact t.full }

/-- A line end: down one row, or one blank row more. -/
def newline (t : Transcript g) : Transcript g :=
  if t.cursorRow + 1 < g.rows then { t with cursorCol := 0, cursorRow := t.cursorRow + 1 }
  else
    { t with
      cursorCol := 0
      lines := t.lines ++ [Vector.replicate g.cols t.blank]
      full := by rw [List.length_append]; exact Nat.le_trans t.full (Nat.le_add_right _ _) }

def putChar (t : Transcript g) (ch : UInt8) : Transcript g :=
  let stored := t.modifyRow (fun row => row.setIfInBounds t.cursorCol.toNat (t.glyph ch))
  let moved : Transcript g := { stored with cursorCol := t.cursorCol + 1 }
  if moved.cursorCol < (g.cols : Int) then moved else moved.newline

/-- Erase the window, the cursor going home. -/
def eraseDisplay (t : Transcript g) (p : CsiArgs) : Transcript g :=
  if p.arg 0 0 = 2 then
    { t with
      cursorRow := 0
      cursorCol := 0
      lines := t.lines.take t.top ++ List.replicate g.rows (Vector.replicate g.cols t.blank)
      full := by rw [List.length_append, List.length_replicate]; exact Nat.le_add_left _ _ }
  else t

/-- The columns an erasure in the line covers: from the cursor on, up to it, or all. -/
def erased (p : CsiArgs) (col : Int) (c : Nat) : Bool :=
  if p.arg 0 0 = 0 then decide (col ≤ (c : Int))
  else if p.arg 0 0 = 1 then decide ((c : Int) ≤ col)
  else decide (p.arg 0 0 = 2)

def eraseLine (t : Transcript g) (p : CsiArgs) : Transcript g :=
  t.modifyRow fun row => Vector.ofFn fun c : Fin g.cols => if erased p t.cursorCol c.val then t.blank else row[c]

def executeCsi (t : Transcript g) (p : CsiArgs) (cmd : UInt8) : Transcript g :=
  if cmd = 109 then { t with currentAttrs := executeSgr p t.currentAttrs }
  else if cmd = 65 ∨ cmd = 66 ∨ cmd = 67 ∨ cmd = 68 then { t with toPen := executeCursorMove g p cmd t.toPen }
  else if cmd = 72 ∨ cmd = 102 then { t with toPen := executeCursorPosition g p t.toPen }
  else if cmd = 74 then t.eraseDisplay p
  else if cmd = 75 then t.eraseLine p
  else t

def exec (t : Transcript g) : Action → Transcript g
  | .newline => t.newline
  | .carriageReturn => { t with cursorCol := 0 }
  | .backspace => if 0 < t.cursorCol then { t with cursorCol := t.cursorCol - 1 } else t
  | .putChar ch => t.putChar ch
  | .executeCsi p cmd => t.executeCsi p cmd

/-- The transcript that ends with a screen, after some older rows. -/
def ofScreen (history : List (Row g)) (s : Screen g) : Transcript g where
  toPen := s.toPen
  lines := history ++ List.ofFn (rowOf s.buffer)
  full := by rw [List.length_append, List.length_ofFn]; exact Nat.le_add_left _ _

end Transcript

/-- The reference terminal: the library's reader of bytes over a transcript. -/
structure RefSession (g : Geometry) where
  transcript : Transcript g
  parser : Parser

def RefSession.processByte (t : RefSession g) (ch : UInt8) : RefSession g :=
  ⟨(t.parser.out ch).foldl Transcript.exec t.transcript, t.parser.next ch⟩

def RefSession.processBytes (t : RefSession g) (bs : List UInt8) : RefSession g := bs.foldl RefSession.processByte t

/-! ## The simulation -/

/-- The screen is the window of the transcript, and the pens agree. -/
structure Shows (s : Screen g) (t : Transcript g) : Prop where
  pen : s.toPen = t.toPen
  rows : ∀ r : Fin g.rows, t.lines[t.top + r.val]? = some (rowOf s.buffer r)

theorem Transcript.top_add_lt (t : Transcript g) (r : Fin g.rows) : t.top + r.val < t.lines.length := by
  have := t.full
  have := r.isLt
  unfold Transcript.top
  omega

theorem shows_ofScreen (history : List (Row g)) (s : Screen g) : Shows s (Transcript.ofScreen history s) := by
  refine ⟨rfl, fun r => ?_⟩
  have htop : (Transcript.ofScreen history s).top = history.length := by
    unfold Transcript.top Transcript.ofScreen
    rw [List.length_append, List.length_ofFn, Nat.add_sub_cancel]
  rw [htop]
  unfold Transcript.ofScreen
  simp only
  rw [List.getElem?_append_right (Nat.le_add_right _ _), Nat.add_sub_cancel_left]
  simp

theorem Shows.withPen {s : Screen g} {t : Transcript g} (h : Shows s t) {pen pen' : Pen} (e : pen = pen') :
    Shows { s with toPen := pen } { t with toPen := pen' } :=
  ⟨e, h.rows⟩

/-- **A change of the cursor's row, on both sides.** -/
theorem shows_modifyRow {s : Screen g} {t : Transcript g} (h : Shows s t) (r : Fin g.rows)
    (hr : s.cursorRow = (r.val : Int)) (f : Row g → Row g) (buf : Vector Cell (g.rows * g.cols))
    (hbuf : ∀ r', rowOf buf r' = if r' = r then f (rowOf s.buffer r) else rowOf s.buffer r') :
    Shows { s with buffer := buf } (t.modifyRow f) := by
  refine ⟨h.pen, fun r' => ?_⟩
  have hrow : t.cursorRow.toNat = r.val := by
    have := congrArg Pen.cursorRow h.pen
    omega
  have htop : (t.modifyRow f).top = t.top := by
    unfold Transcript.top Transcript.modifyRow
    rw [List.length_modify]
  rw [htop, hbuf r']
  unfold Transcript.modifyRow
  simp only
  rw [hrow, List.getElem?_modify, h.rows r']
  by_cases hrr : r' = r
  · subst hrr
    simp
  · have hne : ¬ t.top + r.val = t.top + r'.val := fun e => hrr (Fin.ext (by omega))
    simp only [if_neg hne, if_neg hrr, Option.map_eq_map, Option.map_some]

theorem shows_newline {s : Screen g} {t : Transcript g} (h : Shows s t) (h0 : 0 ≤ s.cursorRow)
    (hlt : s.cursorRow < g.rows) : Shows (terminalNewline s) t.newline := by
  have hpen := h.pen
  have hrow : t.cursorRow = s.cursorRow := congrArg Pen.cursorRow hpen.symm
  have hattrs : t.currentAttrs = s.currentAttrs := congrArg Pen.currentAttrs hpen.symm
  unfold Transcript.newline
  by_cases hlast : s.cursorRow + 1 < g.rows
  · rw [terminalNewline_of_lt s h0 hlast, if_pos (by rw [hrow]; exact hlast)]
    refine ⟨?_, h.rows⟩
    simp only [hrow, hattrs]
  · rw [terminalNewline_of_last s (by omega), if_neg (by rw [hrow]; exact hlast)]
    refine ⟨by simp only [hrow, hattrs, Pen.mk.injEq, and_self, and_true]; omega, fun r => ?_⟩
    have hfull := t.full
    have htop : t.lines.length + 1 - g.rows = t.top + 1 := by unfold Transcript.top; omega
    unfold Transcript.top
    simp only [List.length_append, List.length_singleton]
    rw [htop]
    by_cases hr : r.val + 1 < g.rows
    · -- an old row, one place higher
      have hin := t.top_add_lt ⟨r.val + 1, hr⟩
      simp only at hin
      rw [List.getElem?_append_left (by omega), show t.top + 1 + r.val = t.top + (r.val + 1) by omega,
        h.rows ⟨r.val + 1, hr⟩, Option.some.injEq, RowMajor.rowOf_eq_iff]
      intro c
      rw [RowMajor.cell_scrollUp, dif_pos hr]
    · -- the row that was appended
      have hend : t.top + 1 + r.val = t.lines.length := by unfold Transcript.top; have := r.isLt; omega
      rw [hend, List.getElem?_append_right (Nat.le_refl _), Nat.sub_self, List.getElem?_cons_zero, Option.some.injEq]
      apply Vector.ext
      intro c hc
      unfold rowOf
      rw [Vector.getElem_replicate, Vector.getElem_ofFn, RowMajor.cell_scrollUp, dif_neg hr]
      unfold Pen.blank
      rw [hattrs]

theorem shows_putChar {s : Screen g} {t : Transcript g} (h : Shows s t) (hin : s.InGrid g) (ch : UInt8) :
    Shows (terminalPutChar s ch) (t.putChar ch) := by
  obtain ⟨r, c, hr, hc⟩ := hin.exists_fin
  have hpen := h.pen
  have hcol : t.cursorCol = (c.val : Int) := (congrArg Pen.cursorCol hpen.symm).trans hc
  have hglyph : t.glyph ch = s.glyph ch := by
    unfold Pen.glyph
    rw [show t.currentAttrs = s.currentAttrs from congrArg Pen.currentAttrs hpen.symm]
  -- the cell, then the cursor
  have hstored : Shows
      { s with buffer := store s.buffer ((r.val * g.cols + c.val : Nat) : Int) (s.glyph ch) }
      (t.modifyRow (fun row => row.setIfInBounds t.cursorCol.toNat (t.glyph ch))) := by
    refine shows_modifyRow h r hr _ _ (fun r' => ?_)
    apply Vector.ext
    intro i hi
    unfold rowOf
    rw [Vector.getElem_ofFn, RowMajor.cell_store_flat]
    by_cases hrr : r' = r
    · subst hrr
      rw [if_pos rfl, Vector.getElem_setIfInBounds hi, Vector.getElem_ofFn, hcol, hglyph]
      by_cases hic : i = c.val
      · subst hic
        rw [if_pos ⟨rfl, rfl⟩, if_pos (by simp)]
      · rw [if_neg (fun e => hic (congrArg Fin.val e.2)), if_neg (by simp only [Int.toNat_natCast]; omega)]
    · rw [if_neg (fun e => hrr e.1), if_neg hrr, Vector.getElem_ofFn]
  have hmoved : Shows
      { s with
        buffer := store s.buffer ((r.val * g.cols + c.val : Nat) : Int) (s.glyph ch)
        cursorCol := s.cursorCol + 1 }
      { t.modifyRow (fun row => row.setIfInBounds t.cursorCol.toNat (t.glyph ch)) with
        cursorCol := t.cursorCol + 1 } := by
    refine ⟨?_, hstored.rows⟩
    simp only [Transcript.modifyRow, Pen.mk.injEq]
    exact ⟨congrArg Pen.cursorRow hpen, by omega, congrArg Pen.currentAttrs hpen⟩
  rw [terminalPutChar_of_inGrid s ch r c hr hc]
  unfold Transcript.putChar
  dsimp only
  by_cases hwrap : c.val + 1 < g.cols
  · rw [if_pos hwrap, if_pos (by omega)]
    exact hmoved
  · rw [if_neg hwrap, if_neg (by omega)]
    exact shows_newline hmoved hin.1.1 hin.1.2

theorem shows_eraseDisplay {s : Screen g} {t : Transcript g} (h : Shows s t) (p : CsiArgs) :
    Shows (executeEraseDisplay p s) (t.eraseDisplay p) := by
  have hpen := h.pen
  have hattrs : t.currentAttrs = s.currentAttrs := congrArg Pen.currentAttrs hpen.symm
  have hcell := cell_executeEraseDisplay p s
  unfold executeEraseDisplay at hcell ⊢
  unfold Transcript.eraseDisplay
  by_cases hp : p.arg 0 0 = 2
  · simp only [if_pos hp] at hcell ⊢
    refine ⟨by simp only [hattrs], fun r => ?_⟩
    have hlen : (t.lines.take t.top).length = t.top := by
      rw [List.length_take]
      unfold Transcript.top
      omega
    have htop : t.top + g.rows - g.rows = t.top := Nat.add_sub_cancel _ _
    unfold Transcript.top at htop
    unfold Transcript.top
    simp only [List.length_append, List.length_replicate]
    unfold Transcript.top at hlen
    rw [hlen, htop, List.getElem?_append_right (by omega), hlen, Nat.add_sub_cancel_left, List.getElem?_replicate,
      if_pos r.isLt, Option.some.injEq]
    apply Vector.ext
    intro c hc
    unfold rowOf
    rw [Vector.getElem_replicate, Vector.getElem_ofFn]
    refine Eq.trans ?_ (hcell r ⟨c, hc⟩).symm
    unfold Pen.blank
    rw [hattrs]
  · simp only [if_neg hp]
    exact h

theorem mem_eraseLineCols (p : CsiArgs) (pen : Pen) (c : Fin g.cols) :
    ((c.val : Nat) : Int) ∈ eraseLineCols g p pen ↔ Transcript.erased p pen.cursorCol c.val = true := by
  have hc := c.isLt
  unfold eraseLineCols Transcript.erased
  by_cases h0 : p.arg 0 0 = 0
  · rw [if_pos h0, if_pos h0, RowMajor.mem_intRange, decide_eq_true_eq]; omega
  by_cases h1 : p.arg 0 0 = 1
  · rw [if_neg h0, if_pos h1, if_neg h0, if_pos h1, RowMajor.mem_intRange, decide_eq_true_eq]; omega
  by_cases h2 : p.arg 0 0 = 2
  · rw [if_neg h0, if_neg h1, if_pos h2, if_neg h0, if_neg h1, RowMajor.mem_intRange, decide_eq_true_eq]; omega
  · rw [if_neg h0, if_neg h1, if_neg h2, if_neg h0, if_neg h1]
    simp [h2]

theorem shows_eraseLine {s : Screen g} {t : Transcript g} (h : Shows s t) (hin : s.InGrid g) (p : CsiArgs) :
    Shows (executeEraseLine p s) (t.eraseLine p) := by
  obtain ⟨r, c, hr, hc⟩ := hin.exists_fin
  have hcell := cell_executeEraseLine p s hin
  refine shows_modifyRow h r hr _ _ (fun r' => ?_)
  apply Vector.ext
  intro i hi
  unfold rowOf
  rw [Vector.getElem_ofFn]
  refine (hcell r' ⟨i, hi⟩).trans ?_
  have hmem := mem_eraseLineCols p s.toPen ⟨i, hi⟩
  by_cases hrr : r' = r
  · subst hrr
    rw [if_pos rfl, Vector.getElem_ofFn]
    have hcol : t.cursorCol = s.cursorCol := congrArg Pen.cursorCol h.pen.symm
    have hblank : t.blank = s.blank := by
      unfold Pen.blank
      rw [show t.currentAttrs = s.currentAttrs from congrArg Pen.currentAttrs h.pen.symm]
    rw [hcol, hblank]
    by_cases he : Transcript.erased p s.cursorCol i = true
    · rw [if_pos ⟨hr, hmem.2 he⟩, if_pos he]
    · rw [if_neg (fun e => he (hmem.1 e.2)), if_neg he]
      simp [Screen.cell]
  · rw [if_neg hrr, if_neg (fun e => hrr (Fin.ext (by have := e.1; omega))), Vector.getElem_ofFn]
    rfl

/-- **One action keeps the window**, from a cursor on the screen. -/
theorem shows_exec {s : Screen g} {t : Transcript g} (h : Shows s t) (hin : s.InGrid g) (a : Action) :
    Shows (a.exec s) (t.exec a) := by
  have hpen := h.pen
  have hrow : t.cursorRow = s.cursorRow := congrArg Pen.cursorRow hpen.symm
  have hcol : t.cursorCol = s.cursorCol := congrArg Pen.cursorCol hpen.symm
  have hattrs : t.currentAttrs = s.currentAttrs := congrArg Pen.currentAttrs hpen.symm
  cases a with
  | newline => exact shows_newline h hin.1.1 hin.1.2
  | carriageReturn => exact h.withPen (by rw [hrow, hattrs])
  | backspace =>
    unfold Action.exec Transcript.exec
    dsimp only
    rw [hcol]
    split
    · exact h.withPen (by rw [hrow, hattrs])
    · exact h
  | putChar ch => exact shows_putChar h hin ch
  | executeCsi p cmd =>
    unfold Action.exec Transcript.exec parserExecuteCsi Transcript.executeCsi
    dsimp only
    split
    · exact h.withPen (by rw [hrow, hcol, hattrs])
    split
    · exact h.withPen (by rw [hpen])
    split
    · exact h.withPen (by rw [hpen])
    split
    · exact shows_eraseDisplay h p
    split
    · exact shows_eraseLine h hin p
    · exact h

/-! ## The rows above the window -/

/-- `t'` comes after `t`: the window has not moved up, and the rows above `t`'s window are still there. -/
structure Transcript.KeepsHistory (t t' : Transcript g) : Prop where
  top_le : t.top ≤ t'.top
  rows : ∀ i < t.top, t'.lines[i]? = t.lines[i]?

theorem Transcript.KeepsHistory.refl (t : Transcript g) : t.KeepsHistory t := ⟨Nat.le_refl _, fun _ _ => rfl⟩

theorem Transcript.KeepsHistory.trans {t u v : Transcript g} (h : t.KeepsHistory u) (h' : u.KeepsHistory v) :
    t.KeepsHistory v :=
  ⟨Nat.le_trans h.top_le h'.top_le, fun i hi => (h'.rows i (Nat.lt_of_lt_of_le hi h.top_le)).trans (h.rows i hi)⟩

theorem Transcript.keepsHistory_modifyRow (t : Transcript g) (f : Row g → Row g) : t.KeepsHistory (t.modifyRow f) := by
  unfold Transcript.modifyRow
  refine ⟨by unfold Transcript.top; rw [List.length_modify], fun i hi => ?_⟩
  have hne : ¬ t.top + t.cursorRow.toNat = i := by omega
  simp only [List.getElem?_modify, if_neg hne, Option.map_eq_map, Option.map_id']

theorem Transcript.keepsHistory_newline (t : Transcript g) : t.KeepsHistory t.newline := by
  unfold Transcript.newline
  split
  · exact ⟨Nat.le_refl _, fun _ _ => rfl⟩
  · refine ⟨?_, fun i hi => List.getElem?_append_left (by unfold Transcript.top at hi; omega)⟩
    unfold Transcript.top
    simp only [List.length_append]
    omega

theorem Transcript.keepsHistory_eraseDisplay (t : Transcript g) (p : CsiArgs) : t.KeepsHistory (t.eraseDisplay p) := by
  have htop : t.top ≤ t.lines.length := Nat.sub_le _ _
  unfold Transcript.eraseDisplay
  split
  · refine ⟨?_, fun i hi => ?_⟩
    · have hfull := t.full
      unfold Transcript.top at htop ⊢
      simp only [List.length_append, List.length_take, List.length_replicate]
      omega
    · simp only
      rw [List.getElem?_append_left (by rw [List.length_take]; omega), List.getElem?_take_of_lt hi]
  · exact Transcript.KeepsHistory.refl t

/-- **No action changes a row above the window**, or takes one away. -/
theorem Transcript.keepsHistory_exec (t : Transcript g) (a : Action) : t.KeepsHistory (t.exec a) := by
  cases a with
  | newline => exact t.keepsHistory_newline
  | carriageReturn => exact ⟨Nat.le_refl _, fun _ _ => rfl⟩
  | backspace =>
    unfold Transcript.exec
    dsimp only
    split <;> exact ⟨Nat.le_refl _, fun _ _ => rfl⟩
  | putChar ch =>
    have hstored := t.keepsHistory_modifyRow (fun row => row.setIfInBounds t.cursorCol.toNat (t.glyph ch))
    unfold Transcript.exec Transcript.putChar
    dsimp only
    split
    · exact ⟨hstored.top_le, hstored.rows⟩
    · exact KeepsHistory.trans ⟨hstored.top_le, hstored.rows⟩ (Transcript.keepsHistory_newline _)
  | executeCsi p cmd =>
    unfold Transcript.exec Transcript.executeCsi
    dsimp only
    split
    · exact ⟨Nat.le_refl _, fun _ _ => rfl⟩
    split
    · exact ⟨Nat.le_refl _, fun _ _ => rfl⟩
    split
    · exact ⟨Nat.le_refl _, fun _ _ => rfl⟩
    split
    · exact t.keepsHistory_eraseDisplay p
    split
    · exact t.keepsHistory_modifyRow _
    · exact KeepsHistory.refl t

theorem keepsHistory_exec_all : ∀ (as : List Action) (t : Transcript g), t.KeepsHistory (as.foldl Transcript.exec t)
  | [], t => Transcript.KeepsHistory.refl t
  | a :: as, t => (t.keepsHistory_exec a).trans (keepsHistory_exec_all as (t.exec a))

/-- **The reference terminal never discards a row**: along any byte stream the rows above the window stay. -/
theorem keepsHistory_processBytes : ∀ (bs : List UInt8) (t : RefSession g),
    t.transcript.KeepsHistory (t.processBytes bs).transcript
  | [], t => Transcript.KeepsHistory.refl _
  | b :: bs, t => by
    have hstep : t.transcript.KeepsHistory (t.processByte b).transcript := keepsHistory_exec_all _ _
    exact hstep.trans (keepsHistory_processBytes bs (t.processByte b))

/-! ## Runs -/

structure InStep (s : Session g) (t : RefSession g) : Prop where
  shows : Shows s.screen t.transcript
  parser : s.parser = t.parser

theorem inStep_processByte {s : Session g} {t : RefSession g} (h : InStep s t) (hin : s.InGrid) (ch : UInt8) :
    InStep (terminalProcessByte s ch) (t.processByte ch) := by
  rw [terminalProcessByte_eq]
  unfold RefSession.processByte
  rw [← h.parser]
  refine ⟨?_, rfl⟩
  dsimp only
  rcases out_cases s.parser ch with hout | ⟨a, hout, -⟩
  · rw [hout]
    exact h.shows
  · rw [hout]
    exact shows_exec h.shows hin a

theorem inStep_processBytes {s : Session g} {t : RefSession g} (h : InStep s t) :
    ∀ bs : List UInt8, (∀ pre, pre <+: bs → (terminalProcessBytes s pre).InGrid) →
      InStep (terminalProcessBytes s bs) (t.processBytes bs) := by
  intro bs
  induction bs using List.reverseRecOn with
  | nil => exact fun _ => h
  | append_singleton bs b ih =>
    intro hin
    have hpre : InStep (terminalProcessBytes s bs) (t.processBytes bs) :=
      ih (fun pre hp => hin pre (hp.trans (List.prefix_append bs [b])))
    have := inStep_processByte hpre (hin bs (List.prefix_append bs [b])) b
    rw [terminalProcessBytes_append]
    unfold RefSession.processBytes at this ⊢
    rw [List.foldl_append]
    exact this

theorem Shows.lines_drop {s : Screen g} {t : Transcript g} (h : Shows s t) :
    t.lines.drop t.top = List.ofFn (rowOf s.buffer) := by
  apply List.ext_getElem?
  intro i
  rw [List.getElem?_drop]
  by_cases hi : i < g.rows
  · rw [h.rows ⟨i, hi⟩]
    simp [hi]
  · have hfull := t.full
    rw [List.getElem?_eq_none (by unfold Transcript.top; omega), List.getElem?_eq_none (by simp; omega)]

/-- **The scrolling grid is a window on the transcript**: along any byte stream that keeps the cursor on the screen,
the flat buffer is the last `rows` rows of the reference transcript, and the pen and the parser agree. -/
theorem window_of_transcript (s : Session g) (history : List (Row g)) (bs : List UInt8)
    (hin : ∀ pre, pre <+: bs → (terminalProcessBytes s pre).InGrid) :
    let s' := terminalProcessBytes s bs
    let t' := (RefSession.mk (Transcript.ofScreen history s.screen) s.parser).processBytes bs
    s'.screen.buffer.toList =
        ((t'.transcript.lines.drop (t'.transcript.lines.length - g.rows)).map Vector.toList).flatten ∧
      s'.screen.toPen = t'.transcript.toPen ∧ s'.parser = t'.parser := by
  have h : InStep (terminalProcessBytes s bs)
      ((RefSession.mk (Transcript.ofScreen history s.screen) s.parser).processBytes bs) :=
    inStep_processBytes ⟨shows_ofScreen history s.screen, rfl⟩ bs hin
  refine ⟨?_, h.shows.pen, h.parser⟩
  have hdrop := h.shows.lines_drop
  unfold Transcript.top at hdrop
  rw [hdrop]
  exact RowMajor.toList_eq_flatten_rowOf _

/-- Three line ends and a character on two rows. -/
theorem window_of_transcript_scrolled :
    let g : Geometry := ⟨2, 3, by decide, by decide, by decide⟩
    let s := terminalInit g
    let bs : List UInt8 := [65, 10, 66, 10, 10]
    let s' := terminalProcessBytes s bs
    let t' := (RefSession.mk (Transcript.ofScreen [] s.screen) s.parser).processBytes bs
    s'.screen.buffer.toList =
        ((t'.transcript.lines.drop (t'.transcript.lines.length - g.rows)).map Vector.toList).flatten ∧
      s'.screen.toPen = t'.transcript.toPen ∧ s'.parser = t'.parser :=
  window_of_transcript _ [] _ (fun pre h => by
    rw [← List.mem_inits] at h
    revert pre
    decide)

end Ptywrap
