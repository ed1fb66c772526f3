import Ptywrap.Session
/-!
# Terminal — the buffer operations of `terminal.c`

`terminal_init`, `terminal_put_char` and `terminal_newline`.  Each list of indices an operation goes through is a
definition of its own, so that what the operation writes and what it may touch are read off the same text.
-/
namespace Ptywrap

open CInt (wrap32 intMax Fits)
open RowMajor (store storeAll intRange blockMove scrollUp)

variable {g : Geometry}

def parserReset : Parser where
  csiParams := Vector.replicate 16 0
  csiParamCount := 0
  parseState := .normal

/-- `terminal_init`, once `calloc` has returned the cells. -/
def terminalInit (g : Geometry) : Session g where
  screen :=
    { cursorRow := 0
      cursorCol := 0
      currentAttrs := ⟨0, 7, 0, 0⟩
      buffer := Vector.replicate (g.rows * g.cols) ⟨32, 7, 0, 0⟩ }
  parser := parserReset

def lastLineIndices (g : Geometry) : List Int :=
  intRange (((g.rows - 1) * g.cols : Nat) : Int) (((g.rows - 1) * g.cols + g.cols : Nat) : Int)

def terminalNewline (s : Screen g) : Screen g :=
  let s := { s with cursorCol := 0, cursorRow := wrap32 (s.cursorRow + 1) }
  if (g.rows : Int) ≤ s.cursorRow then
    let moved := blockMove s.buffer 0 g.cols ((g.rows - 1) * g.cols)
    { s with buffer := storeAll moved (lastLineIndices g) s.blank, cursorRow := (g.rows : Int) - 1 }
  else s

def terminalPutChar (s : Screen g) (ch : UInt8) : Screen g :=
  if (g.rows : Int) ≤ s.cursorRow ∨ (g.cols : Int) ≤ s.cursorCol then s
  else
    let idx := cellIndex g.cols s.cursorRow s.cursorCol
    let s := { s with buffer := store s.buffer idx (s.glyph ch), cursorCol := wrap32 (s.cursorCol + 1) }
    if (g.cols : Int) ≤ s.cursorCol then terminalNewline s else s

/-! ## What they touch -/

/-- The buffer indices `terminal_newline` reads or writes: `memmove`'s source and target and the last line. -/
def newlineTouched (g : Geometry) (pen : Pen) : List Int :=
  if (g.rows : Int) ≤ wrap32 (pen.cursorRow + 1) then
    intRange 0 (((g.rows - 1) * g.cols : Nat) : Int) ++
      intRange (g.cols : Int) ((g.cols + (g.rows - 1) * g.cols : Nat) : Int) ++ lastLineIndices g
  else []

def putCharTouched (g : Geometry) (pen : Pen) : List Int :=
  if (g.rows : Int) ≤ pen.cursorRow ∨ (g.cols : Int) ≤ pen.cursorCol then []
  else
    cellIndex g.cols pen.cursorRow pen.cursorCol ::
      (if (g.cols : Int) ≤ wrap32 (pen.cursorCol + 1) then newlineTouched g pen else [])

/-! ## Inside the grid -/

theorem wrap32_row_succ (g : Geometry) {r : Int} (h0 : 0 ≤ r) (h : r < g.rows) : wrap32 (r + 1) = r + 1 := by
  have := g.rows_le
  refine CInt.wrap32_of_fits ?_
  rw [CInt.fits_iff]
  unfold intMax at this
  omega

theorem wrap32_col_succ (g : Geometry) {c : Int} (h0 : 0 ≤ c) (h : c < g.cols) : wrap32 (c + 1) = c + 1 := by
  have := g.cols_le
  refine CInt.wrap32_of_fits ?_
  rw [CInt.fits_iff]
  unfold intMax at this
  omega

/-- **A newline above the last row moves the cursor alone.** -/
theorem terminalNewline_of_lt (s : Screen g) (h0 : 0 ≤ s.cursorRow) (h : s.cursorRow + 1 < g.rows) :
    terminalNewline s = { s with cursorCol := 0, cursorRow := s.cursorRow + 1 } := by
  unfold terminalNewline
  simp only
  rw [wrap32_row_succ g h0 (by omega), if_neg (by omega)]

/-- **A newline on the last row scrolls.** -/
theorem terminalNewline_of_last (s : Screen g) (h : s.cursorRow + 1 = g.rows) :
    terminalNewline s =
      { s with cursorCol := 0, cursorRow := (g.rows : Int) - 1, buffer := scrollUp s.buffer s.blank } := by
  have := g.rows_pos
  unfold terminalNewline
  simp only
  rw [wrap32_row_succ g (by omega) (by omega), if_pos (by omega)]
  rfl

/-- **A character inside the grid is stored at the cursor**, and the line ends after the last column. -/
theorem terminalPutChar_of_inGrid (s : Screen g) (ch : UInt8) (r : Fin g.rows) (c : Fin g.cols)
    (hr : s.cursorRow = (r.val : Int)) (hc : s.cursorCol = (c.val : Int)) :
    terminalPutChar s ch =
      let s' := { s with buffer := store s.buffer ((r.val * g.cols + c.val : Nat) : Int) (s.glyph ch),
                         cursorCol := s.cursorCol + 1 }
      if c.val + 1 < g.cols then s' else terminalNewline s' := by
  have hr' := r.isLt
  have hc' := c.isLt
  unfold terminalPutChar
  rw [if_neg (by omega), cellIndex_of_inGrid g r c hr hc]
  simp only
  rw [wrap32_col_succ g (by omega) (by omega)]
  by_cases h : c.val + 1 < g.cols
  · rw [if_neg (by omega), if_pos h]
  · rw [if_pos (by omega), if_neg h]

theorem terminalPutChar_of_outside (s : Screen g) (ch : UInt8)
    (h : (g.rows : Int) ≤ s.cursorRow ∨ (g.cols : Int) ≤ s.cursorCol) : terminalPutChar s ch = s := by
  unfold terminalPutChar
  rw [if_pos h]

end Ptywrap
