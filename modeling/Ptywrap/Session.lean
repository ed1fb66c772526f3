import Ptywrap.CInt
import Ptywrap.RowMajor
/-!
# Session — the session's data (`ptywrap.h`, `internal.h`)

`struct ptywrap_session` is split the way `internal.h` comments it: the terminal buffer with its cursor and current
SGR attributes (`Screen`), and the parser state (`Parser`).  The pseudo-terminal, the child process, the lock and the
reader thread are not read by any function on these two.

A `Session g` holds exactly `g.rows * g.cols` cells, and `Geometry` admits only sizes whose product is an `int`.
`terminal_init` computes that product in `int`, so that a larger grid gets another number of cells (`bufferSize_eq_iff`);
such sizes are left out here, and `Grid` says what the library does with them.
-/
namespace Ptywrap

open CInt (wrap32 intMax Fits)

/-- `ptywrap_cell_t`. -/
structure Cell where
  ch : UInt8
  fgColor : UInt8
  bgColor : UInt8
  attrs : UInt8
deriving DecidableEq, Repr, Inhabited

def attrBold : UInt8 := 0x01
def attrUnderline : UInt8 := 0x02
def attrReverse : UInt8 := 0x04
def attrBlink : UInt8 := 0x08

/-- Return codes. -/
def ptywrapOk : Int := 0
def ptywrapErrInval : Int := -1
def ptywrapErrPty : Int := -2

/-- `enum parse_state`. -/
inductive ParseState where
  | normal
  | esc
  | csi
  | csiParam
deriving DecidableEq, Repr

/-- `csi_params` and `csi_param_count`: all that a CSI command reads of the parser. -/
structure CsiArgs where
  csiParams : Vector Int 16
  csiParamCount : Nat
deriving DecidableEq, Repr

/-- The parser's fields of the session. -/
structure Parser extends CsiArgs where
  parseState : ParseState
deriving DecidableEq, Repr

def CsiArgs.param (p : CsiArgs) (i : Nat) : Int := p.csiParams.getD i 0

/-- A screen size with as many cells as an `int` can count. -/
structure Geometry where
  rows : Nat
  cols : Nat
  rows_pos : 0 < rows
  cols_pos : 0 < cols
  fits : ((rows * cols : Nat) : Int) ≤ intMax

theorem twoCells_fits : ((1 * 2 : Nat) : Int) ≤ intMax := by decide

/-- One row and two columns, the least that has a cell besides the last. -/
def twoCells : Geometry := ⟨1, 2, Nat.one_pos, Nat.two_pos, twoCells_fits⟩

/-- Where the next character goes and how it looks: `cursor_row`, `cursor_col`, `current_attrs`. -/
structure Pen where
  cursorRow : Int
  cursorCol : Int
  currentAttrs : Cell
deriving DecidableEq, Repr

/-- The terminal buffer, flat and row-major, with its pen. -/
structure Screen (g : Geometry) extends Pen where
  buffer : Vector Cell (g.rows * g.cols)
deriving DecidableEq

structure Session (g : Geometry) where
  screen : Screen g
  parser : Parser
deriving DecidableEq

variable {g : Geometry}

def Pen.InGrid (g : Geometry) (pen : Pen) : Prop :=
  (0 ≤ pen.cursorRow ∧ pen.cursorRow < g.rows) ∧ (0 ≤ pen.cursorCol ∧ pen.cursorCol < g.cols)

instance (g : Geometry) (pen : Pen) : Decidable (pen.InGrid g) := by unfold Pen.InGrid; exact inferInstance

/-- A blank in the current colours, as scrolling and erasing leave it. -/
def Pen.blank (pen : Pen) : Cell := ⟨32, pen.currentAttrs.fgColor, pen.currentAttrs.bgColor, 0⟩

/-- A character in the current colours and attributes. -/
def Pen.glyph (pen : Pen) (ch : UInt8) : Cell :=
  ⟨ch, pen.currentAttrs.fgColor, pen.currentAttrs.bgColor, pen.currentAttrs.attrs⟩

def Screen.cell (s : Screen g) (r : Fin g.rows) (c : Fin g.cols) : Cell := RowMajor.cell s.buffer r c

/-- `sess->buffer[i]`; outside the buffer the value stands for whatever is there. -/
def Screen.read (s : Screen g) (i : Int) : Cell := if 0 ≤ i then s.buffer.getD i.toNat default else default

/-- **A screen is its cells and its pen.** -/
theorem Screen.ext_cell {s t : Screen g} (hpen : s.toPen = t.toPen) (hcell : ∀ r c, s.cell r c = t.cell r c) :
    s = t := by
  obtain ⟨p, b⟩ := s
  obtain ⟨p', b'⟩ := t
  obtain rfl : p = p' := hpen
  obtain rfl : b = b' := RowMajor.ext_cell hcell
  rfl

/-! ## Sizes -/

/-- The `int` index of a cell, as every function of the library computes it. -/
def cellIndex (cols row col : Int) : Int := wrap32 (wrap32 (row * cols) + col)

/-- The number of cells `terminal_init` allocates: `(size_t)(rows * cols)`, the product taken in `int`. -/
def bufferSize (rows cols : Int) : Nat := (wrap32 (rows * cols) % 18446744073709551616).toNat

theorem Geometry.rows_le (g : Geometry) : (g.rows : Int) ≤ intMax := by
  have := g.fits
  have := Nat.mul_le_mul_left g.rows g.cols_pos
  omega

theorem Geometry.cols_le (g : Geometry) : (g.cols : Int) ≤ intMax := by
  have := g.fits
  have := Nat.mul_le_mul_right g.cols g.rows_pos
  omega

theorem cellIndex_of_inGrid (g : Geometry) {row col : Int} (r : Fin g.rows) (c : Fin g.cols) (hr : row = (r.val : Int))
    (hc : col = (c.val : Int)) : cellIndex g.cols row col = ((r.val * g.cols + c.val : Nat) : Int) := by
  subst hr hc
  have hlt := RowMajor.flat_lt r.isLt c.isLt
  have hfits := g.fits
  unfold cellIndex
  rw [CInt.wrap32_add_left, CInt.wrap32_of_fits, Int.natCast_add, Int.natCast_mul]
  rw [CInt.fits_iff, ← Int.natCast_mul, ← Int.natCast_add]
  unfold intMax at hfits
  omega

theorem cellIndex_inRange {row col : Int} (hr : 0 ≤ row ∧ row < g.rows) (hc : 0 ≤ col ∧ col < g.cols) :
    0 ≤ cellIndex g.cols row col ∧ cellIndex g.cols row col < ((g.rows * g.cols : Nat) : Int) := by
  obtain ⟨r, rfl⟩ := CInt.exists_fin hr.1 hr.2
  obtain ⟨c, rfl⟩ := CInt.exists_fin hc.1 hc.2
  rw [cellIndex_of_inGrid g r c rfl rfl]
  exact ⟨Int.natCast_nonneg _, Int.ofNat_lt.2 (RowMajor.flat_lt r.isLt c.isLt)⟩

theorem Screen.read_flat (s : Screen g) (r : Fin g.rows) (c : Fin g.cols) :
    s.read ((r.val * g.cols + c.val : Nat) : Int) = s.cell r c := by
  unfold Screen.read Screen.cell
  rw [if_pos (Int.natCast_nonneg _), Int.toNat_natCast, RowMajor.getD_of_lt _ _ _ (RowMajor.flat_lt r.isLt c.isLt)]
  rfl

/-- **The allocated buffer has `rows * cols` cells exactly when that product is an `int`.** -/
theorem bufferSize_eq_iff {rows cols : Nat} (hr : (rows : Int) ≤ intMax) (hc : (cols : Int) ≤ intMax) :
    bufferSize rows cols = rows * cols ↔ ((rows * cols : Nat) : Int) ≤ intMax := by
  have hprod : rows * cols ≤ 2147483647 * 2147483647 := by
    unfold intMax at hr hc
    exact Nat.mul_le_mul (by omega) (by omega)
  unfold bufferSize wrap32 intMax
  rw [← Int.natCast_mul]
  generalize rows * cols = n at hprod ⊢
  omega

theorem Pen.InGrid.exists_fin {pen : Pen} (h : pen.InGrid g) :
    ∃ (r : Fin g.rows) (c : Fin g.cols), pen.cursorRow = (r.val : Int) ∧ pen.cursorCol = (c.val : Int) := by
  obtain ⟨⟨h1, h2⟩, h3, h4⟩ := h
  obtain ⟨r, hr⟩ := CInt.exists_fin h1 h2
  obtain ⟨c, hc⟩ := CInt.exists_fin h3 h4
  exact ⟨r, c, hr, hc⟩

end Ptywrap
