import Ptywrap.Terminal
/-!
# Parser — the CSI commands of `parser.c`

`execute_sgr`, `execute_cursor_move`, `execute_cursor_position`, `execute_erase_display`, `execute_erase_line` and
their dispatch `parser_execute_csi`.  The first three act on the pen alone and have its type.  Command letters are
their ASCII codes.
-/
namespace Ptywrap

open CInt (wrap32 intMax Fits)
open RowMajor (store storeAll intRange)

variable {g : Geometry}

/-- `sess->csi_param_count > i ? sess->csi_params[i] : dflt`. -/
def CsiArgs.arg (p : CsiArgs) (i : Nat) (dflt : Int) : Int := if i < p.csiParamCount then p.param i else dflt

/-! ## SGR -/

def sgrReset (a : Cell) : Cell := { a with fgColor := 7, bgColor := 0, attrs := 0 }

/-- `38;5;n` or `48;5;n` starts at index `i`. -/
def indexedColour (p : CsiArgs) (i : Nat) : Bool := decide (i + 2 < p.csiParamCount) && decide (p.param (i + 1) = 5)

def sgrStep (p : CsiArgs) (i : Nat) (a : Cell) : Cell :=
  let param := p.param i
  if param = 0 then sgrReset a
  else if param = 1 then { a with attrs := a.attrs ||| attrBold }
  else if param = 4 then { a with attrs := a.attrs ||| attrUnderline }
  else if param = 5 then { a with attrs := a.attrs ||| attrBlink }
  else if param = 7 then { a with attrs := a.attrs ||| attrReverse }
  else if param = 22 then { a with attrs := a.attrs &&& ~~~attrBold }
  else if param = 24 then { a with attrs := a.attrs &&& ~~~attrUnderline }
  else if param = 25 then { a with attrs := a.attrs &&& ~~~attrBlink }
  else if param = 27 then { a with attrs := a.attrs &&& ~~~attrReverse }
  else if 30 ≤ param ∧ param ≤ 37 then { a with fgColor := UInt8.ofInt (param - 30) }
  else if param = 38 ∧ indexedColour p i then { a with fgColor := UInt8.ofInt (p.param (i + 2)) }
  else if param = 39 then { a with fgColor := 7 }
  else if 40 ≤ param ∧ param ≤ 47 then { a with bgColor := UInt8.ofInt (param - 40) }
  else if param = 48 ∧ indexedColour p i then { a with bgColor := UInt8.ofInt (p.param (i + 2)) }
  else if param = 49 then { a with bgColor := 0 }
  else a

/-- The index after the body and the loop's `i++`: an indexed colour also moves it past its two operands. -/
def sgrNext (p : CsiArgs) (i : Nat) : Nat :=
  if (p.param i = 38 ∨ p.param i = 48) ∧ indexedColour p i then i + 2 + 1 else i + 1

/-- `execute_sgr`'s loop from index `i`.  Every round moves the index forward (`lt_sgrNext`), so `csi_param_count` rounds
are enough. -/
def sgrLoop (p : CsiArgs) : Nat → Nat → Cell → Cell
  | 0, _, a => a
  | fuel + 1, i, a => if i < p.csiParamCount then sgrLoop p fuel (sgrNext p i) (sgrStep p i a) else a

def executeSgr (p : CsiArgs) (a : Cell) : Cell :=
  if p.csiParamCount = 0 then sgrReset a else sgrLoop p p.csiParamCount 0 a

/-! ## Cursor -/

/-- The distance of a relative move: absent and `0` are `1`. -/
def moveCount (p : CsiArgs) : Int := if p.arg 0 1 = 0 then 1 else p.arg 0 1

/-- `execute_cursor_move`: each direction is clamped on the side it moves to. -/
def executeCursorMove (g : Geometry) (p : CsiArgs) (cmd : UInt8) (pen : Pen) : Pen :=
  let n := moveCount p
  if cmd = 65 then -- 'A'
    let row := wrap32 (pen.cursorRow - n)
    { pen with cursorRow := if row < 0 then 0 else row }
  else if cmd = 66 then -- 'B'
    let row := wrap32 (pen.cursorRow + n)
    { pen with cursorRow := if (g.rows : Int) ≤ row then (g.rows : Int) - 1 else row }
  else if cmd = 67 then -- 'C'
    let col := wrap32 (pen.cursorCol + n)
    { pen with cursorCol := if (g.cols : Int) ≤ col then (g.cols : Int) - 1 else col }
  else if cmd = 68 then -- 'D'
    let col := wrap32 (pen.cursorCol - n)
    { pen with cursorCol := if col < 0 then 0 else col }
  else pen

/-- One coordinate of `execute_cursor_position`: 1-based, clamped to `0..size-1`. -/
def clampPosition (size : Nat) (x : Int) : Int :=
  let x := wrap32 (x - 1)
  let x := if x < 0 then 0 else x
  if (size : Int) ≤ x then (size : Int) - 1 else x

def executeCursorPosition (g : Geometry) (p : CsiArgs) (pen : Pen) : Pen :=
  { pen with cursorRow := clampPosition g.rows (p.arg 0 1), cursorCol := clampPosition g.cols (p.arg 1 1) }

/-! ## Erasing -/

def eraseDisplayIndices (g : Geometry) (p : CsiArgs) : List Int :=
  if p.arg 0 0 = 2 then intRange 0 ((g.rows * g.cols : Nat) : Int) else []

/-- `execute_erase_display`: only `2` is implemented. -/
def executeEraseDisplay (p : CsiArgs) (s : Screen g) : Screen g :=
  if p.arg 0 0 = 2 then
    { s with buffer := storeAll s.buffer (eraseDisplayIndices g p) s.blank, cursorRow := 0, cursorCol := 0 }
  else s

/-- The columns `execute_erase_line` goes through: from the cursor, up to it, or all.  The loop up to it ends in every
column but `INT_MAX` (`eraseUpTo_eq`), where this list is not what the code does: see `ends_of_inside`. -/
def eraseLineCols (g : Geometry) (p : CsiArgs) (pen : Pen) : List Int :=
  if p.arg 0 0 = 0 then intRange pen.cursorCol g.cols
  else if p.arg 0 0 = 1 then intRange 0 (pen.cursorCol + 1)
  else if p.arg 0 0 = 2 then intRange 0 g.cols
  else []

/-- `for (int i = 0; i <= cursor_col; i++)` from some `i` on: the columns, if it ends within so many tests. -/
def eraseUpTo (cursorCol : Int) : Nat → Int → Option (List Int)
  | 0, _ => none
  | tests + 1, i =>
    if i ≤ cursorCol then (eraseUpTo cursorCol tests (wrap32 (i + 1))).map (i :: ·) else some []

def eraseLineIndices (g : Geometry) (p : CsiArgs) (pen : Pen) : List Int :=
  (eraseLineCols g p pen).map (cellIndex g.cols pen.cursorRow)

def executeEraseLine (p : CsiArgs) (s : Screen g) : Screen g :=
  { s with buffer := storeAll s.buffer (eraseLineIndices g p s.toPen) s.blank }

/-! ## Dispatch -/

def parserExecuteCsi (p : CsiArgs) (cmd : UInt8) (s : Screen g) : Screen g :=
  if cmd = 109 then { s with currentAttrs := executeSgr p s.currentAttrs } -- 'm'
  else if cmd = 65 ∨ cmd = 66 ∨ cmd = 67 ∨ cmd = 68 then { s with toPen := executeCursorMove g p cmd s.toPen }
  else if cmd = 72 ∨ cmd = 102 then { s with toPen := executeCursorPosition g p s.toPen } -- 'H', 'f'
  else if cmd = 74 then executeEraseDisplay p s -- 'J'
  else if cmd = 75 then executeEraseLine p s -- 'K'
  else s

def csiTouched (g : Geometry) (p : CsiArgs) (cmd : UInt8) (pen : Pen) : List Int :=
  if cmd = 74 then eraseDisplayIndices g p else if cmd = 75 then eraseLineIndices g p pen else []

/-! ## Lemmas -/

theorem lt_sgrNext (p : CsiArgs) (i : Nat) : i < sgrNext p i := by
  unfold sgrNext
  split <;> omega

theorem currentAttrs_executeCursorMove (p : CsiArgs) (cmd : UInt8) (pen : Pen) :
    (executeCursorMove g p cmd pen).currentAttrs = pen.currentAttrs := by
  unfold executeCursorMove
  dsimp only
  split
  · rfl
  split
  · rfl
  split
  · rfl
  split <;> rfl

theorem clampPosition_of_le {size : Nat} {x : Int} (hs : (size : Int) ≤ intMax) (h1 : 1 ≤ x) (h2 : x ≤ size) :
    clampPosition size x = x - 1 := by
  unfold clampPosition
  simp only
  rw [CInt.wrap32_of_fits (by rw [CInt.fits_iff]; unfold intMax at hs; omega), if_neg (by omega), if_neg (by omega)]

theorem clampPosition_inGrid {size : Nat} (hpos : 0 < size) (x : Int) :
    0 ≤ clampPosition size x ∧ clampPosition size x < size := by
  unfold clampPosition
  simp only
  split <;> split <;> omega

/-- **Erasing the display blanks every cell.** -/
theorem cell_executeEraseDisplay (p : CsiArgs) (s : Screen g) (r : Fin g.rows) (c : Fin g.cols) :
    (executeEraseDisplay p s).cell r c = if p.arg 0 0 = 2 then s.blank else s.cell r c := by
  unfold executeEraseDisplay Screen.cell eraseDisplayIndices
  have hlt := RowMajor.flat_lt r.isLt c.isLt
  by_cases h : p.arg 0 0 = 2
  · simp only [if_pos h]
    rw [RowMajor.cell_eq _ r c hlt, RowMajor.getElem_storeAll_intRange, if_pos (by omega)]
  · simp only [if_neg h]

/-- **The loop up to the cursor ends short of column `INT_MAX`.** -/
theorem eraseUpTo_eq {cursorCol : Int} (h : cursorCol < intMax) : ∀ (tests : Nat) (i : Int), 0 ≤ i →
    cursorCol + 1 - i ≤ tests → eraseUpTo cursorCol (tests + 1) i = some (intRange i (cursorCol + 1))
  | 0, i, _, hle => by
    have hend : intRange i (cursorCol + 1) = [] := RowMajor.intRange_of_le (by omega)
    unfold eraseUpTo
    rw [if_neg (by omega), hend]
  | tests + 1, i, hi, hle => by
    unfold eraseUpTo
    by_cases hcol : i ≤ cursorCol
    · have hsucc : wrap32 (i + 1) = i + 1 := by
        apply CInt.wrap32_of_fits
        rw [CInt.fits_iff]
        unfold intMax at h
        omega
      have hrest := eraseUpTo_eq h tests (i + 1) (by omega) (by omega)
      have hcons : intRange i (cursorCol + 1) = i :: intRange (i + 1) (cursorCol + 1) :=
        RowMajor.intRange_of_lt (Int.lt_add_one_of_le hcol)
      rw [if_pos hcol, hsucc, hrest, hcons]
      rfl
    · rw [if_neg hcol, RowMajor.intRange_of_le (by omega)]

/-- **In column `INT_MAX` it does not end**: no `int` is greater. -/
theorem eraseUpTo_intMax : ∀ (tests : Nat) (i : Int), Fits i → eraseUpTo intMax tests i = none
  | 0, _, _ => rfl
  | tests + 1, i, hi => by
    unfold eraseUpTo
    rw [if_pos hi.2, eraseUpTo_intMax tests _ (CInt.fits_wrap32 _)]
    rfl

theorem eraseLineCols_inRange (p : CsiArgs) {pen : Pen} (h : pen.InGrid g) {i : Int} (hi : i ∈ eraseLineCols g p pen) :
    0 ≤ i ∧ i < g.cols := by
  obtain ⟨-, hcol⟩ := h
  unfold eraseLineCols at hi
  split at hi
  · rw [RowMajor.mem_intRange] at hi; omega
  split at hi
  · rw [RowMajor.mem_intRange] at hi; omega
  split at hi
  · rw [RowMajor.mem_intRange] at hi; omega
  · cases hi

/-- **Erasing in the line blanks the columns it goes through, in the cursor's row.** -/
theorem cell_executeEraseLine (p : CsiArgs) (s : Screen g) (h : s.InGrid g) (r : Fin g.rows) (c : Fin g.cols) :
    (executeEraseLine p s).cell r c =
      if s.cursorRow = (r.val : Int) ∧ ((c.val : Nat) : Int) ∈ eraseLineCols g p s.toPen then s.blank
      else s.cell r c := by
  have hlt := RowMajor.flat_lt r.isLt c.isLt
  have hmem : ((r.val * g.cols + c.val : Nat) : Int) ∈ eraseLineIndices g p s.toPen ↔
      s.cursorRow = (r.val : Int) ∧ ((c.val : Nat) : Int) ∈ eraseLineCols g p s.toPen := by
    unfold eraseLineIndices
    rw [List.mem_map]
    constructor
    · rintro ⟨i, hi, hidx⟩
      have hir := eraseLineCols_inRange p h hi
      obtain ⟨hrow, -⟩ := h
      have hflat := cellIndex_of_inGrid g ⟨s.cursorRow.toNat, by omega⟩ ⟨i.toNat, by omega⟩
        (show s.cursorRow = _ by simp only; omega) (show i = _ by simp only; omega)
      rw [hidx, Int.ofNat_inj, RowMajor.flat_inj c.isLt (by simp only; omega)] at hflat
      simp only at hflat
      refine ⟨by omega, ?_⟩
      rwa [show ((c.val : Nat) : Int) = i by omega]
    · rintro ⟨hrow, hcol⟩
      exact ⟨c.val, hcol, cellIndex_of_inGrid g r c hrow rfl⟩
  unfold executeEraseLine Screen.cell
  rw [RowMajor.cell_eq _ r c hlt, RowMajor.getElem_storeAll]
  simp only [hmem]
  rfl

/-- **What a command can do.** -/
theorem parserExecuteCsi_cases {motive : Screen g → Prop} (p : CsiArgs) (cmd : UInt8) (s : Screen g)
    (sgr : cmd = 109 → motive { s with currentAttrs := executeSgr p s.currentAttrs })
    (move : cmd = 65 ∨ cmd = 66 ∨ cmd = 67 ∨ cmd = 68 → motive { s with toPen := executeCursorMove g p cmd s.toPen })
    (position : cmd = 72 ∨ cmd = 102 → motive { s with toPen := executeCursorPosition g p s.toPen })
    (display : cmd = 74 → motive (executeEraseDisplay p s))
    (line : cmd = 75 → motive (executeEraseLine p s))
    (other : cmd ∉ [109, 65, 66, 67, 68, 72, 102, 74, 75] → motive s) : motive (parserExecuteCsi p cmd s) := by
  unfold parserExecuteCsi
  by_cases hsgr : cmd = 109
  · rw [if_pos hsgr]
    exact sgr hsgr
  rw [if_neg hsgr]
  by_cases hmove : cmd = 65 ∨ cmd = 66 ∨ cmd = 67 ∨ cmd = 68
  · rw [if_pos hmove]
    exact move hmove
  rw [if_neg hmove]
  by_cases hposition : cmd = 72 ∨ cmd = 102
  · rw [if_pos hposition]
    exact position hposition
  rw [if_neg hposition]
  by_cases hdisplay : cmd = 74
  · rw [if_pos hdisplay]
    exact display hdisplay
  rw [if_neg hdisplay]
  by_cases hline : cmd = 75
  · rw [if_pos hline]
    exact line hline
  rw [if_neg hline]
  refine other ?_
  simp only [not_or] at hmove hposition
  simp [hsgr, hmove, hposition, hdisplay, hline]

theorem parserExecuteCsi_of_unsupported (p : CsiArgs) (cmd : UInt8) (s : Screen g)
    (h : cmd ∉ [109, 65, 66, 67, 68, 72, 102, 74, 75]) : parserExecuteCsi p cmd s = s := by
  simp only [List.mem_cons, List.not_mem_nil, or_false, not_or] at h
  obtain ⟨h1, h2, h3, h4, h5, h6, h7, h8, h9⟩ := h
  unfold parserExecuteCsi
  rw [if_neg h1, if_neg (by simp [h2, h3, h4, h5]), if_neg (by simp [h6, h7]), if_neg h8, if_neg h9]

end Ptywrap
