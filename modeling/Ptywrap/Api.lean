import Mathlib.Data.List.GetD
import Ptywrap.Session
/-!
# Api — reading the buffer (`api.c`)

`ptywrap_get_size`, `ptywrap_get_cell`, `ptywrap_get_row`, `ptywrap_get_cursor` and `ptywrap_get_row_text`.  A null
pointer is `none`; an output buffer is the memory it points to, and is returned as the call leaves it.
-/
namespace Ptywrap

open CInt (wrap32 intMax Fits)

variable {g : Geometry}

def ptywrapGetSize (session : Option (Session g)) (rows cols : Option Int) : Int × Option Int × Option Int :=
  match session, rows, cols with
  | some _, some _, some _ => (ptywrapOk, some (g.rows : Int), some (g.cols : Int))
  | _, rows, cols => (ptywrapErrInval, rows, cols)

def ptywrapGetCursor (session : Option (Session g)) (row col : Option Int) : Int × Option Int × Option Int :=
  match session, row, col with
  | some sess, some _, some _ => (ptywrapOk, some sess.screen.cursorRow, some sess.screen.cursorCol)
  | _, row, col => (ptywrapErrInval, row, col)

def ptywrapGetCell (session : Option (Session g)) (row col : Int) (cell : Option Cell) : Int × Option Cell :=
  match session, cell with
  | some sess, some cell =>
    if row < 0 ∨ (g.rows : Int) ≤ row ∨ col < 0 ∨ (g.cols : Int) ≤ col then (ptywrapErrInval, some cell)
    else (ptywrapOk, some (sess.screen.read (cellIndex g.cols row col)))
  | _, cell => (ptywrapErrInval, cell)

/-- The `memcpy` takes `cols` cells from buffer index `startIdx` on. -/
def ptywrapGetRow (session : Option (Session g)) (row : Int) (cells : Option (List Cell)) : Int × Option (List Cell) :=
  match session, cells with
  | some sess, some cells =>
    if row < 0 ∨ (g.rows : Int) ≤ row then (ptywrapErrInval, some cells)
    else
      let startIdx := wrap32 (row * g.cols)
      (ptywrapOk, some ((List.range g.cols).map (fun i : Nat => sess.screen.read (startIdx + (i : Int))) ++
        cells.drop g.cols))
  | _, cells => (ptywrapErrInval, cells)

/-- The copying loop of `ptywrap_get_row_text`: `n` characters from buffer index `startIdx` on. -/
def copyChars (s : Screen g) (startIdx : Int) (n : Nat) (buf : List UInt8) : List UInt8 :=
  (List.range n).foldl (fun buf i => buf.set i (s.read (startIdx + (i : Int))).ch) buf

def ptywrapGetRowText (session : Option (Session g)) (row : Int) (buf : Option (List UInt8)) (buflen : Nat) :
    Int × Option (List UInt8) :=
  match session, buf with
  | some sess, some buf =>
    if buflen = 0 then (ptywrapErrInval, some buf)
    else if row < 0 ∨ (g.rows : Int) ≤ row then (ptywrapErrInval, some buf)
    else
      let charsToCopy := if buflen ≤ g.cols then buflen - 1 else g.cols
      let buf := copyChars sess.screen (wrap32 (row * g.cols)) charsToCopy buf
      (wrap32 charsToCopy, some (buf.set charsToCopy 0))
  | _, buf => (ptywrapErrInval, buf)

/-! ## What they return -/

/-- **A cell of the screen is returned as it is.** -/
theorem getCell_inGrid (s : Session g) (r : Fin g.rows) (c : Fin g.cols) (cell : Cell) :
    ptywrapGetCell (some s) r.val c.val (some cell) = (ptywrapOk, some (s.screen.cell r c)) := by
  have hr := r.isLt
  have hc := c.isLt
  unfold ptywrapGetCell
  dsimp only
  rw [if_neg (by omega), cellIndex_of_inGrid g r c rfl rfl, Screen.read_flat]

theorem foldl_set_range {α : Type} (f : Nat → α) (buf : List α) : ∀ n ≤ buf.length,
    (List.range n).foldl (fun b i => b.set i (f i)) buf = (List.range n).map f ++ buf.drop n
  | 0, _ => rfl
  | n + 1, h => by
    rw [List.range_succ, List.foldl_append, foldl_set_range f buf n (by omega), List.map_append, List.foldl_cons,
      List.foldl_nil, List.set_append_right _ _ (by simp), List.length_map, List.length_range, Nat.sub_self,
      List.drop_eq_getElem_cons (show n < buf.length by omega), List.set_cons_zero, List.append_assoc]
    rfl

theorem wrap32_of_le_cols (g : Geometry) {n : Nat} (h : n ≤ g.cols) : wrap32 (n : Int) = n := by
  have := g.cols_le
  refine CInt.wrap32_of_fits ?_
  rw [CInt.fits_iff]
  unfold intMax at this
  omega

theorem wrap32_rowStart (g : Geometry) (r : Fin g.rows) :
    wrap32 ((r.val : Int) * g.cols) = ((r.val * g.cols : Nat) : Int) := by
  have hlt := RowMajor.flat_lt r.isLt (show 0 < g.cols from g.cols_pos)
  have hfits := g.fits
  rw [← Int.natCast_mul]
  generalize r.val * g.cols = k at *
  refine CInt.wrap32_of_fits ?_
  rw [CInt.fits_iff]
  unfold intMax at hfits
  omega

theorem read_row (s : Screen g) (r : Fin g.rows) (n : Nat) (hn : n ≤ g.cols) :
    (List.range n).map (fun i : Nat => s.read (((r.val * g.cols : Nat) : Int) + (i : Int))) =
      (List.ofFn (s.cell r)).take n := by
  apply List.ext_getElem
  · simp only [List.length_map, List.length_range, List.length_take, List.length_ofFn]
    omega
  · intro i h1 h2
    rw [List.length_map, List.length_range] at h1
    rw [List.getElem_map, List.getElem_range, List.getElem_take, List.getElem_ofFn, ← Int.natCast_add]
    exact s.read_flat r ⟨i, by omega⟩

theorem map_read_row (s : Screen g) (r : Fin g.rows) (n : Nat) (hn : n ≤ g.cols) :
    (List.range n).map (fun i : Nat => (s.read (((r.val * g.cols : Nat) : Int) + (i : Int))).ch) =
      (List.ofFn fun c => (s.cell r c).ch).take n := by
  have h := congrArg (List.map Cell.ch) (read_row s r n hn)
  rw [List.map_map, List.map_take, List.map_ofFn] at h
  exact h

/-- **The calls accept the rows and columns of the size that `ptywrap_get_size` reports, and no others.** -/
theorem accepted_iff_size (s : Session g) {rows cols rows' cols' : Int}
    (hsize : ptywrapGetSize (some s) (some rows) (some cols) = (ptywrapOk, some rows', some cols')) (row col : Int) :
    (∀ cell, (ptywrapGetCell (some s) row col (some cell)).1 = ptywrapOk ↔
      (0 ≤ row ∧ row < rows') ∧ 0 ≤ col ∧ col < cols') ∧
    (∀ cells, (ptywrapGetRow (some s) row (some cells)).1 = ptywrapOk ↔ 0 ≤ row ∧ row < rows') ∧
    ∀ buf buflen, buflen ≠ 0 →
      (0 ≤ (ptywrapGetRowText (some s) row (some buf) buflen).1 ↔ 0 ≤ row ∧ row < rows') := by
  obtain ⟨rfl, rfl⟩ : (g.rows : Int) = rows' ∧ (g.cols : Int) = cols' := by
    simpa [ptywrapGetSize] using hsize
  have herr : ptywrapErrInval ≠ ptywrapOk := by decide
  have hneg : ¬ 0 ≤ ptywrapErrInval := by decide
  refine ⟨fun cell => ?_, fun cells => ?_, fun buf buflen hbuflen => ?_⟩
  · unfold ptywrapGetCell
    dsimp only
    split
    · exact iff_of_false herr (by omega)
    · exact iff_of_true rfl (by omega)
  · unfold ptywrapGetRow
    dsimp only
    split
    · exact iff_of_false herr (by omega)
    · exact iff_of_true rfl (by omega)
  · unfold ptywrapGetRowText
    dsimp only
    rw [if_neg hbuflen]
    split
    · exact iff_of_false hneg (by omega)
    · refine iff_of_true ?_ (by omega)
      dsimp only
      rw [wrap32_of_le_cols g (by split <;> omega)]
      exact Int.natCast_nonneg _

/-- **The cells of a row are returned as they are.** -/
theorem getRow_inGrid (s : Session g) (r : Fin g.rows) (cells : List Cell) :
    ptywrapGetRow (some s) r.val (some cells) =
      (ptywrapOk, some (List.ofFn (s.screen.cell r) ++ cells.drop g.cols)) := by
  have hr := r.isLt
  unfold ptywrapGetRow
  dsimp only
  rw [if_neg (by omega), wrap32_rowStart, read_row s.screen r g.cols (Nat.le_refl _), List.take_of_length_le (by simp)]

/-- **The text of a row**: the characters of its first cells, a NUL, and the rest of the memory as it was. -/
theorem getRowText_inGrid (s : Session g) (r : Fin g.rows) (buf : List UInt8) (buflen : Nat) (hpos : 0 < buflen)
    (hbuf : buflen ≤ buf.length) :
    ptywrapGetRowText (some s) r.val (some buf) buflen =
      (((min g.cols (buflen - 1) : Nat) : Int),
        some ((List.ofFn fun c => (s.screen.cell r c).ch).take (min g.cols (buflen - 1)) ++
          0 :: buf.drop (min g.cols (buflen - 1) + 1))) := by
  have hr := r.isLt
  have hcopy : (if buflen ≤ g.cols then buflen - 1 else g.cols) = min g.cols (buflen - 1) := by
    split <;> omega
  have hn : min g.cols (buflen - 1) ≤ g.cols := Nat.min_le_left _ _
  have hn' : min g.cols (buflen - 1) < buf.length := by omega
  unfold ptywrapGetRowText copyChars
  dsimp only
  rw [if_neg (by omega), if_neg (by omega), hcopy]
  generalize min g.cols (buflen - 1) = n at hn hn' ⊢
  have hlen : ((List.ofFn fun c => (s.screen.cell r c).ch).take n).length = n := by
    rw [List.length_take, List.length_ofFn, Nat.min_eq_left hn]
  rw [wrap32_rowStart, foldl_set_range _ _ _ (Nat.le_of_lt hn'), map_read_row s.screen r n hn, wrap32_of_le_cols g hn,
    List.set_append_right _ _ (Nat.le_of_eq hlen), hlen, Nat.sub_self, List.drop_eq_getElem_cons hn',
    List.set_cons_zero]

theorem getRowText_whole (s : Session g) (r : Fin g.rows) (buf : List UInt8) (hbuf : buf.length = g.cols + 1) :
    ptywrapGetRowText (some s) r.val (some buf) (g.cols + 1) =
      ((g.cols : Int), some ((List.ofFn fun c => (s.screen.cell r c).ch) ++ [0])) := by
  rw [getRowText_inGrid s r buf (g.cols + 1) (by omega) (by omega), Nat.add_sub_cancel, Nat.min_self,
    List.take_of_length_le (by simp), List.drop_of_length_le (by omega)]

/-- **A row reads back as `text` exactly when its cells hold the characters of it.** -/
theorem getRowText_eq_iff (s : Session g) (r : Fin g.rows) (buf : List UInt8) (hbuf : buf.length = g.cols + 1)
    (text : List UInt8) (hlen : text.length = g.cols) :
    ptywrapGetRowText (some s) r.val (some buf) (g.cols + 1) = ((g.cols : Int), some (text ++ [0])) ↔
      ∀ c : Fin g.cols, (s.screen.cell r c).ch = text.getD c.val 32 := by
  rw [getRowText_whole s r buf hbuf]
  simp only [Prod.mk.injEq, true_and, Option.some.injEq, List.append_cancel_right_eq]
  constructor
  · intro h c
    rw [← h, List.getD_eq_getElem _ _ (by simp), List.getElem_ofFn]
  · intro h
    apply List.ext_getElem (by rw [List.length_ofFn, hlen])
    intro c h1 h2
    rw [List.length_ofFn] at h1
    rw [List.getElem_ofFn, h ⟨c, h1⟩, List.getD_eq_getElem _ _ h2]

end Ptywrap
