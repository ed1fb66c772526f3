import Mathlib.Data.List.GetD
import Ptywrap.Encode
/-!
# Page — text printed line after line on a blank screen

`Page s done cur` says what the screen shows after the lines `done` were ended and `cur` was begun: the last rows of
`done ++ [cur]`, each padded with blanks, the window ending one row below `done`.  A character goes on `cur` or ends it
(`page_putChar`), a line end ends it (`page_newline`), so a line of full width is ended by its last character
(`page_line`).
-/
namespace Ptywrap

open RowMajor (store)

variable {g : Geometry}

/-- The line that row `r` of the screen shows. -/
def pageRow (g : Geometry) (done : List (List UInt8)) (cur : List UInt8) (r : Nat) : List UInt8 :=
  (done ++ [cur]).getD (done.length - (g.rows - 1) + r) []

def pageCursor (g : Geometry) (done : List (List UInt8)) : Nat := min done.length (g.rows - 1)

/-- The screen shows these lines, with the cursor somewhere in the row of the last one. -/
structure PageRows (s : Screen g) (done : List (List UInt8)) (cur : List UInt8) : Prop where
  row : s.cursorRow = (pageCursor g done : Int)
  chars : ∀ r c, (s.cell r c).ch = (pageRow g done cur r.val).getD c.val 32

/-- ... and the cursor at the end of it. -/
structure Page (s : Screen g) (done : List (List UInt8)) (cur : List UInt8) : Prop extends PageRows s done cur where
  col : s.cursorCol = (cur.length : Int)
  room : cur.length < g.cols

theorem pageCursor_lt (g : Geometry) (done : List (List UInt8)) : pageCursor g done < g.rows := by
  have := g.rows_pos
  unfold pageCursor
  omega

theorem getD_snoc {α : Type} (l : List α) (a d : α) (i : Nat) :
    (l ++ [a]).getD i d = if i = l.length then a else l.getD i d := by
  rcases Nat.lt_trichotomy i l.length with h | h | h
  · rw [if_neg (by omega), List.getD_append _ _ _ _ h]
  · rw [if_pos h, List.getD_append_right _ _ _ _ (by omega), h, Nat.sub_self]
    rfl
  · rw [if_neg (by omega), List.getD_eq_default _ _ (by simp; omega), List.getD_eq_default _ _ (by omega)]

/-- A blank screen with the cursor at home is an empty page. -/
theorem page_of_blank (s : Screen g) (hrow : s.cursorRow = 0) (hcol : s.cursorCol = 0)
    (hblank : ∀ r c, (s.cell r c).ch = 32) : Page s [] [] := by
  refine ⟨⟨hrow, fun r c => ?_⟩, hcol, g.cols_pos⟩
  have hempty : pageRow g [] [] r.val = [] := by
    unfold pageRow
    rw [getD_snoc]
    split <;> rfl
  rw [hblank, hempty]
  rfl

/-- The last line begun stands in the cursor's row, and the others do not move when it grows. -/
theorem pageRow_eq (done : List (List UInt8)) (cur cur' : List UInt8) (r : Fin g.rows) :
    pageRow g done cur' r.val = if r.val = pageCursor g done then cur' else pageRow g done cur r.val := by
  have hr := r.isLt
  unfold pageRow pageCursor
  rw [getD_snoc, getD_snoc]
  by_cases h : r.val = min done.length (g.rows - 1)
  · rw [if_pos (by omega), if_pos h]
  · rw [if_neg (by omega), if_neg h, if_neg (by omega)]

/-- **A line end** begins the next line, in the next row or in the last one, moved up. -/
theorem page_newline {s : Screen g} {done : List (List UInt8)} {cur : List UInt8} (h : PageRows s done cur) :
    Page (terminalNewline s) (done ++ [cur]) [] := by
  have hrow := h.row
  have hcursor : pageCursor g (done ++ [cur]) = min (done.length + 1) (g.rows - 1) := by
    unfold pageCursor
    rw [List.length_append, List.length_singleton]
  have hpage : ∀ r, pageRow g (done ++ [cur]) [] r = (done ++ [cur]).getD (done.length + 1 - (g.rows - 1) + r) [] := by
    intro r
    unfold pageRow
    rw [getD_snoc, List.length_append, List.length_singleton]
    split
    · rename_i he
      rw [he, List.getD_eq_default _ _ (by simp)]
    · rfl
  have hlt := pageCursor_lt g done
  by_cases hlast : s.cursorRow + 1 < g.rows
  · rw [terminalNewline_of_lt s (by omega) hlast]
    unfold pageCursor at hrow
    refine ⟨⟨by rw [hcursor]; simp only; omega, fun r c => ?_⟩, rfl, g.cols_pos⟩
    rw [hpage, show done.length + 1 - (g.rows - 1) = done.length - (g.rows - 1) by omega]
    exact h.chars r c
  · rw [terminalNewline_of_last s (by omega)]
    unfold pageCursor at hrow
    refine ⟨⟨by rw [hcursor]; simp only; omega, fun r c => ?_⟩, rfl, g.cols_pos⟩
    rw [hpage]
    unfold Screen.cell
    rw [RowMajor.cell_scrollUp]
    by_cases hr : r.val + 1 < g.rows
    · rw [dif_pos hr, show done.length + 1 - (g.rows - 1) + r.val = done.length - (g.rows - 1) + (r.val + 1) by omega]
      exact h.chars ⟨r.val + 1, hr⟩ c
    · have hend : (done ++ [cur]).length ≤ done.length + 1 - (g.rows - 1) + r.val := by
        rw [List.length_append, List.length_singleton]
        omega
      rw [dif_neg hr, List.getD_eq_default _ _ hend]
      rfl

theorem PageRows.carriageReturn {s : Screen g} {done : List (List UInt8)} {cur : List UInt8} (h : PageRows s done cur) :
    PageRows { s with cursorCol := 0 } done cur :=
  ⟨h.row, h.chars⟩

/-- **One character more**: the line grows, and ends with the last column. -/
theorem page_putChar {s : Screen g} {done : List (List UInt8)} {cur : List UInt8} (h : Page s done cur) (ch : UInt8) :
    if cur.length + 1 < g.cols then Page (terminalPutChar s ch) done (cur ++ [ch])
    else Page (terminalPutChar s ch) (done ++ [cur ++ [ch]]) [] := by
  have hlt := pageCursor_lt g done
  have hroom := h.room
  have hstored : PageRows
      { s with
        buffer := store s.buffer ((pageCursor g done * g.cols + cur.length : Nat) : Int) (s.glyph ch)
        cursorCol := s.cursorCol + 1 } done (cur ++ [ch]) := by
    refine ⟨h.row, fun r c => ?_⟩
    unfold Screen.cell
    rw [pageRow_eq done cur,
      RowMajor.cell_store_flat s.buffer ⟨pageCursor g done, hlt⟩ ⟨cur.length, hroom⟩]
    have hold := h.chars r c
    rw [pageRow_eq done cur] at hold
    by_cases hr : r.val = pageCursor g done
    · rw [if_pos hr] at hold ⊢
      rw [getD_snoc]
      by_cases hc : c.val = cur.length
      · rw [if_pos ⟨Fin.ext hr, Fin.ext hc⟩, if_pos hc]
        rfl
      · rw [if_neg (fun e => hc (congrArg Fin.val e.2)), if_neg hc]
        exact hold
    · rw [if_neg hr] at hold ⊢
      rw [if_neg (fun e => hr (congrArg Fin.val e.1))]
      exact hold
  rw [terminalPutChar_of_inGrid s ch ⟨_, hlt⟩ ⟨_, hroom⟩ h.row h.col]
  dsimp only
  by_cases hwrap : cur.length + 1 < g.cols
  · rw [if_pos hwrap, if_pos hwrap]
    refine ⟨hstored, ?_, ?_⟩
    · rw [h.col, List.length_append, List.length_singleton]
      rfl
    · rwa [List.length_append, List.length_singleton]
  · rw [if_neg hwrap, if_neg hwrap]
    exact page_newline hstored

theorem page_text : ∀ (text : List UInt8) {s : Screen g} {done : List (List UInt8)} {cur : List UInt8},
    Page s done cur → cur.length + text.length < g.cols → Page (text.foldl terminalPutChar s) done (cur ++ text)
  | [], _, _, _, h, _ => by rwa [List.append_nil]
  | ch :: text, s, done, cur, h, hlen => by
    rw [List.length_cons] at hlen
    have hnext := page_putChar h ch
    rw [if_pos (by omega)] at hnext
    have := page_text text hnext (by rw [List.length_append, List.length_singleton]; omega)
    rwa [List.append_assoc] at this

/-- **A line that fits**: it is open at its end, or, if it has full width, already ended. -/
theorem page_line {s : Screen g} {done : List (List UInt8)} (h : Page s done []) (text : List UInt8)
    (hlen : text.length ≤ g.cols) :
    if text.length < g.cols then Page (text.foldl terminalPutChar s) done text
    else Page (text.foldl terminalPutChar s) (done ++ [text]) [] := by
  split
  · rename_i hlt
    exact page_text text h (by simpa using hlt)
  · rename_i hfull
    have hcols := g.cols_pos
    rcases List.eq_nil_or_concat text with rfl | ⟨init, ch, rfl⟩
    · exact absurd hcols hfull
    · rw [List.concat_eq_append] at hfull hlen ⊢
      rw [List.length_append, List.length_singleton] at hfull hlen
      have hinit := page_text init h (by simp; omega)
      have hlast := page_putChar hinit ch
      rw [List.nil_append, if_neg (by omega)] at hlast
      rw [List.foldl_append]
      exact hlast

end Ptywrap
