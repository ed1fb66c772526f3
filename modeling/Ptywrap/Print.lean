import Mathlib.Data.List.Induction
import Ptywrap.Process
/-!
# Print — the closed form of printing

Printing from row `r` and column `c` writes the characters along an endless tape of cells, from position
`r * cols + c` on; the screen is the window of the tape that ends with the row the cursor is in.  `printed_putChar` is
one character, `printed_run` any number of them.
-/
namespace Ptywrap

open RowMajor (store tape)

variable {g : Geometry}

/-- How many rows have left the screen when the cursor stands at position `p` of the tape. -/
def scrolls (g : Geometry) (p : Nat) : Nat := p / g.cols - (g.rows - 1)

/-- `s'` is `s` after `xs` was printed from tape position `q` on. -/
structure Printed (s : Screen g) (q : Nat) (xs : List Cell) (s' : Screen g) : Prop where
  attrs : s'.currentAttrs = s.currentAttrs
  row : s'.cursorRow = (((q + xs.length) / g.cols - scrolls g (q + xs.length) : Nat) : Int)
  col : s'.cursorCol = (((q + xs.length) % g.cols : Nat) : Int)
  cells : ∀ k (hk : k < g.rows * g.cols),
    s'.buffer[k] = tape s.buffer q xs s.blank (k + scrolls g (q + xs.length) * g.cols)

theorem blank_of_attrs {s s' : Screen g} (h : s'.currentAttrs = s.currentAttrs) : s'.blank = s.blank := by
  unfold Pen.blank; rw [h]

theorem glyph_of_attrs {s s' : Screen g} (h : s'.currentAttrs = s.currentAttrs) (ch : UInt8) :
    s'.glyph ch = s.glyph ch := by
  unfold Pen.glyph; rw [h]

theorem printed_nil (s : Screen g) (r : Fin g.rows) (c : Fin g.cols) (hr : s.cursorRow = (r.val : Int))
    (hc : s.cursorCol = (c.val : Int)) : Printed s (r.val * g.cols + c.val) [] s := by
  have hr' := r.isLt
  have hdiv : (r.val * g.cols + c.val) / g.cols = r.val := RowMajor.flat_div c.isLt
  have hmod : (r.val * g.cols + c.val) % g.cols = c.val := RowMajor.flat_mod c.isLt
  have hk : scrolls g (r.val * g.cols + c.val) = 0 := by unfold scrolls; omega
  refine ⟨rfl, ?_, ?_, fun k hlt => ?_⟩
  · rw [List.length_nil, Nat.add_zero, hdiv, hk, hr]; rfl
  · rw [List.length_nil, Nat.add_zero, hmod, hc]
  · rw [List.length_nil, Nat.add_zero, hk, Nat.zero_mul, Nat.add_zero, RowMajor.tape_nil, RowMajor.getD_of_lt _ k _ hlt]

/-- **One more character.**  The cursor's cell is position `q + xs.length` of the tape; the last column moves on to the
next row, and from the last row the window moves with it. -/
theorem printed_putChar {s s' : Screen g} {q : Nat} {xs : List Cell} (ch : UInt8) (h : Printed s q xs s') :
    Printed s q (xs ++ [s.glyph ch]) (terminalPutChar s' ch) := by
  obtain ⟨hattrs, hrow, hcol, hcells⟩ := h
  have hrpos := g.rows_pos
  have hcpos := g.cols_pos
  have hlen : q + (xs ++ [s.glyph ch]).length = q + xs.length + 1 := by
    rw [List.length_append, List.length_singleton, Nat.add_assoc]
  generalize hP : q + xs.length = P at hrow hcol hcells hlen
  -- position `P` is row `A` and column `C` of the tape, and row `A - K` of the screen
  have hsplit : P / g.cols * g.cols + P % g.cols = P := Nat.div_add_mod' P g.cols
  have hmod : P % g.cols < g.cols := Nat.mod_lt P hcpos
  have hK : scrolls g P = P / g.cols - (g.rows - 1) := rfl
  have hnext : scrolls g (P + 1) = (P + 1) / g.cols - (g.rows - 1) := rfl
  generalize P / g.cols = A at hrow hsplit hK
  generalize P % g.cols = C at hcol hsplit hmod
  generalize scrolls g P = K at hrow hcells hK
  have hrlt : A - K < g.rows := by omega
  have hback : (A - K) * g.cols + K * g.cols = A * g.cols := by
    rw [← Nat.add_mul]
    congr 1
    omega
  have hstore : ∀ k (hk : k < g.rows * g.cols),
      (store s'.buffer (((A - K) * g.cols + C : Nat) : Int) (s'.glyph ch))[k] =
        tape s.buffer q (xs ++ [s.glyph ch]) s.blank (k + K * g.cols) := by
    rw [glyph_of_attrs hattrs]
    exact RowMajor.window_store hcells (by omega) _
  rw [terminalPutChar_of_inGrid s' ch ⟨_, hrlt⟩ ⟨_, hmod⟩ hrow hcol]
  dsimp only
  by_cases hwrap : C + 1 < g.cols
  · have hsplit' : P + 1 = A * g.cols + (C + 1) := by omega
    have hdiv' : (P + 1) / g.cols = A := by rw [hsplit']; exact RowMajor.flat_div hwrap
    have hmod' : (P + 1) % g.cols = C + 1 := by rw [hsplit']; exact RowMajor.flat_mod hwrap
    rw [hdiv', ← hK] at hnext
    rw [if_pos hwrap]
    refine ⟨hattrs, ?_, ?_, ?_⟩
    · rw [hlen, hdiv', hnext]; exact hrow
    · rw [hlen, hmod']; simp only; omega
    · rw [hlen, hnext]; exact hstore
  · -- the last column
    have hend : P + 1 = (A + 1) * g.cols := by rw [Nat.succ_mul]; omega
    have hdiv' : (P + 1) / g.cols = A + 1 := by rw [hend]; exact Nat.mul_div_cancel _ hcpos
    have hmod' : (P + 1) % g.cols = 0 := by rw [hend]; exact Nat.mul_mod_left _ _
    rw [hdiv'] at hnext
    rw [if_neg hwrap]
    by_cases hlast : A - K + 1 < g.rows
    · have hscr : scrolls g (P + 1) = K := by omega
      rw [terminalNewline_of_lt _ (by simp only; omega) (by simp only; omega)]
      refine ⟨hattrs, ?_, ?_, ?_⟩
      · rw [hlen, hdiv', hscr]; simp only; omega
      · rw [hlen, hmod']; rfl
      · rw [hlen, hscr]; exact hstore
    · have hscr : scrolls g (P + 1) = K + 1 := by omega
      -- the window ends with the row that was printed last
      have hrows : g.rows * g.cols + K * g.cols = P + 1 := by
        rw [hend, ← Nat.add_mul]
        congr 1
        omega
      rw [terminalNewline_of_last _ (by simp only; omega)]
      refine ⟨hattrs, ?_, ?_, ?_⟩
      · rw [hlen, hdiv', hscr]; simp only; omega
      · rw [hlen, hmod']; rfl
      · rw [hlen, hscr, Nat.succ_mul, ← blank_of_attrs hattrs]
        rw [← blank_of_attrs hattrs] at hstore
        exact RowMajor.window_scrollUp hstore hrpos (by omega)

/-- **The closed form of printing** any string from a cursor on the screen. -/
theorem printed_run (s : Screen g) (r : Fin g.rows) (c : Fin g.cols) (hr : s.cursorRow = (r.val : Int))
    (hc : s.cursorCol = (c.val : Int)) (t : List UInt8) :
    Printed s (r.val * g.cols + c.val) (t.map s.glyph) (t.foldl terminalPutChar s) := by
  induction t using List.reverseRecOn with
  | nil => exact printed_nil s r c hr hc
  | append_singleton t ch ih =>
    rw [List.foldl_append, List.map_append]
    exact printed_putChar ch ih

end Ptywrap
