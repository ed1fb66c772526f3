import Ptywrap.Encode
import Ptywrap.Print
/-!
# Printout — a printed string in rows and columns

The closed form of printing, off the tape: from row `r` and column `c` the `i`-th character lands `(c + i) / cols` rows
further down in column `(c + i) % cols`, and the screen has moved up by as many rows as the last row did not leave room
for.
-/
namespace Ptywrap

variable {g : Geometry}

/-- How many rows a string of `len` characters from row `r` and column `c` scrolls away. -/
def scrolledBy (g : Geometry) (r c len : Nat) : Nat := r + (c + len) / g.cols - (g.rows - 1)

theorem flat_add_split (g : Geometry) (r c i : Nat) :
    (r * g.cols + c + i) / g.cols = r + (c + i) / g.cols ∧ (r * g.cols + c + i) % g.cols = (c + i) % g.cols := by
  have hpos := g.cols_pos
  rw [Nat.add_assoc, Nat.add_comm (r * g.cols), Nat.add_mul_div_right _ _ hpos, Nat.add_mul_mod_self_right, Nat.add_comm r]
  exact ⟨rfl, rfl⟩

theorem scrolls_flat (g : Geometry) (r c len : Nat) : scrolls g (r * g.cols + c + len) = scrolledBy g r c len := by
  unfold scrolls scrolledBy
  rw [(flat_add_split g r c len).1]

/-- **A cell of the screen is a place on the tape.** -/
theorem cell_printed {s s' : Screen g} {r c : Nat} {xs : List Cell} (h : Printed s (r * g.cols + c) xs s')
    (r' : Fin g.rows) (c' : Fin g.cols) :
    s'.cell r' c' = RowMajor.tape s.buffer (r * g.cols + c) xs s.blank
      ((r'.val + scrolledBy g r c xs.length) * g.cols + c'.val) := by
  have hplace : r'.val * g.cols + c'.val + scrolledBy g r c xs.length * g.cols =
      (r'.val + scrolledBy g r c xs.length) * g.cols + c'.val := by
    rw [Nat.add_mul]
    omega
  refine (h.cells _ (RowMajor.flat_lt r'.isLt c'.isLt)).trans ?_
  rw [scrolls_flat, hplace]

/-- The place of the `i`-th character of the string. -/
theorem place_iff (g : Geometry) (r c i R : Nat) (C : Fin g.cols) :
    R * g.cols + C.val = r * g.cols + c + i ↔ R = r + (c + i) / g.cols ∧ C.val = (c + i) % g.cols := by
  have hplace : r * g.cols + c + i = (r + (c + i) / g.cols) * g.cols + (c + i) % g.cols := by
    obtain ⟨hdiv, hmod⟩ := flat_add_split g r c i
    rw [← hdiv, ← hmod]
    exact (Nat.div_add_mod' _ _).symm
  rw [hplace]
  exact RowMajor.flat_inj C.isLt (Nat.mod_lt _ g.cols_pos)

/-- **The closed form of printing**: where the cursor ends, how far the screen scrolls, where each character stands, and
what every other cell is, an old one moved up or a blank. -/
theorem print_closedForm (s : Session g) (hs : s.parser.parseState = .normal) (r : Fin g.rows) (c : Fin g.cols)
    (hr : s.screen.cursorRow = (r.val : Int)) (hc : s.screen.cursorCol = (c.val : Int)) (t : List UInt8)
    (ht : ∀ b ∈ t, 32 ≤ b ∧ b ≤ 126) :
    let s' := (terminalProcessBytes s t).screen
    let scrolled := r.val + (c.val + t.length) / g.cols - (g.rows - 1)
    (terminalProcessBytes s t).parser = s.parser ∧ s'.currentAttrs = s.screen.currentAttrs ∧
    s'.cursorCol = (((c.val + t.length) % g.cols : Nat) : Int) ∧
    s'.cursorRow = ((min (g.rows - 1) (r.val + (c.val + t.length) / g.cols) : Nat) : Int) ∧
    (∀ i (hi : i < t.length), scrolled ≤ r.val + (c.val + i) / g.cols →
      ∃ (r' : Fin g.rows) (c' : Fin g.cols), r'.val = r.val + (c.val + i) / g.cols - scrolled ∧
        c'.val = (c.val + i) % g.cols ∧ s'.cell r' c' = s.screen.glyph t[i]) ∧
    ∀ (r' : Fin g.rows) (c' : Fin g.cols),
      (∀ i, i < t.length →
        ¬ (r'.val + scrolled = r.val + (c.val + i) / g.cols ∧ c'.val = (c.val + i) % g.cols)) →
      s'.cell r' c' = if h : r'.val + scrolled < g.rows then s.screen.cell ⟨r'.val + scrolled, h⟩ c' else s.screen.blank := by
  intro s' scrolled
  have hprint : ∀ b ∈ t, isPrintable b = true := fun b hb => (isPrintable_iff b).2 (ht b hb)
  have hrows := g.rows_pos
  have hscreen : s' = t.foldl terminalPutChar s.screen := (screen_printables s hs t hprint).1
  have hlen : (t.map s.screen.glyph).length = t.length := List.length_map _
  have hprinted := printed_run s.screen r c hr hc t
  rw [← hscreen] at hprinted
  obtain ⟨hdiv, hmod⟩ := flat_add_split g r.val c.val t.length
  have hscrolled : scrolledBy g r.val c.val (t.map s.screen.glyph).length = scrolled := by rw [hlen]; rfl
  have hcell := cell_printed hprinted
  rw [hscrolled] at hcell
  refine ⟨?_, hprinted.attrs, ?_, ?_, fun i hi hle => ?_, fun r' c' hnone => ?_⟩
  · rw [parser_terminalProcessBytes]
    exact (outputs_printables t s.parser hs hprint).2
  · rw [hprinted.col, hlen, hmod]
  · rw [hprinted.row, hlen, scrolls_flat, hdiv]
    unfold scrolledBy
    rw [Int.ofNat_inj]
    generalize (c.val + t.length) / g.cols = down
    omega
  · -- a row of the screen, since the last one reached is
    have hmono : (c.val + i) / g.cols ≤ (c.val + t.length) / g.cols := Nat.div_le_div_right (by omega)
    have hlt : r.val + (c.val + i) / g.cols - scrolled < g.rows := by omega
    refine ⟨⟨_, hlt⟩, ⟨_, Nat.mod_lt (c.val + i) g.cols_pos⟩, rfl, rfl, ?_⟩
    rw [hcell, (place_iff g r.val c.val i _ _).2 ⟨Nat.sub_add_cancel hle, rfl⟩]
    unfold RowMajor.tape
    rw [if_pos (by rw [hlen]; omega), Nat.add_sub_cancel_left]
    simp [List.getD, hi]
  · rw [hcell]
    unfold RowMajor.tape
    rw [if_neg]
    · by_cases h : r'.val + scrolled < g.rows
      · rw [dif_pos h]
        exact RowMajor.getD_of_lt _ _ _ (RowMajor.flat_lt h c'.isLt)
      · have hpast := Nat.mul_le_mul_right g.cols (Nat.le_of_not_lt h)
        rw [dif_neg h]
        exact RowMajor.getD_of_ge _ _ _ (by omega)
    · rintro ⟨hge, hlt⟩
      obtain ⟨i, hi⟩ := Nat.exists_eq_add_of_le hge
      exact hnone i (by omega) ((place_iff g r.val c.val i _ _).1 hi)

/-- `abcdefg` from the last column of a screen of two rows and three columns, which scrolls twice. -/
theorem print_closedForm_scrolled :
    let g : Geometry := ⟨2, 3, by decide, by decide, by decide⟩
    let s : Session g := ⟨{ (terminalInit g).screen with cursorCol := 2 }, parserReset⟩
    let s' := (terminalProcessBytes s [97, 98, 99, 100, 101, 102, 103]).screen
    s'.cursorCol = 0 ∧ s'.cursorRow = 1 ∧ s'.cell 0 2 = s.screen.glyph 103 := by
  intro g s s'
  obtain ⟨-, -, hcol, hrow, hglyph, -⟩ := print_closedForm s rfl 0 2 rfl rfl [97, 98, 99, 100, 101, 102, 103] (by simp)
  obtain ⟨r', c', hr', hc', hcell⟩ := hglyph 6 (by decide) (by decide)
  obtain rfl : r' = 0 := Fin.ext (hr'.trans (by decide))
  obtain rfl : c' = 2 := Fin.ext (hc'.trans (by decide))
  refine ⟨?_, ?_, ?_⟩
  · rw [hcol]
    decide
  · rw [hrow]
    decide
  · exact hcell

end Ptywrap
