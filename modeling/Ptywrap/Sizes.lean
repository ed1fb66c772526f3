import Ptywrap.Picture
import Ptywrap.Transcript
/-!
# Sizes — one output on two screens

A screen and a larger one that get the same bytes.  An action tells them apart when it runs against a margin of the
smaller one that the larger one does not have: then the cursors part.  Until then the larger screen shows the smaller
one in its upper left corner, cell for cell (`alike_run_iff`).
-/
namespace Ptywrap

open CInt (wrap32)
open RowMajor (Corner)

variable {g h : Geometry}

instance : LE Geometry := ⟨fun g h => g.rows ≤ h.rows ∧ g.cols ≤ h.cols⟩

instance : DecidableLE Geometry := fun g h => inferInstanceAs (Decidable (g.rows ≤ h.rows ∧ g.cols ≤ h.cols))

/-- The pens agree, and the larger screen shows the smaller one in its corner. -/
structure Alike (hle : g ≤ h) (s : Screen g) (t : Screen h) : Prop where
  pen : s.toPen = t.toPen
  corner : Corner hle.1 hle.2 s.buffer t.buffer

/-! ## Running against a margin -/

/-- The right margin stops the action, or breaks the line. -/
def Action.MeetsRight (g : Geometry) (pen : Pen) : Action → Prop
  | .putChar _ => pen.cursorCol + 1 = g.cols
  | .executeCsi p cmd =>
    (cmd = 67 ∧ (g.cols : Int) ≤ wrap32 (pen.cursorCol + moveCount p)) ∨
      ((cmd = 72 ∨ cmd = 102) ∧ (g.cols : Int) ≤ wrap32 (p.arg 1 1 - 1))
  | _ => False

/-- The bottom margin stops the action, or scrolls. -/
def Action.MeetsBottom (g : Geometry) (pen : Pen) : Action → Prop
  | .newline => pen.cursorRow + 1 = g.rows
  | .putChar _ => pen.cursorCol + 1 = g.cols ∧ pen.cursorRow + 1 = g.rows
  | .executeCsi p cmd =>
    (cmd = 66 ∧ (g.rows : Int) ≤ wrap32 (pen.cursorRow + moveCount p)) ∨
      ((cmd = 72 ∨ cmd = 102) ∧ (g.rows : Int) ≤ wrap32 (p.arg 0 1 - 1))
  | _ => False

/-- The action meets a margin that the larger screen has elsewhere. -/
def Action.Tells (g h : Geometry) (pen : Pen) (a : Action) : Prop :=
  (g.cols < h.cols ∧ a.MeetsRight g pen) ∨ (g.rows < h.rows ∧ a.MeetsBottom g pen)

/-- The next byte does. -/
def Session.Tells (h : Geometry) (s : Session g) (ch : UInt8) : Prop :=
  ∃ a ∈ s.parser.out ch, a.Tells g h s.screen.toPen

/-- The two cursors, as `ptywrap_get_cursor` gives them. -/
def Pen.SamePlace (pen pen' : Pen) : Prop := pen.cursorRow = pen'.cursorRow ∧ pen.cursorCol = pen'.cursorCol

theorem Pen.InGrid.mono (hle : g ≤ h) {pen : Pen} (hin : pen.InGrid g) : pen.InGrid h := by
  obtain ⟨⟨h1, h2⟩, h3, h4⟩ := hin
  obtain ⟨hrows, hcols⟩ := hle
  exact ⟨⟨h1, by omega⟩, h3, by omega⟩

/-! ## Printing -/

variable {hle : g ≤ h} {s : Screen g} {t : Screen h}

theorem alike_newline (hst : Alike hle s t) (hrow : 0 ≤ s.cursorRow ∧ s.cursorRow < g.rows)
    (hbottom : s.cursorRow + 1 = g.rows → g.rows = h.rows) : Alike hle (terminalNewline s) (terminalNewline t) := by
  obtain ⟨pen, v⟩ := s
  obtain ⟨pen', w⟩ := t
  obtain rfl : pen = pen' := hst.pen
  dsimp only at hrow hbottom
  have hrows := hle.1
  by_cases hlast : pen.cursorRow + 1 < g.rows
  · rw [terminalNewline_of_lt _ hrow.1 hlast, terminalNewline_of_lt _ hrow.1 (by dsimp only; omega)]
    exact ⟨rfl, hst.corner⟩
  · have heq : g.rows = h.rows := hbottom (by omega)
    rw [terminalNewline_of_last _ (by dsimp only; omega), terminalNewline_of_last _ (by dsimp only; omega)]
    exact ⟨by dsimp only; rw [heq], hst.corner.scrollUp heq _⟩

theorem alike_putChar (hst : Alike hle s t) (hin : s.InGrid g) (ch : UInt8)
    (htells : ¬ (Action.putChar ch).Tells g h s.toPen) : Alike hle (terminalPutChar s ch) (terminalPutChar t ch) := by
  obtain ⟨pen, v⟩ := s
  obtain ⟨pen', w⟩ := t
  obtain rfl : pen = pen' := hst.pen
  obtain ⟨r, c, hr, hc⟩ := hin.exists_fin
  dsimp only at hr hc
  have hcols := hle.2
  have hstored : Alike hle (g := g) (h := h)
      ⟨{ pen with cursorCol := pen.cursorCol + 1 }, RowMajor.store v ((r.val * g.cols + c.val : Nat) : Int) (pen.glyph ch)⟩
      ⟨{ pen with cursorCol := pen.cursorCol + 1 }, RowMajor.store w ((r.val * h.cols + c.val : Nat) : Int) (pen.glyph ch)⟩ :=
    ⟨rfl, hst.corner.store r c (pen.glyph ch)⟩
  rw [terminalPutChar_of_inGrid _ ch r c hr hc,
    terminalPutChar_of_inGrid _ ch (r.castLE hle.1) (c.castLE hle.2) hr hc]
  unfold Action.Tells Action.MeetsRight Action.MeetsBottom at htells
  dsimp only [Fin.val_castLE] at htells ⊢
  by_cases hwrap : c.val + 1 < g.cols
  · rw [if_pos hwrap, if_pos (show c.val + 1 < h.cols by omega)]
    exact hstored
  · -- the line breaks on both
    have hwidth : g.cols = h.cols := by
      have := c.isLt
      by_contra hne
      exact htells (.inl ⟨by omega, by omega⟩)
    rw [if_neg hwrap, if_neg (show ¬ c.val + 1 < h.cols by omega)]
    refine alike_newline hstored hin.1 fun hlast => ?_
    have hrows := hle.1
    have := c.isLt
    by_contra hne
    exact htells (.inr ⟨by omega, by omega, hlast⟩)

theorem cursorCol_terminalNewline (s : Screen g) : (terminalNewline s).cursorCol = 0 := by
  unfold terminalNewline
  dsimp only
  split <;> rfl

theorem apart_newline (hpen : s.toPen = t.toPen) (hrow : 0 ≤ s.cursorRow) (hlast : s.cursorRow + 1 = g.rows)
    (hlt : g.rows < h.rows) : ¬ (terminalNewline s).SamePlace (terminalNewline t).toPen := by
  have hrow' : t.cursorRow = s.cursorRow := congrArg Pen.cursorRow hpen.symm
  rw [terminalNewline_of_last s hlast, terminalNewline_of_lt t (by omega) (by omega)]
  intro hsame
  have hrows : (g.rows : Int) - 1 = t.cursorRow + 1 := hsame.1
  omega

theorem apart_putChar (hpen : s.toPen = t.toPen) (hin : s.InGrid g) (hle : g ≤ h) (ch : UInt8)
    (htells : (Action.putChar ch).Tells g h s.toPen) :
    ¬ (terminalPutChar s ch).SamePlace (terminalPutChar t ch).toPen := by
  obtain ⟨pen, v⟩ := s
  obtain ⟨pen', w⟩ := t
  obtain rfl : pen = pen' := hpen
  obtain ⟨r, c, hr, hc⟩ := hin.exists_fin
  obtain ⟨⟨hrow, -⟩, -⟩ := hin
  unfold Action.Tells Action.MeetsRight Action.MeetsBottom at htells
  dsimp only at hr hc hrow htells
  have hcols := hle.2
  have hlast : ¬ c.val + 1 < g.cols := by omega
  rw [terminalPutChar_of_inGrid _ ch r c hr hc,
    terminalPutChar_of_inGrid _ ch (r.castLE hle.1) (c.castLE hle.2) hr hc]
  dsimp only [Fin.val_castLE]
  rw [if_neg hlast]
  by_cases hwrap : c.val + 1 < h.cols
  · -- the larger screen goes on in the line
    rw [if_pos hwrap]
    rintro ⟨-, hcol⟩
    rw [cursorCol_terminalNewline] at hcol
    dsimp only at hcol
    omega
  · have := c.isLt
    rw [if_neg hwrap]
    exact apart_newline rfl hrow (by dsimp only; omega) (by omega)

/-! ## Commands -/

theorem clampPosition_eq_iff {m n : Nat} (hm : 0 < m) (hmn : m ≤ n) (x : Int) :
    clampPosition m x = clampPosition n x ↔ ¬ (m < n ∧ (m : Int) ≤ wrap32 (x - 1)) := by
  unfold clampPosition
  dsimp only
  generalize wrap32 (x - 1) = y
  split <;> split <;> split <;> omega

/-- **The cursors stay together exactly when no margin stops one of them.** -/
theorem samePlace_executeCursorMove_iff (hle : g ≤ h) (p : CsiArgs) {cmd : UInt8}
    (hcmd : cmd = 65 ∨ cmd = 66 ∨ cmd = 67 ∨ cmd = 68) (pen : Pen) :
    (executeCursorMove g p cmd pen).SamePlace (executeCursorMove h p cmd pen) ↔
      ¬ (Action.executeCsi p cmd).Tells g h pen := by
  obtain ⟨hrows, hcols⟩ := hle
  unfold Pen.SamePlace Action.Tells Action.MeetsRight Action.MeetsBottom executeCursorMove
  dsimp only
  generalize moveCount p = n
  rcases hcmd with rfl | rfl | rfl | rfl
  · simp +decide
  · simp +decide only [if_true, if_false, true_and, false_and, or_self, or_false, and_false, false_or, and_true]
    generalize wrap32 (pen.cursorRow + n) = y
    split <;> split <;> omega
  · simp +decide only [if_true, if_false, true_and, false_and, or_self, or_false, and_false]
    generalize wrap32 (pen.cursorCol + n) = y
    split <;> split <;> omega
  · simp +decide

theorem samePlace_executeCursorPosition_iff (hle : g ≤ h) (p : CsiArgs) {cmd : UInt8} (hcmd : cmd = 72 ∨ cmd = 102)
    (pen : Pen) :
    (executeCursorPosition g p pen).SamePlace (executeCursorPosition h p pen) ↔
      ¬ (Action.executeCsi p cmd).Tells g h pen := by
  have hrow := clampPosition_eq_iff g.rows_pos hle.1 (p.arg 0 1)
  have hcol := clampPosition_eq_iff g.cols_pos hle.2 (p.arg 1 1)
  unfold Pen.SamePlace Action.Tells Action.MeetsRight Action.MeetsBottom executeCursorPosition
  dsimp only
  rw [hrow, hcol]
  rcases hcmd with rfl | rfl
  · simp +decide only [true_and, false_and, false_or]
    omega
  · simp +decide only [true_and, false_and, false_or]
    omega

theorem not_tells_of_other {p : CsiArgs} {cmd : UInt8} (hcmd : cmd ∉ [66, 67, 72, 102]) (pen : Pen) :
    ¬ (Action.executeCsi p cmd).Tells g h pen := by
  simp only [List.mem_cons, List.not_mem_nil, or_false, not_or] at hcmd
  obtain ⟨h1, h2, h3, h4⟩ := hcmd
  unfold Action.Tells Action.MeetsRight Action.MeetsBottom
  simp only [h1, h2, h3, h4, or_self, false_and, and_false, not_false_eq_true]

theorem alike_eraseDisplay (hst : Alike hle s t) (p : CsiArgs) :
    Alike hle (executeEraseDisplay p s) (executeEraseDisplay p t) := by
  obtain ⟨pen, v⟩ := s
  obtain ⟨pen', w⟩ := t
  obtain rfl : pen = pen' := hst.pen
  refine ⟨?_, fun r c => ?_⟩
  · unfold executeEraseDisplay
    split <;> rfl
  · have hsmall := cell_executeEraseDisplay p (⟨pen, v⟩ : Screen g) r c
    have hlarge := cell_executeEraseDisplay p (⟨pen, w⟩ : Screen h) (r.castLE hle.1) (c.castLE hle.2)
    refine hsmall.trans (Eq.trans ?_ hlarge.symm)
    split
    · rfl
    · exact hst.corner r c

theorem alike_eraseLine (hst : Alike hle s t) (hin : s.InGrid g) (p : CsiArgs) :
    Alike hle (executeEraseLine p s) (executeEraseLine p t) := by
  obtain ⟨pen, v⟩ := s
  obtain ⟨pen', w⟩ := t
  obtain rfl : pen = pen' := hst.pen
  refine ⟨rfl, fun r c => ?_⟩
  have hsmall := cell_executeEraseLine p (⟨pen, v⟩ : Screen g) hin r c
  have hlarge := cell_executeEraseLine p (⟨pen, w⟩ : Screen h) (hin.mono hle) (r.castLE hle.1) (c.castLE hle.2)
  have hcols := (mem_eraseLineCols p pen c).trans (mem_eraseLineCols p pen (c.castLE hle.2)).symm
  refine hsmall.trans (Eq.trans ?_ hlarge.symm)
  dsimp only [Fin.val_castLE] at hcols ⊢
  simp only [hcols]
  split
  · rfl
  · exact hst.corner r c

/-- **The pens agree where the cursors do**: nothing else of them depends on the size. -/
theorem Pen.eq_of_samePlace {pen pen' : Pen} (hplace : pen.SamePlace pen') (hattrs : pen.currentAttrs = pen'.currentAttrs) :
    pen = pen' := by
  obtain ⟨row, col, attrs⟩ := pen
  obtain ⟨row', col', attrs'⟩ := pen'
  obtain ⟨hrow, hcol⟩ := hplace
  dsimp only at hrow hcol hattrs
  rw [hrow, hcol, hattrs]

theorem alike_executeCsi (hst : Alike hle s t) (hin : s.InGrid g) (p : CsiArgs) (cmd : UInt8)
    (htells : ¬ (Action.executeCsi p cmd).Tells g h s.toPen) :
    Alike hle (parserExecuteCsi p cmd s) (parserExecuteCsi p cmd t) := by
  have hpen := hst.pen
  unfold parserExecuteCsi
  split
  · exact ⟨by dsimp only; rw [hpen], hst.corner⟩
  split
  · rename_i hmove
    have hplace := (samePlace_executeCursorMove_iff hle p hmove s.toPen).2 htells
    refine ⟨?_, hst.corner⟩
    dsimp only
    rw [← hpen]
    refine Pen.eq_of_samePlace hplace ?_
    rw [currentAttrs_executeCursorMove, currentAttrs_executeCursorMove]
  split
  · rename_i hposition
    have hplace := (samePlace_executeCursorPosition_iff hle p hposition s.toPen).2 htells
    refine ⟨?_, hst.corner⟩
    dsimp only
    rw [← hpen]
    exact Pen.eq_of_samePlace hplace rfl
  split
  · exact alike_eraseDisplay hst p
  split
  · exact alike_eraseLine hst hin p
  · exact hst

/-- **An action that does not tell the sizes apart keeps the two screens alike.** -/
theorem alike_exec (hst : Alike hle s t) (hin : s.InGrid g) {a : Action} (htells : ¬ a.Tells g h s.toPen) :
    Alike hle (a.exec s) (a.exec t) := by
  have hpen := hst.pen
  cases a with
  | newline =>
    refine alike_newline hst hin.1 fun hlast => ?_
    by_contra hne
    exact htells (.inr ⟨Nat.lt_of_le_of_ne hle.1 hne, hlast⟩)
  | carriageReturn => exact ⟨by unfold Action.exec; dsimp only; rw [hpen], hst.corner⟩
  | backspace =>
    have hcol : s.cursorCol = t.cursorCol := congrArg Pen.cursorCol hpen
    unfold Action.exec
    dsimp only
    rw [hcol]
    split
    · exact ⟨by dsimp only; rw [hpen], hst.corner⟩
    · exact hst
  | putChar ch => exact alike_putChar hst hin ch htells
  | executeCsi p cmd => exact alike_executeCsi hst hin p cmd htells

/-- **An action that does parts the cursors.** -/
theorem apart_exec (hst : Alike hle s t) (hin : s.InGrid g) {a : Action} (htells : a.Tells g h s.toPen) :
    ¬ (a.exec s).SamePlace (a.exec t).toPen := by
  cases a with
  | newline =>
    rcases htells with ⟨-, hmeets⟩ | ⟨hlt, hlast⟩
    · exact hmeets.elim
    · exact apart_newline hst.pen hin.1.1 hlast hlt
  | carriageReturn => rcases htells with ⟨-, hmeets⟩ | ⟨-, hmeets⟩ <;> exact hmeets.elim
  | backspace => rcases htells with ⟨-, hmeets⟩ | ⟨-, hmeets⟩ <;> exact hmeets.elim
  | putChar ch => exact apart_putChar hst.pen hin hle ch htells
  | executeCsi p cmd =>
    have hpen := hst.pen
    unfold Action.exec parserExecuteCsi
    dsimp only
    by_cases hmove : cmd = 65 ∨ cmd = 66 ∨ cmd = 67 ∨ cmd = 68
    · have hsgr : ¬ cmd = 109 := by rcases hmove with rfl | rfl | rfl | rfl <;> decide
      rw [if_neg hsgr, if_pos hmove, if_neg hsgr, if_pos hmove, ← hpen]
      exact fun hplace => (samePlace_executeCursorMove_iff hle p hmove s.toPen).1 hplace htells
    by_cases hposition : cmd = 72 ∨ cmd = 102
    · have hsgr : ¬ cmd = 109 := by rcases hposition with rfl | rfl <;> decide
      rw [if_neg hsgr, if_neg hmove, if_pos hposition, if_neg hsgr, if_neg hmove, if_pos hposition, ← hpen]
      exact fun hplace => (samePlace_executeCursorPosition_iff hle p hposition s.toPen).1 hplace htells
    · simp only [not_or] at hmove hposition
      refine absurd htells (not_tells_of_other ?_ s.toPen)
      simp [hmove, hposition]

/-! ## Runs -/

/-- **One byte keeps the screens alike, or parts the cursors.** -/
theorem processByte_alike {s : Session g} {t : Session h} (hparser : s.parser = t.parser)
    (hst : Alike hle s.screen t.screen) (hin : s.InGrid) (b : UInt8) :
    (¬ s.Tells h b → Alike hle (terminalProcessByte s b).screen (terminalProcessByte t b).screen) ∧
      (s.Tells h b → ¬ (terminalProcessByte s b).screen.SamePlace (terminalProcessByte t b).screen.toPen) := by
  rw [terminalProcessByte_eq, terminalProcessByte_eq, ← hparser]
  unfold Session.Tells
  rcases out_cases s.parser b with hout | ⟨a, hout, -⟩
  · rw [hout]
    exact ⟨fun _ => hst, fun ⟨a, ha, _⟩ => absurd ha List.not_mem_nil⟩
  · simp only [hout, List.mem_singleton, exists_eq_left, List.foldl_cons, List.foldl_nil]
    exact ⟨fun htells => alike_exec hst hin htells, fun htells => apart_exec hst hin htells⟩

theorem alike_init (hle : g ≤ h) : Alike hle (terminalInit g).screen (terminalInit h).screen := by
  refine ⟨rfl, fun r c => ?_⟩
  unfold terminalInit RowMajor.cell
  simp

/-- The parser does not see the size. -/
theorem parser_of_sizes (g h : Geometry) (bs : List UInt8) :
    (terminalProcessBytes (terminalInit g) bs).parser = (terminalProcessBytes (terminalInit h) bs).parser := by
  rw [parser_terminalProcessBytes, parser_terminalProcessBytes]
  rfl

/-- The induction of a run whose bytes, as long as the screens are alike, do not tell them apart. -/
theorem alike_prefix (hle : g ≤ h) {bs : List UInt8} (hbs : Contained g bs)
    (hbyte : ∀ pre b, pre ++ [b] <+: bs →
      Alike hle (terminalProcessBytes (terminalInit g) pre).screen (terminalProcessBytes (terminalInit h) pre).screen →
        ¬ (terminalProcessBytes (terminalInit g) pre).Tells h b) (pre : List UInt8) : pre <+: bs →
      Alike hle (terminalProcessBytes (terminalInit g) pre).screen (terminalProcessBytes (terminalInit h) pre).screen := by
  induction pre using List.reverseRecOn with
  | nil => exact fun _ => alike_init hle
  | append_singleton pre b ih =>
    intro hpre
    have hpre' := (List.prefix_append pre [b]).trans hpre
    have hstep := (processByte_alike (parser_of_sizes g h pre) (ih hpre') (hbs pre hpre') b).1
      (hbyte pre b hpre (ih hpre'))
    rw [terminalProcessBytes_append, terminalProcessBytes_append]
    exact hstep

/-- **A larger screen shows the same exactly until the output runs against a margin it does not have.**  While the
output leaves the cursor on the smaller screen, the two cursors are at the same place all along exactly when no byte
tells the sizes apart, and exactly when the larger screen shows the smaller one in its corner all along. -/
theorem alike_run_iff (hle : g ≤ h) {bs : List UInt8} (hbs : Contained g bs) :
    let s := terminalProcessBytes (terminalInit g)
    let t := terminalProcessBytes (terminalInit h)
    ((∀ pre, pre <+: bs → (s pre).screen.SamePlace (t pre).screen.toPen) ↔
        ∀ pre b, pre ++ [b] <+: bs → ¬ (s pre).Tells h b) ∧
      ((∀ pre, pre <+: bs → (s pre).screen.SamePlace (t pre).screen.toPen) ↔
        ∀ pre, pre <+: bs → Alike hle (s pre).screen (t pre).screen) := by
  intro s t
  have hplace : (∀ pre, pre <+: bs → Alike hle (s pre).screen (t pre).screen) →
      ∀ pre, pre <+: bs → (s pre).screen.SamePlace (t pre).screen.toPen := fun halike pre hpre =>
    ⟨congrArg Pen.cursorRow (halike pre hpre).pen, congrArg Pen.cursorCol (halike pre hpre).pen⟩
  -- a byte that tells the sizes apart would have parted the cursors
  have hbyte : (∀ pre, pre <+: bs → (s pre).screen.SamePlace (t pre).screen.toPen) → ∀ pre b, pre ++ [b] <+: bs →
      Alike hle (s pre).screen (t pre).screen → ¬ (s pre).Tells h b := by
    intro hsame pre b hpre halike htells
    have hin := hbs pre ((List.prefix_append pre [b]).trans hpre)
    have hapart := (processByte_alike (parser_of_sizes g h pre) halike hin b).2 htells
    have hafter := hsame (pre ++ [b]) hpre
    rw [show s (pre ++ [b]) = _ from terminalProcessBytes_append _ pre [b],
      show t (pre ++ [b]) = _ from terminalProcessBytes_append _ pre [b]] at hafter
    exact hapart hafter
  have halike : (∀ pre b, pre ++ [b] <+: bs → ¬ (s pre).Tells h b) →
      ∀ pre, pre <+: bs → Alike hle (s pre).screen (t pre).screen := fun htells =>
    alike_prefix hle hbs fun pre b hpre _ => htells pre b hpre
  have hsame : (∀ pre, pre <+: bs → (s pre).screen.SamePlace (t pre).screen.toPen) →
      ∀ pre, pre <+: bs → Alike hle (s pre).screen (t pre).screen := fun hsame =>
    alike_prefix hle hbs (hbyte hsame)
  refine ⟨⟨fun h pre b hpre => ?_, fun htells => hplace (halike htells)⟩, hsame, hplace⟩
  exact hbyte h pre b hpre (hsame h pre ((List.prefix_append pre [b]).trans hpre))

/-- An `A` and the beginning of a sequence, on one row of two columns and on two rows of three. -/
theorem alike_run_iff_midSequence :
    let large : Geometry := ⟨2, 3, by decide, by decide, by decide⟩
    let s := terminalProcessBytes (terminalInit twoCells)
    let t := terminalProcessBytes (terminalInit large)
    ((∀ pre, pre <+: midSequence → (s pre).screen.SamePlace (t pre).screen.toPen) ↔
        ∀ pre b, pre ++ [b] <+: midSequence → ¬ (s pre).Tells large b) ∧
      ((∀ pre, pre <+: midSequence → (s pre).screen.SamePlace (t pre).screen.toPen) ↔
        ∀ pre, pre <+: midSequence →
          Alike (g := twoCells) (h := large) (by decide) (s pre).screen (t pre).screen) :=
  alike_run_iff _ contained_midSequence

end Ptywrap
