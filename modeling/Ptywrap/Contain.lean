import Ptywrap.Process
/-!
# Contain — when the cursor stays on the screen

Every action but a relative move keeps an on-screen cursor on the screen.  A relative move is clamped on the side it
moves to only, so a count that wrapped negative, or a sum that wraps, leaves the screen on the other side:
`Action.Stays` says for which counts it does not (`exec_inGrid_iff`).  On the screen every index an action touches is a
cell (`touched_inRange`), and no other cell changes (`exec_frame`).
-/
namespace Ptywrap

open CInt (wrap32 intMax Fits)
open RowMajor (store storeAll intRange blockMove)

variable {g : Geometry}

/-- The count of a relative move keeps the cursor on the screen, for each of the four directions. -/
def MoveStays (g : Geometry) (p : CsiArgs) (cmd : UInt8) (pen : Pen) : Prop :=
  (cmd = 65 → pen.cursorRow - g.rows < moveCount p ∨ moveCount p < pen.cursorRow - intMax) ∧
  (cmd = 66 → -pen.cursorRow ≤ moveCount p ∧ moveCount p ≤ intMax - pen.cursorRow) ∧
  (cmd = 67 → -pen.cursorCol ≤ moveCount p ∧ moveCount p ≤ intMax - pen.cursorCol) ∧
  (cmd = 68 → pen.cursorCol - g.cols < moveCount p ∨ moveCount p < pen.cursorCol - intMax)

instance (g : Geometry) (p : CsiArgs) (cmd : UInt8) (pen : Pen) : Decidable (MoveStays g p cmd pen) := by
  unfold MoveStays; exact inferInstance

def Action.Stays (g : Geometry) (pen : Pen) : Action → Prop
  | .executeCsi p cmd => MoveStays g p cmd pen
  | _ => True

/-! ## One action -/

theorem inGrid_terminalNewline (s : Screen g) (h : s.InGrid g) : (terminalNewline s).InGrid g := by
  obtain ⟨⟨h1, h2⟩, -⟩ := h
  have hr := g.rows_pos
  have hc := g.cols_pos
  by_cases hlt : s.cursorRow + 1 < g.rows
  · rw [terminalNewline_of_lt s h1 hlt]
    exact ⟨⟨by simp only; omega, by simp only; omega⟩, by simp only; omega, by simp only; omega⟩
  · rw [terminalNewline_of_last s (by omega)]
    exact ⟨⟨by simp only; omega, by simp only; omega⟩, by simp only; omega, by simp only; omega⟩

theorem inGrid_terminalPutChar (s : Screen g) (ch : UInt8) (h : s.InGrid g) : (terminalPutChar s ch).InGrid g := by
  obtain ⟨r, c, hr, hc⟩ := h.exists_fin
  rw [terminalPutChar_of_inGrid s ch r c hr hc]
  obtain ⟨hrow, hcol⟩ := h
  dsimp only
  split
  · exact ⟨hrow, by simp only; omega, by simp only; omega⟩
  · -- the wrap is a newline from the same row, whose column no longer counts
    rename_i hlast
    have hgrid := inGrid_terminalNewline
      { s with buffer := store s.buffer ((r.val * g.cols + c.val : Nat) : Int) (s.glyph ch) } ⟨hrow, hcol⟩
    unfold terminalNewline at hgrid ⊢
    exact hgrid

theorem inGrid_executeCursorPosition (p : CsiArgs) (pen : Pen) : (executeCursorPosition g p pen).InGrid g :=
  ⟨clampPosition_inGrid g.rows_pos _, clampPosition_inGrid g.cols_pos _⟩

/-- **A relative move keeps the cursor on the screen exactly when its count does.** -/
theorem inGrid_executeCursorMove_iff (p : CsiArgs) (cmd : UInt8) (pen : Pen) (hn : Fits (moveCount p))
    (h : pen.InGrid g) : (executeCursorMove g p cmd pen).InGrid g ↔ MoveStays g p cmd pen := by
  obtain ⟨⟨h1, h2⟩, h3, h4⟩ := h
  have hr := g.rows_le
  have hc := g.cols_le
  rw [CInt.fits_iff] at hn
  unfold intMax at hr hc
  unfold executeCursorMove MoveStays Pen.InGrid
  dsimp only
  generalize moveCount p = n at hn
  by_cases hA : cmd = 65
  · subst hA
    simp +decide only [if_true, true_implies, false_implies, and_true]
    unfold wrap32 intMax
    split <;> omega
  by_cases hB : cmd = 66
  · subst hB
    simp +decide only [if_true, if_false, true_implies, false_implies, and_true, true_and]
    unfold wrap32 intMax
    split <;> omega
  by_cases hC : cmd = 67
  · subst hC
    simp +decide only [if_true, if_false, true_implies, false_implies, and_true, true_and]
    unfold wrap32 intMax
    split <;> omega
  by_cases hD : cmd = 68
  · subst hD
    simp +decide only [if_true, if_false, true_implies, false_implies, true_and]
    unfold wrap32 intMax
    split <;> omega
  · rw [if_neg hA, if_neg hB, if_neg hC, if_neg hD]
    exact iff_of_true ⟨⟨h1, h2⟩, h3, h4⟩ ⟨fun e => absurd e hA, fun e => absurd e hB, fun e => absurd e hC,
      fun e => absurd e hD⟩

theorem inGrid_executeEraseDisplay (p : CsiArgs) (s : Screen g) (h : s.InGrid g) :
    (executeEraseDisplay p s).InGrid g := by
  have hr := g.rows_pos
  have hc := g.cols_pos
  unfold executeEraseDisplay
  split
  · exact ⟨⟨by simp only; omega, by simp only; omega⟩, by simp only; omega, by simp only; omega⟩
  · exact h

/-- **An on-screen cursor stays on the screen exactly when the action says so.** -/
theorem exec_inGrid_iff (a : Action) (s : Screen g) (h : s.InGrid g)
    (hn : ∀ p cmd, a = .executeCsi p cmd → Fits (moveCount p)) :
    (a.exec s).InGrid g ↔ a.Stays g s.toPen := by
  cases a with
  | newline => exact iff_of_true (inGrid_terminalNewline s h) trivial
  | carriageReturn =>
    have hc := g.cols_pos
    exact iff_of_true ⟨h.1, by simp only [Action.exec]; omega, by simp only [Action.exec]; omega⟩ trivial
  | backspace =>
    refine iff_of_true ?_ trivial
    obtain ⟨hrow, h3, h4⟩ := h
    unfold Action.exec
    dsimp only
    split
    · exact ⟨hrow, by simp only; omega, by simp only; omega⟩
    · exact ⟨hrow, h3, h4⟩
  | putChar ch => exact iff_of_true (inGrid_terminalPutChar s ch h) trivial
  | executeCsi p cmd =>
    have hmove := inGrid_executeCursorMove_iff p cmd s.toPen (hn p cmd rfl) h
    -- a command that is not a move neither leaves the screen nor has a count
    have hother : ¬ (cmd = 65 ∨ cmd = 66 ∨ cmd = 67 ∨ cmd = 68) → MoveStays g p cmd s.toPen := by
      intro hcmd
      simp only [not_or] at hcmd
      obtain ⟨hA, hB, hC, hD⟩ := hcmd
      exact ⟨fun e => absurd e hA, fun e => absurd e hB, fun e => absurd e hC, fun e => absurd e hD⟩
    refine parserExecuteCsi_cases (motive := fun t => t.InGrid g ↔ MoveStays g p cmd s.toPen) p cmd s (fun hm => ?sgr)
      (fun _ => hmove) (fun hm => ?position) (fun hm => ?display) (fun hm => ?line) (fun hm => ?other)
    case sgr => exact iff_of_true h (hother (by subst hm; decide))
    case position =>
      exact iff_of_true (inGrid_executeCursorPosition p s.toPen) (hother (by rcases hm with rfl | rfl <;> decide))
    case display => exact iff_of_true (inGrid_executeEraseDisplay p s h) (hother (by subst hm; decide))
    case line => exact iff_of_true h (hother (by subst hm; decide))
    case other => exact iff_of_true h (hother fun hcmd => hm (by rcases hcmd with rfl | rfl | rfl | rfl <;> decide))

/-! ## What an action touches -/

theorem lastLine_inRange (g : Geometry) (i : Int) (hi : i ∈ lastLineIndices g) :
    0 ≤ i ∧ i < ((g.rows * g.cols : Nat) : Int) := by
  have hr := g.rows_pos
  unfold lastLineIndices at hi
  rw [RowMajor.mem_intRange, ← Nat.succ_mul, Nat.succ_eq_add_one, Nat.sub_add_cancel hr] at hi
  omega

theorem newlineTouched_inRange (pen : Pen) (i : Int) (hi : i ∈ newlineTouched g pen) :
    0 ≤ i ∧ i < ((g.rows * g.cols : Nat) : Int) := by
  have hsplit : (g.rows - 1) * g.cols + g.cols = g.rows * g.cols := by
    rw [← Nat.succ_mul, Nat.succ_eq_add_one, Nat.sub_add_cancel g.rows_pos]
  unfold newlineTouched at hi
  split at hi
  · rw [List.mem_append, List.mem_append, RowMajor.mem_intRange, RowMajor.mem_intRange] at hi
    rcases hi with (hi | hi) | hi
    · omega
    · omega
    · exact lastLine_inRange g i hi
  · cases hi

/-- **On the screen every touched index is a cell.** -/
theorem touched_inRange (a : Action) (pen : Pen) (h : pen.InGrid g) (i : Int) (hi : i ∈ a.touched g pen) :
    0 ≤ i ∧ i < ((g.rows * g.cols : Nat) : Int) := by
  obtain ⟨hrow, hcol⟩ := h
  cases a with
  | newline => exact newlineTouched_inRange pen i hi
  | carriageReturn => cases hi
  | backspace => cases hi
  | putChar ch =>
    unfold Action.touched putCharTouched at hi
    dsimp only at hi
    rw [if_neg (by omega), List.mem_cons] at hi
    rcases hi with rfl | hi
    · exact cellIndex_inRange hrow hcol
    · split at hi
      · exact newlineTouched_inRange pen i hi
      · cases hi
  | executeCsi p cmd =>
    unfold Action.touched csiTouched at hi
    dsimp only at hi
    split at hi
    · unfold eraseDisplayIndices at hi
      split at hi
      · rwa [RowMajor.mem_intRange] at hi
      · cases hi
    split at hi
    · unfold eraseLineIndices at hi
      obtain ⟨col, hcols, rfl⟩ := List.mem_map.1 hi
      exact cellIndex_inRange hrow (eraseLineCols_inRange p ⟨hrow, hcol⟩ hcols)
    · cases hi

/-- **A line erased inside the buffer is erased in the end**: the loop that does not end would go outside first. -/
theorem ends_of_inside (p : CsiArgs) (pen : Pen) (hcol : Fits pen.cursorCol) (harg : p.arg 0 0 = 1)
    (hin : ∀ i ∈ eraseLineIndices g p pen, 0 ≤ i ∧ i < ((g.rows * g.cols : Nat) : Int)) :
    ∃ tests, eraseUpTo pen.cursorCol tests 0 = some (eraseLineCols g p pen) := by
  have hcols : eraseLineCols g p pen = intRange 0 (pen.cursorCol + 1) := by
    unfold eraseLineCols
    rw [if_neg (by rw [harg]; decide), if_pos harg]
  have hfits := g.fits
  rw [CInt.fits_iff] at hcol
  have hlast : pen.cursorCol < intMax := by
    by_contra hmax
    -- the first and the last column would both be cells
    have hcell : ∀ i, 0 ≤ i → i < pen.cursorCol + 1 →
        0 ≤ cellIndex g.cols pen.cursorRow i ∧ cellIndex g.cols pen.cursorRow i < ((g.rows * g.cols : Nat) : Int) := by
      intro i h0 hi
      refine hin _ (List.mem_map_of_mem ?_)
      rw [hcols, RowMajor.mem_intRange]
      exact ⟨h0, hi⟩
    unfold intMax at hmax hfits
    have hfirst := hcell 0 (Int.le_refl 0) (by omega)
    have hend := hcell 2147483647 (by decide) (by omega)
    unfold cellIndex at hfirst hend
    generalize wrap32 (pen.cursorRow * g.cols) = base at hfirst hend
    unfold wrap32 at hfirst hend
    omega
  refine ⟨(pen.cursorCol + 1).toNat + 1, ?_⟩
  rw [hcols]
  exact eraseUpTo_eq hlast _ 0 (Int.le_refl 0) (by omega)

theorem getElem_terminalNewline_frame (s : Screen g) (k : Nat) (hk : k < g.rows * g.cols)
    (h : (k : Int) ∉ newlineTouched g s.toPen) : (terminalNewline s).buffer[k] = s.buffer[k] := by
  unfold newlineTouched at h
  unfold terminalNewline
  dsimp only
  by_cases hlast : (g.rows : Int) ≤ wrap32 (s.cursorRow + 1)
  · rw [if_pos hlast, List.mem_append, List.mem_append, not_or, not_or, RowMajor.mem_intRange] at h
    simp only [if_pos hlast]
    rw [RowMajor.getElem_storeAll, if_neg h.2, RowMajor.getElem_blockMove, if_neg (by omega)]
  · simp only [if_neg hlast]

/-- **No other cell changes.** -/
theorem exec_frame (a : Action) (s : Screen g) (k : Nat) (hk : k < g.rows * g.cols)
    (h : (k : Int) ∉ a.touched g s.toPen) : (a.exec s).buffer[k] = s.buffer[k] := by
  cases a with
  | newline => exact getElem_terminalNewline_frame s k hk h
  | carriageReturn => rfl
  | backspace =>
    unfold Action.exec
    dsimp only
    split <;> rfl
  | putChar ch =>
    unfold Action.touched putCharTouched at h
    unfold Action.exec terminalPutChar
    dsimp only at h ⊢
    split
    · rfl
    rename_i hin
    rw [if_neg hin, List.mem_cons, not_or] at h
    obtain ⟨hidx, hrest⟩ := h
    have hstore : (store s.buffer (cellIndex g.cols s.cursorRow s.cursorCol) (s.glyph ch))[k] = s.buffer[k] := by
      rw [RowMajor.getElem_store, if_neg (Ne.symm hidx)]
    by_cases hwrap : (g.cols : Int) ≤ wrap32 (s.cursorCol + 1)
    · rw [if_pos hwrap] at hrest
      simp only [if_pos hwrap]
      refine (getElem_terminalNewline_frame _ k hk ?_).trans hstore
      exact hrest
    · simp only [if_neg hwrap]
      exact hstore
  | executeCsi p cmd =>
    unfold Action.touched csiTouched at h
    dsimp only at h
    refine parserExecuteCsi_cases (motive := fun t => t.buffer[k] = s.buffer[k]) p cmd s (fun _ => rfl) (fun _ => rfl)
      (fun _ => rfl) (fun hm => ?display) (fun hm => ?line) (fun _ => rfl)
    case display =>
      rw [if_pos hm] at h
      unfold executeEraseDisplay
      split
      · rw [RowMajor.getElem_storeAll, if_neg h]
      · rfl
    case line =>
      rw [if_neg (show ¬ cmd = 74 by subst hm; decide), if_pos hm] at h
      unfold executeEraseLine
      rw [RowMajor.getElem_storeAll, if_neg h]

/-! ## Runs -/

def CsiArgs.ParamsFit (p : CsiArgs) : Prop := ∀ i, Fits (p.param i)

theorem param_digit (p : Parser) (ch : UInt8) (i : Nat) :
    (p.digit ch).param i =
      if i = p.csiParamCount ∧ i < 16 then wrap32 (p.param p.csiParamCount * 10 + ((ch.toNat : Int) - 48))
      else p.param i := by
  unfold Parser.digit CsiArgs.param
  dsimp only
  by_cases hi : i < 16
  · rw [RowMajor.getD_of_lt _ i 0 hi, RowMajor.getD_of_lt _ i 0 hi, Vector.getElem_setIfInBounds hi]
    by_cases hc : i = p.csiParamCount
    · rw [if_pos hc.symm, if_pos ⟨hc, hi⟩]
    · rw [if_neg (Ne.symm hc), if_neg (fun h => hc h.1)]
  · rw [RowMajor.getD_of_ge _ i 0 (by omega), RowMajor.getD_of_ge _ i 0 (by omega), if_neg (fun h => hi h.2)]

theorem param_parserReset (i : Nat) : parserReset.param i = 0 := by
  unfold parserReset CsiArgs.param
  dsimp only
  by_cases hi : i < 16
  · rw [RowMajor.getD_of_lt _ i 0 hi, Vector.getElem_replicate]
  · rw [RowMajor.getD_of_ge _ i 0 (by omega)]

theorem csiParams_terminate (p : Parser) : p.terminate.csiParams = p.csiParams := by
  unfold Parser.terminate
  split <;> rfl

theorem param_terminate (p : Parser) (i : Nat) : p.terminate.param i = p.param i := by
  unfold CsiArgs.param
  rw [csiParams_terminate]

theorem paramsFit_parserReset : parserReset.ParamsFit := by
  intro i
  rw [param_parserReset, CInt.fits_iff]
  omega

theorem paramsFit_next (p : Parser) (ch : UInt8) (h : p.ParamsFit) : (p.next ch).ParamsFit := by
  have hcsi : (if isDigit ch then p.digit ch else if ch = 59 then p.semicolon
      else { p.terminate with parseState := .normal }).ParamsFit := by
    split
    · intro i
      rw [param_digit]
      split
      · exact CInt.fits_wrap32 _
      · exact h i
    split
    · exact h
    · intro i
      have := h i
      rwa [← param_terminate] at this
  unfold Parser.next
  cases p.parseState with
  | normal =>
    dsimp only
    split
    · exact h
    · exact h
  | esc =>
    dsimp only
    split
    · exact paramsFit_parserReset
    · exact h
  | csi => exact hcsi
  | csiParam => exact hcsi

theorem paramsFit_after : ∀ (bs : List UInt8) (p : Parser), p.ParamsFit → (vtReader.after p bs).ParamsFit
  | [], _, h => h
  | b :: bs, p, h => paramsFit_after bs _ (paramsFit_next p b h)

theorem fits_moveCount (p : CsiArgs) (h : p.ParamsFit) : Fits (moveCount p) := by
  have h1 : Fits (1 : Int) := by rw [CInt.fits_iff]; omega
  have harg : Fits (p.arg 0 1) := by
    unfold CsiArgs.arg
    split
    · exact h 0
    · exact h1
  unfold moveCount
  split
  · exact h1
  · exact harg

def Session.InGrid (s : Session g) : Prop := s.screen.InGrid g

instance (s : Session g) : Decidable s.InGrid := by unfold Session.InGrid; exact inferInstance

/-- The buffer indices the next byte reads or writes. -/
def Session.byteTouched (s : Session g) (ch : UInt8) : List Int :=
  (s.parser.out ch).flatMap (Action.touched g s.screen.toPen)

/-- The next byte reads and writes cells of the buffer only. -/
def Session.ByteInside (s : Session g) (ch : UInt8) : Prop :=
  ∀ i ∈ s.byteTouched ch, 0 ≤ i ∧ i < ((g.rows * g.cols : Nat) : Int)

instance (s : Session g) (ch : UInt8) : Decidable (s.ByteInside ch) := by unfold Session.ByteInside; exact inferInstance

/-- The next byte is not the final byte of a relative move whose count leaves the screen. -/
def Session.ByteStays (s : Session g) (ch : UInt8) : Prop := ∀ a ∈ s.parser.out ch, a.Stays g s.screen.toPen

theorem inGrid_terminalProcessByte_iff (s : Session g) (ch : UInt8) (h : s.InGrid) (hp : s.parser.ParamsFit) :
    (terminalProcessByte s ch).InGrid ↔ s.ByteStays ch := by
  rw [terminalProcessByte_eq]
  unfold Session.ByteStays Session.InGrid
  dsimp only
  rcases out_cases s.parser ch with hout | ⟨a, hout, hemits⟩
  · rw [hout]
    exact iff_of_true h (fun a ha => by cases ha)
  · have hn : ∀ q cmd, a = .executeCsi q cmd → Fits (moveCount q) := by
      rintro q cmd rfl
      cases hemits
      exact fits_moveCount _ (fun i => by rw [param_terminate]; exact hp i)
    rw [hout]
    simp only [List.foldl_cons, List.foldl_nil, List.mem_singleton, forall_eq]
    exact exec_inGrid_iff a s.screen h hn

theorem byteTouched_inRange (s : Session g) (ch : UInt8) (h : s.InGrid) (i : Int) (hi : i ∈ s.byteTouched ch) :
    0 ≤ i ∧ i < ((g.rows * g.cols : Nat) : Int) := by
  obtain ⟨a, -, ha⟩ := List.mem_flatMap.1 hi
  exact touched_inRange a s.screen.toPen h i ha

/-- **Every byte taken on the screen stays inside the buffer.** -/
theorem byteInside_of_inGrid {s : Session g} (h : s.InGrid) (ch : UInt8) : s.ByteInside ch := byteTouched_inRange s ch h

/-- **A byte that stays inside the buffer ends**: its line is not erased up to column `INT_MAX`. -/
theorem byte_ends {s : Session g} {ch : UInt8} (h : s.ByteInside ch) (hcol : Fits s.screen.cursorCol) {p : CsiArgs}
    (hout : .executeCsi p 75 ∈ s.parser.out ch) (harg : p.arg 0 0 = 1) :
    ∃ tests, eraseUpTo s.screen.cursorCol tests 0 = some (eraseLineCols g p s.screen.toPen) := by
  refine ends_of_inside p s.screen.toPen hcol harg fun i hi => h i ?_
  exact List.mem_flatMap.2 ⟨_, hout, hi⟩

/-- **A byte changes no cell it does not touch.** -/
theorem byte_frame (s : Session g) (ch : UInt8) (k : Nat) (hk : k < g.rows * g.cols) (h : (k : Int) ∉ s.byteTouched ch) :
    (terminalProcessByte s ch).screen.buffer[k] = s.screen.buffer[k] := by
  rw [terminalProcessByte_eq]
  unfold Session.byteTouched at h
  rcases out_cases s.parser ch with hout | ⟨a, hout, -⟩
  · rw [hout]
    rfl
  · rw [hout, List.flatMap_singleton] at h
    rw [hout]
    exact exec_frame a s.screen k hk h

theorem inGrid_terminalInit (g : Geometry) : (terminalInit g).InGrid := by
  have hr := g.rows_pos
  have hc := g.cols_pos
  exact ⟨⟨by simp only [terminalInit]; omega, by simp only [terminalInit]; omega⟩,
    by simp only [terminalInit]; omega, by simp only [terminalInit]; omega⟩

/-- The invariant of a run from `terminal_init` whose steps all stay: cursor on the screen, parameters in range. -/
theorem inGrid_run (bs : List UInt8)
    (h : ∀ pre b, pre ++ [b] <+: bs → (terminalProcessBytes (terminalInit g) pre).ByteStays b) :
    ∀ pre, pre <+: bs → (terminalProcessBytes (terminalInit g) pre).InGrid := by
  refine Transducer.forall_prefix terminalProcessByte Session.InGrid (terminalInit g) bs (inGrid_terminalInit g) ?_
  intro pre b hpre hin
  have hp : (terminalProcessBytes (terminalInit g) pre).parser.ParamsFit := by
    rw [parser_terminalProcessBytes]
    exact paramsFit_after pre _ paramsFit_parserReset
  exact (inGrid_terminalProcessByte_iff _ b hin hp).2 (h pre b hpre)

/-- **The cursor stays on the screen, and every touched index is a cell, exactly in the runs that execute no relative
move whose count leaves the screen.** -/
theorem cursor_contained_iff (g : Geometry) (bs : List UInt8) :
    (∀ pre b, pre ++ [b] <+: bs →
      (terminalProcessBytes (terminalInit g) (pre ++ [b])).InGrid ∧
      ∀ i ∈ (terminalProcessBytes (terminalInit g) pre).byteTouched b, 0 ≤ i ∧ i < ((g.rows * g.cols : Nat) : Int)) ↔
    ∀ pre b, pre ++ [b] <+: bs → (terminalProcessBytes (terminalInit g) pre).ByteStays b := by
  constructor
  · intro h
    have hin : ∀ pre, pre <+: bs → (terminalProcessBytes (terminalInit g) pre).InGrid :=
      Transducer.forall_prefix terminalProcessByte Session.InGrid (terminalInit g) bs (inGrid_terminalInit g)
        (fun pre b hpre _ => by
          have := (h pre b hpre).1
          rwa [terminalProcessBytes_append] at this)
    intro pre b hpre
    have hp : (terminalProcessBytes (terminalInit g) pre).parser.ParamsFit := by
      rw [parser_terminalProcessBytes]
      exact paramsFit_after pre _ paramsFit_parserReset
    have hafter := (h pre b hpre).1
    rw [terminalProcessBytes_append] at hafter
    exact (inGrid_terminalProcessByte_iff _ b (hin pre ((List.prefix_append pre [b]).trans hpre)) hp).1 hafter
  · intro h pre b hpre
    have hin := inGrid_run bs h
    exact ⟨hin _ hpre, fun i hi =>
      byteTouched_inRange _ b (hin pre ((List.prefix_append pre [b]).trans hpre)) i hi⟩

/-- `ESC [ 4294967295 B` accumulates `-1`: the cursor goes up from the first row, where only the last row is a
bound. -/
theorem cursor_not_contained :
    ¬ ∀ (g : Geometry) (bs : List UInt8), ∀ pre b, pre ++ [b] <+: bs →
      (terminalProcessBytes (terminalInit g) (pre ++ [b])).InGrid ∧
      ∀ i ∈ (terminalProcessBytes (terminalInit g) pre).byteTouched b,
        0 ≤ i ∧ i < ((g.rows * g.cols : Nat) : Int) := by
  intro h
  have := (h ⟨2, 3, by decide, by decide, by decide⟩ [27, 91, 52, 50, 57, 52, 57, 54, 55, 50, 57, 53, 66]
    [27, 91, 52, 50, 57, 52, 57, 54, 55, 50, 57, 53] 66 (List.prefix_refl _)).1
  revert this
  decide

end Ptywrap
