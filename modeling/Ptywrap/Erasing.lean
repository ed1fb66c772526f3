import Ptywrap.Transcript
import Ptywrap.Encode
/-!
# Erasing — the three erasures in the line

`ESC[K` erases from the cursor on, `ESC[1K` up to it, `ESC[2K` the whole row.  Each changes its own columns of the
cursor's row and nothing else (`cell_eraseLine`), so the first two, in either order, make the third.
-/
namespace Ptywrap

variable {g : Geometry}

/-- Equal up to the parser's parameter scratch. -/
def SameSession (s t : Session g) : Prop := s.screen = t.screen ∧ s.parser.parseState = t.parser.parseState

inductive LineErasure where
  | toEnd
  | toCursor
  | whole
deriving DecidableEq

namespace LineErasure

def bytes : LineErasure → List UInt8
  | toEnd => [27, 91, 75]
  | toCursor => [27, 91, 49, 75]
  | whole => [27, 91, 50, 75]

/-- The columns it erases, the cursor being in column `col`. -/
def covers (col : Int) (c : Nat) : LineErasure → Prop
  | toEnd => col ≤ (c : Int)
  | toCursor => (c : Int) ≤ col
  | whole => True

instance (col : Int) (c : Nat) (e : LineErasure) : Decidable (e.covers col c) := by
  cases e <;> unfold covers <;> exact inferInstance

def numerals : LineErasure → List Decimal.Numeral
  | toEnd => []
  | toCursor => [Decimal.ofNat 1]
  | whole => [Decimal.ofNat 2]

end LineErasure

/-! ## One erasure -/

theorem screen_eraseLine (s : Session g) (hs : s.parser.parseState = .normal) (e : LineErasure) :
    (terminalProcessBytes s e.bytes).screen = executeEraseLine (intArgs (e.numerals.map fieldInt)) s.screen ∧
      (terminalProcessBytes s e.bytes).parser.parseState = .normal := by
  have hbytes : e.bytes = sequenceBytes e.numerals 75 := by cases e <;> decide
  have hlen : e.numerals.length ≤ 16 := by cases e <;> decide
  have hlone : ∀ ds, e.numerals = [ds] → ds ≠ [] := by
    cases e with
    | toEnd => intro ds h; cases h
    | toCursor => intro ds h; cases h; exact Decimal.ofNat_ne_nil 1
    | whole => intro ds h; cases h; exact Decimal.ofNat_ne_nil 2
  rw [hbytes]
  exact screen_sequenceBytes s hs e.numerals hlen hlone 75 rfl

/-- The arguments of each select its columns. -/
theorem erased_iff (e : LineErasure) (col : Int) (c : Nat) :
    Transcript.erased (intArgs (e.numerals.map fieldInt)) col c = true ↔ e.covers col c := by
  have harg : (intArgs (e.numerals.map fieldInt)).arg 0 0 =
      match e with | .toEnd => 0 | .toCursor => 1 | .whole => 2 := by cases e <;> decide
  unfold Transcript.erased
  rw [harg]
  cases e with
  | toEnd => exact decide_eq_true_iff
  | toCursor => exact decide_eq_true_iff
  | whole => exact iff_of_true rfl trivial

/-- **An erasure blanks its own columns of the cursor's row**, and changes nothing else. -/
theorem cell_eraseLine (s : Session g) (hs : s.parser.parseState = .normal) (h : s.screen.InGrid g) (e : LineErasure) :
    let s' := terminalProcessBytes s e.bytes
    s'.screen.toPen = s.screen.toPen ∧ s'.parser.parseState = .normal ∧
    ∀ (r : Fin g.rows) (c : Fin g.cols), s'.screen.cell r c =
      if s.screen.cursorRow = (r.val : Int) ∧ e.covers s.screen.cursorCol c.val then s.screen.blank
      else s.screen.cell r c := by
  obtain ⟨hscreen, hnormal⟩ := screen_eraseLine s hs e
  dsimp only
  rw [hscreen]
  refine ⟨rfl, hnormal, fun r c => ?_⟩
  rw [cell_executeEraseLine _ s.screen h]
  simp only [mem_eraseLineCols, erased_iff]

/-! ## Two of them -/

/-- **One erasure after another blanks the columns of both.** -/
theorem cell_eraseLine_twice (s : Session g) (hs : s.parser.parseState = .normal) (h : s.screen.InGrid g)
    (e e' : LineErasure) :
    let s' := terminalProcessBytes s (e.bytes ++ e'.bytes)
    s'.screen.toPen = s.screen.toPen ∧ s'.parser.parseState = .normal ∧
    ∀ (r : Fin g.rows) (c : Fin g.cols), s'.screen.cell r c =
      if s.screen.cursorRow = (r.val : Int) ∧ (e.covers s.screen.cursorCol c.val ∨ e'.covers s.screen.cursorCol c.val)
      then s.screen.blank else s.screen.cell r c := by
  obtain ⟨hpen, hnormal, hcell⟩ := cell_eraseLine s hs h e
  dsimp only
  rw [terminalProcessBytes_append]
  generalize terminalProcessBytes s e.bytes = t at hpen hnormal hcell
  have hin : t.screen.InGrid g := by rw [hpen]; exact h
  obtain ⟨hpen', hnormal', hcell'⟩ := cell_eraseLine t hnormal hin e'
  refine ⟨hpen'.trans hpen, hnormal', fun r c => ?_⟩
  rw [hcell', hcell, hpen]
  by_cases hr : s.screen.cursorRow = (r.val : Int)
  · by_cases he : e.covers s.screen.cursorCol c.val
    · simp [hr, he]
    · simp [hr, he]
  · simp [hr]

theorem sameSession_of_covers (s : Session g) (hs : s.parser.parseState = .normal) (h : s.screen.InGrid g)
    (e e' f : LineErasure)
    (hcovers : ∀ c : Fin g.cols, e.covers s.screen.cursorCol c.val ∨ e'.covers s.screen.cursorCol c.val ↔
      f.covers s.screen.cursorCol c.val) :
    SameSession (terminalProcessBytes s (e.bytes ++ e'.bytes)) (terminalProcessBytes s f.bytes) := by
  obtain ⟨hpen, hnormal, hcell⟩ := cell_eraseLine_twice s hs h e e'
  obtain ⟨hpen', hnormal', hcell'⟩ := cell_eraseLine s hs h f
  refine ⟨Screen.ext_cell (hpen.trans hpen'.symm) fun r c => ?_, hnormal.trans hnormal'.symm⟩
  rw [hcell, hcell']
  simp only [hcovers c]

/-- **Erasing in the line splits at the cursor.** -/
theorem eraseLine_splits (s : Session g) (hs : s.parser.parseState = .normal) (h : s.screen.InGrid g) :
    SameSession (terminalProcessBytes s ([27, 91, 75] ++ [27, 91, 49, 75])) (terminalProcessBytes s [27, 91, 50, 75]) ∧
    SameSession (terminalProcessBytes s ([27, 91, 49, 75] ++ [27, 91, 75])) (terminalProcessBytes s [27, 91, 50, 75]) ∧
    ∀ e : LineErasure,
      SameSession (terminalProcessBytes s (e.bytes ++ e.bytes)) (terminalProcessBytes s e.bytes) ∧
      (terminalProcessBytes s e.bytes).screen.toPen = s.screen.toPen ∧
      ∀ (r : Fin g.rows) (c : Fin g.cols), (terminalProcessBytes s e.bytes).screen.cell r c =
        if s.screen.cursorRow = (r.val : Int) ∧ e.covers s.screen.cursorCol c.val then s.screen.blank
        else s.screen.cell r c := by
  have htile : ∀ c : Fin g.cols, s.screen.cursorCol ≤ (c.val : Int) ∨ (c.val : Int) ≤ s.screen.cursorCol :=
    fun c => Int.le_total _ _
  refine ⟨?_, ?_, fun e => ⟨?_, ?_⟩⟩
  · exact sameSession_of_covers s hs h .toEnd .toCursor .whole fun c => iff_of_true (htile c) trivial
  · exact sameSession_of_covers s hs h .toCursor .toEnd .whole fun c => iff_of_true (htile c).symm trivial
  · exact sameSession_of_covers s hs h e e e fun c => or_self_iff
  · obtain ⟨hpen, -, hcell⟩ := cell_eraseLine s hs h e
    exact ⟨hpen, hcell⟩

/-- The middle column of a screen with a `b` in it. -/
theorem eraseLine_splits_middle :
    let g : Geometry := ⟨2, 3, by decide, by decide, by decide⟩
    let s : Session g := terminalProcessBytes (terminalInit g) [97, 98, 8]
    s.screen.InGrid g ∧
      SameSession (terminalProcessBytes s ([27, 91, 75] ++ [27, 91, 49, 75])) (terminalProcessBytes s [27, 91, 50, 75]) :=
  ⟨by decide, (eraseLine_splits _ (by decide) (by decide)).1⟩

end Ptywrap
