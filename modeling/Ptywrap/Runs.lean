import Mathlib.Data.List.SplitBy
import Ptywrap.Screenshot
/-!
# Runs — a row of the screenshot, run by run

The row loop compares each cell with the style of the one before.  What it writes is, for each maximal run of cells of
one style, the characters of the run, between brackets and behind its hints unless the style is the default one
(`renderRow_eq_runs`).
-/
namespace Ptywrap

def Cell.sameStyle (a b : Cell) : Bool := a.fgColor == b.fgColor && a.bgColor == b.bgColor && a.attrs == b.attrs

/-- The hints of a style in their order. -/
def hintWords (cell : Cell) : List (List UInt8) :=
  (if cell.attrs &&& attrBold ≠ 0 then [ascii "(bold)"] else []) ++
  (if cell.attrs &&& attrUnderline ≠ 0 then [ascii "(underline)"] else []) ++
  (if cell.attrs &&& attrReverse ≠ 0 then [ascii "(reverse)"] else []) ++
  (if cell.fgColor ≠ 7 then [ascii "(fg:" ++ ansiToColorName cell.fgColor ++ ascii ")"] else []) ++
  (if cell.bgColor ≠ 0 then [ascii "(bg:" ++ ansiToColorName cell.bgColor ++ ascii ")"] else [])

def escapedChars (cells : List Cell) : List UInt8 := cells.flatMap fun cell => escapedChar cell.ch

/-- The text of a run of cells of one style. -/
def renderRun : List Cell → List UInt8
  | [] => []
  | cell :: cells =>
    if cell.fgColor = 7 ∧ cell.bgColor = 0 ∧ cell.attrs = 0 then escapedChars (cell :: cells)
    else ascii "[" ++ (hintWords cell).flatten ++ escapedChars (cell :: cells) ++ ascii "]"

namespace RowStyle

/-- The formatting variables after a cell. -/
def ofCell (cell : Cell) : RowStyle := ⟨cell.fgColor, cell.bgColor, cell.attrs, cell.needsStyling⟩

/-- What opens the section of a run that begins with this cell. -/
def opening (cell : Cell) : List UInt8 := if cell.needsStyling then ascii "[" ++ styleHints cell else []

end RowStyle

open RowStyle (ofCell opening)

/-! ## One cell -/

theorem sameStyle_iff (a b : Cell) :
    a.sameStyle b = true ↔ a.fgColor = b.fgColor ∧ a.bgColor = b.bgColor ∧ a.attrs = b.attrs := by
  unfold Cell.sameStyle
  rw [Bool.and_eq_true, Bool.and_eq_true, beq_iff_eq, beq_iff_eq, beq_iff_eq, and_assoc]

theorem needsStyling_eq_false_iff (a : Cell) :
    a.needsStyling = false ↔ a.fgColor = 7 ∧ a.bgColor = 0 ∧ a.attrs = 0 := by
  unfold Cell.needsStyling
  simp [and_assoc]

theorem needsStyling_of_sameStyle {a b : Cell} (h : a.sameStyle b = true) : a.needsStyling = b.needsStyling := by
  obtain ⟨hfg, hbg, hattrs⟩ := (sameStyle_iff a b).1 h
  unfold Cell.needsStyling
  rw [hfg, hbg, hattrs]

theorem ofCell_of_sameStyle {a b : Cell} (h : a.sameStyle b = true) : ofCell a = ofCell b := by
  have hneeds := needsStyling_of_sameStyle h
  obtain ⟨hfg, hbg, hattrs⟩ := (sameStyle_iff a b).1 h
  unfold ofCell
  rw [hfg, hbg, hattrs, hneeds]

theorem formattingChanged_ofCell (c d : Cell) : (ofCell c).formattingChanged d = !c.sameStyle d := by
  unfold RowStyle.formattingChanged ofCell Cell.sameStyle
  simp only [bne, Bool.not_and, BEq.comm (a := c.fgColor), BEq.comm (a := c.bgColor), BEq.comm (a := c.attrs)]

/-- **After a cell the variables are those of the cell**, whatever they were. -/
theorem next_ofCell (c d : Cell) : styler.next (ofCell c) d = ofCell d := by
  show (ofCell c).next d = ofCell d
  unfold RowStyle.next
  rw [formattingChanged_ofCell]
  cases h : c.sameStyle d with
  | true => exact ofCell_of_sameStyle h
  | false => rfl

theorem out_of_sameStyle {c d : Cell} (h : c.sameStyle d = true) : styler.out (ofCell c) d = escapedChar d.ch := by
  show (ofCell c).out d = escapedChar d.ch
  unfold RowStyle.out
  rw [formattingChanged_ofCell, h]
  rfl

/-- **A new style closes the open section and opens its own.** -/
theorem out_of_changed {c d : Cell} (h : c.sameStyle d = false) :
    styler.out (ofCell c) d = (ofCell c).close ++ opening d ++ escapedChar d.ch := by
  show (ofCell c).out d = _
  unfold RowStyle.out
  rw [formattingChanged_ofCell, h]
  rfl

theorem close_ofCell (c : Cell) : (ofCell c).close = if c.needsStyling then ascii "]" else [] := rfl

/-- From the default style it makes no difference whether the style changes. -/
theorem out_of_plain {c : Cell} (h : c.needsStyling = false) (d : Cell) :
    styler.out (ofCell c) d = opening d ++ escapedChar d.ch := by
  cases hs : c.sameStyle d with
  | true =>
    have hd : d.needsStyling = false := (needsStyling_of_sameStyle hs).symm.trans h
    rw [out_of_sameStyle hs]
    unfold opening
    rw [hd]
    rfl
  | false =>
    rw [out_of_changed hs, close_ofCell, h]
    rfl

/-! ## One run -/

theorem styleHints_eq (cell : Cell) : styleHints cell = (hintWords cell).flatten := by
  unfold styleHints hintWords
  simp only [List.flatten_append, apply_ite List.flatten, List.flatten_nil, List.flatten_singleton]

theorem renderRun_cons (d : Cell) (ds : List Cell) :
    renderRun (d :: ds) = opening d ++ escapedChars (d :: ds) ++ (ofCell d).close := by
  unfold renderRun opening
  dsimp only
  rw [close_ofCell, ← styleHints_eq]
  cases h : d.needsStyling with
  | false =>
    rw [if_pos ((needsStyling_eq_false_iff d).1 h), if_neg Bool.false_ne_true, if_neg Bool.false_ne_true,
      List.append_nil]
    rfl
  | true =>
    rw [if_neg (fun hd => absurd ((needsStyling_eq_false_iff d).2 hd) (by rw [h]; decide)), if_pos rfl, if_pos rfl]

/-- **Inside a run only characters are written.** -/
theorem outputs_run : ∀ (ds : List Cell) (d : Cell), (∀ x ∈ ds, d.sameStyle x = true) →
    styler.outputs (ofCell d) ds = escapedChars ds ∧ styler.after (ofCell d) ds = ofCell d
  | [], _, _ => ⟨rfl, rfl⟩
  | x :: ds, d, h => by
    have hx := h x List.mem_cons_self
    obtain ⟨ih1, ih2⟩ := outputs_run ds d fun y hy => h y (List.mem_cons_of_mem x hy)
    rw [Transducer.outputs_cons, Transducer.after_cons, next_ofCell, out_of_sameStyle hx, ← ofCell_of_sameStyle hx, ih1,
      ih2]
    exact ⟨rfl, rfl⟩

/-! ## A row -/

theorem sameStyle_of_isChain : ∀ (ds : List Cell) (d : Cell), (d :: ds).IsChain (fun x y => x.sameStyle y) →
    ∀ x ∈ ds, d.sameStyle x = true
  | [], _, _, _, hx => by cases hx
  | e :: ds, d, h, x, hx => by
    rw [List.isChain_cons_cons] at h
    rcases List.mem_cons.1 hx with rfl | hx
    · exact h.1
    · have hex := sameStyle_of_isChain ds e h.2 x hx
      rw [sameStyle_iff] at *
      obtain ⟨⟨h1, h2, h3⟩, -⟩ := h
      exact ⟨h1.trans hex.1, h2.trans hex.2.1, h3.trans hex.2.2⟩

/-- The style of a run differs from that of the next run's first cell. -/
theorem sameStyle_next (d : Cell) (ds : List Cell) (rest : List (List Cell)) (hn : [] ∉ rest)
    (hsame : ∀ x ∈ ds, d.sameStyle x = true)
    (hnext : ((d :: ds) :: rest).IsChain fun a b => ∃ ha hb, (a.getLast ha).sameStyle (b.head hb) = false) :
    ∀ e ∈ rest.flatten.head?, d.sameStyle e = false := by
  intro e he
  cases rest with
  | nil => cases he
  | cons run rest =>
    rw [List.isChain_cons_cons] at hnext
    obtain ⟨⟨hlast, hhead, hdiffer⟩, -⟩ := hnext
    cases run with
    | nil => exact absurd List.mem_cons_self hn
    | cons e' es =>
      obtain rfl : e' = e := Option.some.inj he
      -- the last cell of the run has the style of its first
      have hd : ofCell d = ofCell ((d :: ds).getLast hlast) := by
        rcases List.mem_cons.1 (List.getLast_mem hlast) with h | h
        · rw [h]
        · exact ofCell_of_sameStyle (hsame _ h)
      have hchanged : (ofCell d).formattingChanged e' = true := by
        rw [hd, formattingChanged_ofCell, List.head_cons] at *
        rw [hdiffer]
        rfl
      rw [formattingChanged_ofCell] at hchanged
      simpa using hchanged

/-- **The loop over maximal runs** closes what is open and renders run after run. -/
theorem outputs_runs : ∀ (runs : List (List Cell)) (c : Cell), [] ∉ runs →
    (∀ run ∈ runs, run.IsChain fun x y => x.sameStyle y) →
    (runs.IsChain fun a b => ∃ ha hb, (a.getLast ha).sameStyle (b.head hb) = false) →
    (c.needsStyling = false ∨ ∀ d ∈ runs.flatten.head?, c.sameStyle d = false) →
    styler.outputs (ofCell c) runs.flatten ++ (styler.after (ofCell c) runs.flatten).close =
      (ofCell c).close ++ runs.flatMap renderRun
  | [], c, _, _, _, _ => (List.append_nil _).symm
  | [] :: _, _, hn, _, _, _ => absurd List.mem_cons_self hn
  | (d :: ds) :: rest, c, hn, hrun, hnext, hc => by
    have hsame := sameStyle_of_isChain ds d (hrun _ List.mem_cons_self)
    have hn' : [] ∉ rest := fun h => hn (List.mem_cons_of_mem _ h)
    have ih := outputs_runs rest d hn' (fun run hr => hrun run (List.mem_cons_of_mem _ hr)) hnext.tail
      (.inr (sameStyle_next d ds rest hn' hsame hnext))
    obtain ⟨hout, hafter⟩ := outputs_run ds d hsame
    have hfirst : styler.out (ofCell c) d = (ofCell c).close ++ opening d ++ escapedChar d.ch := by
      rcases hc with hplain | hdiffer
      · rw [out_of_plain hplain, close_ofCell, hplain]
        rfl
      · exact out_of_changed (hdiffer d rfl)
    rw [List.flatten_cons, List.cons_append, Transducer.outputs_cons, Transducer.after_cons, next_ofCell, hfirst,
      Transducer.outputs_append, Transducer.after_append, hout, hafter, List.flatMap_cons, renderRun_cons]
    have hchars : escapedChars (d :: ds) = escapedChar d.ch ++ escapedChars ds := rfl
    simp only [List.append_assoc, hchars]
    rw [ih]

/-- **A row is rendered run by run.** -/
theorem renderRow_eq_runs (cells : List Cell) :
    renderRow cells = (cells.splitBy Cell.sameStyle).flatMap renderRun ++ ascii "\n" := by
  have hruns := outputs_runs (cells.splitBy Cell.sameStyle) ⟨32, 7, 0, 0⟩ (List.nil_notMem_splitBy _ _)
    (fun _ => List.isChain_of_mem_splitBy) (List.isChain_getLast_head_splitBy _ _) (.inl rfl)
  rw [List.flatten_splitBy] at hruns
  exact congrArg (· ++ ascii "\n") hruns

/-- A styled run, a plain one and one up to the last column. -/
example : renderRow [⟨97, 2, 0, 1⟩, ⟨96, 2, 0, 1⟩, ⟨98, 7, 0, 0⟩, ⟨99, 7, 4, 0⟩] =
    ascii "[(bold)(fg:green)a\\`]b[(bg:blue)c]\n" := by decide

end Ptywrap
