import Ptywrap.Encode
/-!
# Screenshot — `ptywrap_screenshot_markdown` (`api.c`, `screenshot.c`)

The document is a byte list: a code fence, one line for each row of the range, the closing fence and a footer.  A line
is read cell by cell; the loop's formatting variables are a `RowStyle`, and `styler` is the reader that turns cells into
text.  Two functions clamp the range one after the other and the second swaps it, which brings a start past the screen
to the end, where no bound is checked any more (`screenshot_inRange_iff`).

The document is the one built when every allocation succeeds; `Builder` has the calls that build it.
-/
namespace Ptywrap

open RowMajor (intRange)

variable {g : Geometry}

def ascii (s : String) : List UInt8 := s.toList.map fun c => UInt8.ofNat c.toNat

/-- `%d`. -/
def decimalBytes (n : Int) : List UInt8 :=
  if n < 0 then 45 :: numeralBytes (Decimal.ofNat (-n).toNat) else numeralBytes (Decimal.ofNat n.toNat)

/-! ## One line -/

def colorNames : List String :=
  ["black", "red", "green", "yellow", "blue", "magenta", "cyan", "white", "bright-black", "bright-red", "bright-green",
    "bright-yellow", "bright-blue", "bright-magenta", "bright-cyan", "bright-white"]

def ansiToColorName (color : UInt8) : List UInt8 := ascii (colorNames.getD color.toNat "default")

/-- What `append_escaped_char` appends: a backtick gets a backslash. -/
def escapedChar (ch : UInt8) : List UInt8 := if ch = 96 then [92, ch] else [ch]

def Cell.needsStyling (cell : Cell) : Bool := cell.fgColor != 7 || cell.bgColor != 0 || cell.attrs != 0

/-- The annotation of a styled section. -/
def styleHints (cell : Cell) : List UInt8 :=
  (if cell.attrs &&& attrBold ≠ 0 then ascii "(bold)" else []) ++
  (if cell.attrs &&& attrUnderline ≠ 0 then ascii "(underline)" else []) ++
  (if cell.attrs &&& attrReverse ≠ 0 then ascii "(reverse)" else []) ++
  (if cell.fgColor ≠ 7 then ascii "(fg:" ++ ansiToColorName cell.fgColor ++ ascii ")" else []) ++
  (if cell.bgColor ≠ 0 then ascii "(bg:" ++ ansiToColorName cell.bgColor ++ ascii ")" else [])

/-- The formatting variables of the row loop. -/
structure RowStyle where
  currentFg : UInt8
  currentBg : UInt8
  currentAttrs : UInt8
  inStyledSection : Bool

namespace RowStyle

def init : RowStyle := ⟨7, 0, 0, false⟩

def formattingChanged (st : RowStyle) (cell : Cell) : Bool :=
  cell.fgColor != st.currentFg || cell.bgColor != st.currentBg || cell.attrs != st.currentAttrs

def close (st : RowStyle) : List UInt8 := if st.inStyledSection then ascii "]" else []

def next (st : RowStyle) (cell : Cell) : RowStyle :=
  if st.formattingChanged cell then ⟨cell.fgColor, cell.bgColor, cell.attrs, cell.needsStyling⟩ else st

def out (st : RowStyle) (cell : Cell) : List UInt8 :=
  (if st.formattingChanged cell then
    st.close ++ (if cell.needsStyling then ascii "[" ++ styleHints cell else [])
   else []) ++ escapedChar cell.ch

end RowStyle

/-- The body of the column loop. -/
def styler : Transducer RowStyle Cell UInt8 := ⟨RowStyle.next, RowStyle.out⟩

/-- The body of the row loop, on the cells of the row. -/
def renderRow (cells : List Cell) : List UInt8 :=
  styler.outputs RowStyle.init cells ++ (styler.after RowStyle.init cells).close ++ ascii "\n"

/-! ## The range -/

structure RowRange where
  first : Int
  last : Int
deriving DecidableEq, Repr

/-- The range `screenshot_to_markdown` renders: clamped, then put in order. -/
def screenshotRange (g : Geometry) (startRow endRow : Int) : RowRange :=
  let startRow := if startRow < 0 then 0 else startRow
  let endRow := if endRow < 0 ∨ (g.rows : Int) ≤ endRow then (g.rows : Int) - 1 else endRow
  if endRow < startRow then ⟨endRow, startRow⟩ else ⟨startRow, endRow⟩

/-- The end row `ptywrap_screenshot_markdown` passes on: negative is the last row. -/
def apiEndRow (g : Geometry) (endRow : Int) : Int := if endRow < 0 then (g.rows : Int) - 1 else endRow

def rowReads (g : Geometry) (row : Int) : List Int := (intRange 0 g.cols).map (cellIndex g.cols row)

def screenshotReads (g : Geometry) (rng : RowRange) : List Int :=
  (intRange rng.first (rng.last + 1)).flatMap (rowReads g)

/-! ## The document -/

def footerRows (first last : Int) : List UInt8 :=
  ascii "Rows: " ++ decimalBytes first ++ ascii "-" ++ decimalBytes last ++ ascii "*\n"

def footer (s : Screen g) (rng : RowRange) : List UInt8 :=
  ascii "\n*Terminal size: " ++ decimalBytes g.cols ++ ascii "x" ++ decimalBytes g.rows ++ ascii " | Cursor: (" ++
    decimalBytes s.cursorCol ++ ascii "," ++ decimalBytes s.cursorRow ++ ascii ") | " ++ footerRows rng.first rng.last

def screenshotToMarkdown (s : Screen g) (startRow endRow : Int) : List UInt8 :=
  let rng := screenshotRange g startRow endRow
  ascii "```\n" ++
    (intRange rng.first (rng.last + 1)).flatMap (fun row => renderRow ((rowReads g row).map s.read)) ++
    ascii "```\n" ++ footer s rng

def ptywrapScreenshotMarkdown (session : Option (Session g)) (startRow endRow : Int) : Option (List UInt8) :=
  session.map fun sess => screenshotToMarkdown sess.screen startRow (apiEndRow g endRow)

/-! ## The range is on the screen -/

/-- **The range is ordered**, and it ends on the screen exactly when the start row does not lie below it. -/
theorem screenshotRange_cases (g : Geometry) (startRow endRow : Int) :
    0 ≤ (screenshotRange g startRow endRow).first ∧
      (screenshotRange g startRow endRow).first ≤ (screenshotRange g startRow endRow).last ∧
      ((screenshotRange g startRow endRow).last < g.rows ↔ startRow < g.rows) := by
  have hr := g.rows_pos
  unfold screenshotRange
  dsimp only
  by_cases hs : startRow < 0
  · rw [if_pos hs]
    split <;> split <;> refine ⟨?_, ?_, ?_⟩ <;> simp only <;> omega
  · rw [if_neg hs]
    split <;> split <;> refine ⟨?_, ?_, ?_⟩ <;> simp only <;> omega

theorem screenshotReads_inRange {rng : RowRange} (h0 : 0 ≤ rng.first) (hlast : rng.last < g.rows) (i : Int)
    (hi : i ∈ screenshotReads g rng) : 0 ≤ i ∧ i < ((g.rows * g.cols : Nat) : Int) := by
  unfold screenshotReads rowReads at hi
  obtain ⟨row, hrow, hi⟩ := List.mem_flatMap.1 hi
  obtain ⟨col, hcol, rfl⟩ := List.mem_map.1 hi
  rw [RowMajor.mem_intRange] at hrow hcol
  exact cellIndex_inRange (by omega) hcol

theorem footerRows_suffix (s : Screen g) (startRow endRow : Int) :
    footerRows (screenshotRange g startRow endRow).first (screenshotRange g startRow endRow).last <:+
      screenshotToMarkdown s startRow endRow := by
  unfold screenshotToMarkdown footer
  exact (List.suffix_append _ _).trans (List.suffix_append _ _)

/-- **The screenshot stays on the screen exactly when its start row is above the screen's end**: the rows rendered are
rows of the screen in order, every index read is a cell, and the footer names the two rows. -/
theorem screenshot_inRange_iff (s : Session g) (startRow endRow : Int) :
    (let rng := screenshotRange g startRow (apiEndRow g endRow)
     (0 ≤ rng.first ∧ rng.first ≤ rng.last ∧ rng.last < g.rows) ∧
     (∀ i ∈ screenshotReads g rng, 0 ≤ i ∧ i < ((g.rows * g.cols : Nat) : Int)) ∧
     ∃ (a b : Fin g.rows) (doc : List UInt8),
       ptywrapScreenshotMarkdown (some s) startRow endRow = some doc ∧ footerRows a.val b.val <:+ doc) ↔
      startRow < g.rows := by
  obtain ⟨h0, hle, hlast⟩ := screenshotRange_cases g startRow (apiEndRow g endRow)
  have hsuffix := footerRows_suffix s.screen startRow (apiEndRow g endRow)
  dsimp only
  constructor
  · rintro ⟨⟨-, -, h⟩, -⟩
    exact hlast.1 h
  · intro h
    have hl := hlast.2 h
    generalize screenshotRange g startRow (apiEndRow g endRow) = rng at *
    refine ⟨⟨h0, hle, hl⟩, screenshotReads_inRange h0 hl,
      ⟨rng.first.toNat, by omega⟩, ⟨rng.last.toNat, by omega⟩, _, rfl, ?_⟩
    simp only
    rw [Int.toNat_of_nonneg h0, Int.toNat_of_nonneg (Int.le_trans h0 hle)]
    exact hsuffix

/-- Rows `100` to `5` of a screen of two are rows `1` to `100`. -/
theorem screenshot_outOfRange :
    ¬ ∀ (g : Geometry) (s : Session g) (startRow endRow : Int),
      let rng := screenshotRange g startRow (apiEndRow g endRow)
      (0 ≤ rng.first ∧ rng.first ≤ rng.last ∧ rng.last < g.rows) ∧
      (∀ i ∈ screenshotReads g rng, 0 ≤ i ∧ i < ((g.rows * g.cols : Nat) : Int)) ∧
      ∃ (a b : Fin g.rows) (doc : List UInt8),
        ptywrapScreenshotMarkdown (some s) startRow endRow = some doc ∧ footerRows a.val b.val <:+ doc := by
  intro h
  have hlast := (h ⟨2, 3, by decide, by decide, by decide⟩ (terminalInit _) 100 5).1.2.2
  revert hlast
  decide

end Ptywrap
