import Ptywrap.Annotation
import Ptywrap.Fence
/-!
# Document — what a whole screenshot tells of the screen

A screenshot is a text of its view alone: the sizes, the cursor, the row numbers and the cells of the rows
(`screenshot_eq_markdown`).  Where the rows are legible it tells the whole view, without knowing the size of the screen
beforehand: the lines end where the closing fence does, and each number of the footer, which may be negative, ends where
its digits do (`markdown_injective`).  So two screenshots are equal exactly when the views are (`screenshot_eq_iff`).
-/
namespace Ptywrap

open RowMajor (intRange)

variable {g h : Geometry}

/-- What a screenshot shows. -/
structure View where
  rows : Nat
  cols : Nat
  cursorRow : Int
  cursorCol : Int
  range : RowRange
  lines : List (List Cell)
deriving DecidableEq

/-- What the two functions read for a start row and an end row. -/
def Screen.view (s : Screen g) (startRow endRow : Int) : View :=
  let rng := screenshotRange g startRow (apiEndRow g endRow)
  { rows := g.rows
    cols := g.cols
    cursorRow := s.cursorRow
    cursorCol := s.cursorCol
    range := rng
    lines := (intRange rng.first (rng.last + 1)).map fun row => (rowReads g row).map s.read }

namespace View

def sizes (v : View) : List UInt8 := ascii "\n*Terminal size: " ++ decimalBytes v.cols ++ ascii "x" ++ decimalBytes v.rows

def cursor (v : View) : List UInt8 :=
  ascii " | Cursor: (" ++ decimalBytes v.cursorCol ++ ascii "," ++ decimalBytes v.cursorRow

def footer (v : View) : List UInt8 := v.sizes ++ (v.cursor ++ (ascii ") | " ++ footerRows v.range.first v.range.last))

/-- The document of a view. -/
def markdown (v : View) : List UInt8 :=
  ascii "```\n" ++ (v.lines.map renderRow).flatten ++ ascii "```\n" ++ v.footer

def Legible (v : View) : Prop := ∀ row ∈ v.lines, LegibleRow row

instance (v : View) : Decidable v.Legible := inferInstanceAs (Decidable (∀ row ∈ v.lines, LegibleRow row))

end View

/-- **The document is that of the view.** -/
theorem screenshot_eq_markdown (s : Session g) (startRow endRow : Int) :
    ptywrapScreenshotMarkdown (some s) startRow endRow = some (s.screen.view startRow endRow).markdown := by
  unfold ptywrapScreenshotMarkdown screenshotToMarkdown View.markdown View.footer View.sizes View.cursor Screen.view footer
  dsimp only [Option.map_some]
  rw [List.map_map, List.flatMap_def]
  simp only [List.append_assoc]
  rfl

/-! ## Numbers -/

theorem digitByte_injective : Function.Injective digitByte := by
  unfold Function.Injective
  decide

theorem all_isDigit_numeralBytes (ds : Decimal.Numeral) : ∀ b ∈ numeralBytes ds, isDigit b = true := by
  intro b hb
  obtain ⟨d, -, rfl⟩ := List.mem_map.1 hb
  exact isDigit_digitByte d

/-- **A natural number is read back** where no digit follows. -/
theorem numeralBytes_inj {m n : Nat} {x y : List UInt8} (hx : x.head?.any isDigit = false)
    (hy : y.head?.any isDigit = false)
    (heq : numeralBytes (Decimal.ofNat m) ++ x = numeralBytes (Decimal.ofNat n) ++ y) : m = n ∧ x = y := by
  obtain ⟨hdigits, hrest⟩ := Delimited.span_inj (all_isDigit_numeralBytes _) (all_isDigit_numeralBytes _) hx hy heq
  have hnumeral := List.map_injective_iff.2 digitByte_injective hdigits
  refine ⟨?_, hrest⟩
  rw [← Decimal.value_ofNat m, hnumeral, Decimal.value_ofNat]

/-- A number without a sign does not begin with one. -/
theorem numeralBytes_ne_minus (n : Nat) (x y : List UInt8) : numeralBytes (Decimal.ofNat n) ++ x ≠ 45 :: y := by
  obtain ⟨d, ds, hds⟩ := List.exists_cons_of_ne_nil (Decimal.ofNat_ne_nil n)
  rw [hds]
  intro heq
  have hdigit := isDigit_digitByte d
  rw [(List.cons.inj heq).1] at hdigit
  revert hdigit
  decide

/-- **A number is read back**, its sign too. -/
theorem decimalBytes_inj {m n : Int} {x y : List UInt8} (hx : x.head?.any isDigit = false)
    (hy : y.head?.any isDigit = false) (heq : decimalBytes m ++ x = decimalBytes n ++ y) : m = n ∧ x = y := by
  unfold decimalBytes at heq
  by_cases hm : m < 0
  · by_cases hn : n < 0
    · rw [if_pos hm, if_pos hn] at heq
      obtain ⟨habs, hrest⟩ := numeralBytes_inj hx hy (List.cons.inj heq).2
      exact ⟨by omega, hrest⟩
    · rw [if_pos hm, if_neg hn] at heq
      exact absurd heq.symm (numeralBytes_ne_minus _ _ _)
  · by_cases hn : n < 0
    · rw [if_neg hm, if_pos hn] at heq
      exact absurd heq (numeralBytes_ne_minus _ _ _)
    · rw [if_neg hm, if_neg hn] at heq
      obtain ⟨habs, hrest⟩ := numeralBytes_inj hx hy heq
      exact ⟨by omega, hrest⟩

/-! ## The footer -/

theorem sizes_inj {v w : View} {x y : List UInt8} (hx : x.head?.any isDigit = false) (hy : y.head?.any isDigit = false)
    (heq : v.sizes ++ x = w.sizes ++ y) : (v.rows = w.rows ∧ v.cols = w.cols) ∧ x = y := by
  unfold View.sizes at heq
  simp only [List.append_assoc] at heq
  obtain ⟨hcols, heq⟩ := decimalBytes_inj rfl rfl (List.append_cancel_left heq)
  obtain ⟨hrows, hrest⟩ := decimalBytes_inj hx hy (List.append_cancel_left heq)
  exact ⟨⟨by omega, by omega⟩, hrest⟩

theorem cursor_inj {v w : View} {x y : List UInt8} (hx : x.head?.any isDigit = false)
    (hy : y.head?.any isDigit = false) (heq : v.cursor ++ x = w.cursor ++ y) :
    (v.cursorRow = w.cursorRow ∧ v.cursorCol = w.cursorCol) ∧ x = y := by
  unfold View.cursor at heq
  simp only [List.append_assoc] at heq
  obtain ⟨hcol, heq⟩ := decimalBytes_inj rfl rfl (List.append_cancel_left heq)
  obtain ⟨hrow, hrest⟩ := decimalBytes_inj hx hy (List.append_cancel_left heq)
  exact ⟨⟨hrow, hcol⟩, hrest⟩

theorem footerRows_inj {first last first' last' : Int} (heq : footerRows first last = footerRows first' last') :
    first = first' ∧ last = last' := by
  unfold footerRows at heq
  simp only [List.append_assoc] at heq
  obtain ⟨hfirst, heq⟩ := decimalBytes_inj rfl rfl (List.append_cancel_left heq)
  obtain ⟨hlast, -⟩ := decimalBytes_inj rfl rfl (List.append_cancel_left heq)
  exact ⟨hfirst, hlast⟩

/-! ## The lines -/

/-- A legible row's line ends with its newline, has no other, and does not begin as a fence. -/
theorem line_renderRow {row : List Cell} (hrow : LegibleRow row) :
    ∃ body, renderRow row = body ++ [10] ∧ 10 ∉ body ∧ body.head? ≠ some 96 := by
  obtain ⟨body, hbody, hinert⟩ := renderRow_line row fun cell hcell => (hrow.1 cell hcell).toPrintable
  exact ⟨body, hbody, hinert.newline, hinert.guarded.head⟩

theorem lines_inj : ∀ {A B : List (List Cell)}, (∀ row ∈ A, LegibleRow row) → (∀ row ∈ B, LegibleRow row) →
    A.map renderRow = B.map renderRow → A = B
  | [], [], _, _, _ => rfl
  | [], _ :: _, _, _, heq => nomatch heq
  | _ :: _, [], _, _, heq => nomatch heq
  | row :: A, row' :: B, hA, hB, heq => by
    obtain ⟨hline, hlines⟩ := List.cons.inj heq
    have hrow := hA row List.mem_cons_self
    have hrow' := hB row' List.mem_cons_self
    rw [lineAfter_inj row row' ⟨32, 7, 0, 0⟩ hrow.1 hrow'.1 hrow.2 hrow'.2 hline,
      lines_inj (fun r hr => hA r (List.mem_cons_of_mem row hr)) (fun r hr => hB r (List.mem_cons_of_mem row' hr)) hlines]

/-- **A legible view is determined by its document.** -/
theorem markdown_injective {v w : View} (hv : v.Legible) (hw : w.Legible) (heq : v.markdown = w.markdown) : v = w := by
  have hfence : ascii "```\n" = fence ++ [10] := rfl
  have hlines : ∀ {v : View}, v.Legible →
      ∀ l ∈ v.lines.map renderRow, ∃ body, l = body ++ [10] ∧ 10 ∉ body ∧ body.head? ≠ some 96 := by
    intro v hv l hl
    obtain ⟨row, hrow, rfl⟩ := List.mem_map.1 hl
    exact line_renderRow (hv row hrow)
  unfold View.markdown at heq
  rw [hfence] at heq
  simp only [List.append_assoc, List.singleton_append] at heq
  obtain ⟨hrendered, hfooter⟩ := Delimited.lines_inj (z := 10) (P := fun body => body.head? ≠ some 96) (u := fence)
    (by decide) (by decide) (hlines hv) (hlines hw) (List.cons.inj (List.append_cancel_left heq)).2
  unfold View.footer at hfooter
  obtain ⟨⟨hrows, hcols⟩, hrest⟩ := sizes_inj rfl rfl hfooter
  obtain ⟨⟨hrow, hcol⟩, hrest⟩ := cursor_inj rfl rfl hrest
  obtain ⟨hfirst, hlast⟩ := footerRows_inj (List.append_cancel_left hrest)
  have hcells := lines_inj hv hw hrendered
  obtain ⟨rows, cols, cursorRow, cursorCol, ⟨first, last⟩, lines⟩ := v
  obtain ⟨rows', cols', cursorRow', cursorCol', ⟨first', last'⟩, lines'⟩ := w
  dsimp only at hrows hcols hrow hcol hfirst hlast hcells
  rw [hrows, hcols, hrow, hcol, hfirst, hlast, hcells]

/-- **Two screenshots are equal exactly when they show the same**, whatever the two screens and ranges are. -/
theorem screenshot_eq_iff (s : Session g) (t : Session h) (a b a' b' : Int) (hs : (s.screen.view a b).Legible)
    (ht : (t.screen.view a' b').Legible) :
    ptywrapScreenshotMarkdown (some s) a b = ptywrapScreenshotMarkdown (some t) a' b' ↔
      s.screen.view a b = t.screen.view a' b' := by
  rw [screenshot_eq_markdown, screenshot_eq_markdown]
  constructor
  · intro heq
    exact markdown_injective hs ht (Option.some.inj heq)
  · intro heq
    rw [heq]

/-- An `A` on a screen of two columns, and an empty screen of two rows. -/
theorem screenshot_eq_iff_twoScreens :
    let s : Session twoCells := terminalProcessBytes (terminalInit _) [65]
    let t : Session ⟨2, 1, by decide, by decide, by decide⟩ := terminalInit _
    ptywrapScreenshotMarkdown (some s) 0 (-1) = ptywrapScreenshotMarkdown (some t) 0 (-1) ↔
      s.screen.view 0 (-1) = t.screen.view 0 (-1) :=
  screenshot_eq_iff _ _ 0 (-1) 0 (-1) (by decide) (by decide)

end Ptywrap
