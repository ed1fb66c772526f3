import Ptywrap.Occurrence
import Ptywrap.Printable
import Ptywrap.Screenshot
/-!
# Fence — the screen cannot break out of its code block

Everything rendered into a line is `Inert`: it has no newline, does not begin with a backtick, and has no two backticks
side by side, because `append_escaped_char` puts a backslash before each.  Inert pieces stay inert side by side, so the
document has one line for each row and the fences at its two ends are its only triple backticks (`screenshot_fences`).
-/
namespace Ptywrap

open Occurrence (Guarded)
open RowMajor (intRange)

variable {g : Geometry}

def fence : List UInt8 := ascii "```"

/-- A piece of a line: no newline, and guarded against backticks. -/
structure Inert (l : List UInt8) : Prop where
  newline : 10 ∉ l
  guarded : Guarded 96 l

theorem inert_nil : Inert [] := ⟨List.not_mem_nil, Occurrence.guarded_nil 96⟩

theorem Inert.append {l m : List UInt8} (hl : Inert l) (hm : Inert m) : Inert (l ++ m) :=
  ⟨fun h => (List.mem_append.1 h).elim hl.newline hm.newline, hl.guarded.append hm.guarded⟩

theorem inert_of_plain {l : List UInt8} (h : 10 ∉ l ∧ 96 ∉ l) : Inert l :=
  ⟨h.1, Occurrence.guarded_of_not_mem h.2⟩

theorem inert_ite {c : Prop} [Decidable c] {l m : List UInt8} (hl : Inert l) (hm : Inert m) :
    Inert (if c then l else m) := by
  split
  · exact hl
  · exact hm

/-! ## The pieces of a line -/

theorem inert_ansiToColorName (color : UInt8) : Inert (ansiToColorName color) := by
  have hnames : ∀ name ∈ "default" :: colorNames, 10 ∉ ascii name ∧ 96 ∉ ascii name := by decide
  unfold ansiToColorName
  refine inert_of_plain (hnames _ ?_)
  rw [List.getD_eq_getElem?_getD]
  cases h : colorNames[color.toNat]? with
  | none => exact List.mem_cons_self
  | some name => exact List.mem_cons_of_mem _ (List.mem_of_getElem? h)

theorem inert_styleHints (cell : Cell) : Inert (styleHints cell) := by
  have hname := fun color => inert_ansiToColorName color
  unfold styleHints
  refine ((((inert_ite ?_ inert_nil).append (inert_ite ?_ inert_nil)).append (inert_ite ?_ inert_nil)).append
    (inert_ite ?_ inert_nil)).append (inert_ite ?_ inert_nil)
  · exact inert_of_plain (by decide)
  · exact inert_of_plain (by decide)
  · exact inert_of_plain (by decide)
  · exact ((inert_of_plain (by decide)).append (hname _)).append (inert_of_plain (by decide))
  · exact ((inert_of_plain (by decide)).append (hname _)).append (inert_of_plain (by decide))

/-- **An escaped character is inert**, whatever it is but a newline. -/
theorem inert_escapedChar {ch : UInt8} (h : ch ≠ 10) : Inert (escapedChar ch) := by
  unfold escapedChar
  split
  · rename_i h96
    subst h96
    exact ⟨by decide, by decide, by simp [Occurrence.Apart]⟩
  · rename_i h96
    exact inert_of_plain ⟨fun hm => h (List.mem_singleton.1 hm).symm, fun hm => h96 (List.mem_singleton.1 hm).symm⟩

theorem inert_close (st : RowStyle) : Inert st.close := inert_ite (inert_of_plain (by decide)) inert_nil

theorem inert_out (st : RowStyle) {cell : Cell} (h : cell.Printable) : Inert (st.out cell) := by
  have hch : cell.ch ≠ 10 := by
    intro h10
    have h32 := h.ch.1
    rw [h10] at h32
    exact absurd h32 (by decide)
  have hopen : Inert (ascii "[" ++ styleHints cell) := (inert_of_plain (by decide)).append (inert_styleHints cell)
  unfold RowStyle.out
  exact (inert_ite ((inert_close st).append (inert_ite hopen inert_nil)) inert_nil).append (inert_escapedChar hch)

theorem inert_outputs : ∀ (cells : List Cell) (st : RowStyle), (∀ cell ∈ cells, cell.Printable) →
    Inert (styler.outputs st cells)
  | [], _, _ => inert_nil
  | cell :: cells, st, h =>
    (inert_out st (h cell List.mem_cons_self)).append
      (inert_outputs cells _ fun x hx => h x (List.mem_cons_of_mem cell hx))

/-- **A rendered row is one line.** -/
theorem renderRow_line (cells : List Cell) (h : ∀ cell ∈ cells, cell.Printable) :
    ∃ body, renderRow cells = body ++ [10] ∧ Inert body :=
  ⟨_, rfl, (inert_outputs cells RowStyle.init h).append (inert_close _)⟩

/-! ## The rows of the range -/

theorem screenshotRange_of_fin (a b : Fin g.rows) :
    screenshotRange g a.val b.val = ⟨((min a.val b.val : Nat) : Int), ((max a.val b.val : Nat) : Int)⟩ := by
  have ha := a.isLt
  have hb := b.isLt
  unfold screenshotRange
  dsimp only
  rw [if_neg (show ¬ (a.val : Int) < 0 by omega), if_neg (show ¬ ((b.val : Int) < 0 ∨ (g.rows : Int) ≤ (b.val : Int)) by omega)]
  rcases Nat.lt_or_ge b.val a.val with h | h
  · rw [if_pos (by omega), Nat.min_eq_right (Nat.le_of_lt h), Nat.max_eq_left (Nat.le_of_lt h)]
  · rw [if_neg (by omega), Nat.min_eq_left h, Nat.max_eq_right h]

theorem map_read_rowReads (s : Screen g) (r : Fin g.rows) :
    (rowReads g r.val).map s.read = List.ofFn (s.cell r) := by
  unfold rowReads intRange
  apply List.ext_getElem
  · simp
  · intro c h1 h2
    rw [List.length_ofFn] at h2
    rw [List.getElem_map, List.getElem_map, List.getElem_map, List.getElem_range, List.getElem_ofFn, Int.zero_add,
      cellIndex_of_inGrid g r ⟨c, h2⟩ rfl rfl, s.read_flat]

/-- The lines of the document. -/
def renderedRows (s : Screen g) (rng : RowRange) : List (List UInt8) :=
  (intRange rng.first (rng.last + 1)).map fun row => renderRow ((rowReads g row).map s.read)

theorem getElem?_renderedRows (s : Screen g) (first last i : Nat) (r : Fin g.rows) (hr : r.val = first + i)
    (hi : first + i ≤ last) :
    (renderedRows s ⟨(first : Int), (last : Int)⟩)[i]? = some (renderRow (List.ofFn (s.cell r))) := by
  have hrow : (first : Int) + (i : Int) = ((r.val : Nat) : Int) := by omega
  unfold renderedRows intRange
  rw [List.getElem?_map, List.getElem?_map, List.getElem?_range (by simp only; omega), Option.map_some, Option.map_some,
    hrow, map_read_rowReads]

theorem length_renderedRows (s : Screen g) (first last : Nat) (h : first ≤ last) :
    (renderedRows s ⟨(first : Int), (last : Int)⟩).length = last - first + 1 := by
  unfold renderedRows intRange
  simp only [List.length_map, List.length_range]
  omega

/-! ## The document -/

theorem not_mem_decimalBytes (n : Int) : 96 ∉ decimalBytes n := by
  have hdigits : ∀ ds, 96 ∉ numeralBytes ds := fun ds h => absurd (isParamChar_numeralBytes ds 96 h) (by decide)
  unfold decimalBytes
  split
  · intro h
    rcases List.mem_cons.1 h with h | h
    · exact absurd h (by decide)
    · exact hdigits _ h
  · exact hdigits _

theorem not_mem_footer (s : Screen g) (rng : RowRange) : 96 ∉ footer s rng := by
  have hplain : ∀ text ∈ ["\n*Terminal size: ", "x", " | Cursor: (", ",", ") | ", "Rows: ", "-", "*\n"],
      96 ∉ ascii text := by decide
  unfold footer footerRows
  simp only [List.mem_append, not_or]
  simp [not_mem_decimalBytes, hplain]

theorem getLast?_lines : ∀ lines : List (List UInt8), (∀ l ∈ lines, ∃ body, l = body ++ [10]) →
    (10 :: lines.flatten).getLast? = some 10
  | [], _ => rfl
  | l :: lines, h => by
    obtain ⟨body, hbody⟩ := h l List.mem_cons_self
    have ih := getLast?_lines lines fun m hm => h m (List.mem_cons_of_mem l hm)
    have hsplit : 10 :: (l :: lines).flatten = 10 :: body ++ 10 :: lines.flatten := by
      rw [List.flatten_cons, hbody, List.append_assoc, List.singleton_append, List.cons_append]
    rw [hsplit, List.getLast?_append, ih]
    rfl

/-- **The fences are the only triple backticks around inert lines.** -/
theorem at_fence_iff (lines : List (List UInt8)) (rest : List UInt8)
    (hlines : ∀ l ∈ lines, ∃ body, l = body ++ [10] ∧ Inert body) (hrest : 96 ∉ rest) (i : Nat) :
    Occurrence.At fence (fence ++ [10] ++ lines.flatten ++ fence ++ [10] ++ rest) i ↔
      i = 0 ∨ i = 4 + lines.flatten.length := by
  have hten : Guarded 96 [(10 : UInt8)] := Occurrence.guarded_of_not_mem (by decide)
  have hguarded : Guarded 96 (10 :: lines.flatten) := by
    refine hten.append (Occurrence.guarded_flatten fun l hl => ?_)
    obtain ⟨body, rfl, hbody⟩ := hlines l hl
    exact hbody.guarded.append hten
  have hlast : (10 :: lines.flatten).getLast? ≠ some 96 := by
    rw [getLast?_lines lines fun l hl => (hlines l hl).imp fun _ h => h.1]
    decide
  have hback : 96 ∉ (10 : UInt8) :: rest := List.not_mem_cons_of_ne_of_not_mem (by decide) hrest
  have hdoc : fence ++ [10] ++ lines.flatten ++ fence ++ [10] ++ rest =
      [96, 96, 96] ++ (10 :: lines.flatten ++ ([96, 96, 96] ++ 10 :: rest)) := by
    simp [fence, ascii]
  rw [hdoc, show fence = [96, 96, 96] from rfl,
    Occurrence.at_fenced_iff hguarded (List.cons_ne_nil _ _) hlast hback, List.length_cons]
  omega

/-- **Screen content cannot break out of the code fence**: the document is a fence, one line for each row from the
smaller bound to the larger, a fence and the footer, and a triple backtick stands nowhere else. -/
theorem screenshot_fences (g : Geometry) (bs : List UInt8) (startRow endRow : Fin g.rows) :
    let s := (terminalProcessBytes (terminalInit g) bs).screen
    let doc := screenshotToMarkdown s startRow.val endRow.val
    let first := min startRow.val endRow.val
    let last := max startRow.val endRow.val
    ∃ lines : List (List UInt8),
      doc = fence ++ [10] ++ lines.flatten ++ fence ++ [10] ++ footer s ⟨(first : Int), (last : Int)⟩ ∧
      lines.length = ((endRow.val : Int) - (startRow.val : Int)).natAbs + 1 ∧
      (∀ l ∈ lines, ∃ body, l = body ++ [10] ∧ 10 ∉ body) ∧
      (∀ (i : Nat) (r : Fin g.rows), i < lines.length → r.val = first + i →
        lines[i]? = some (renderRow (List.ofFn (s.cell r)))) ∧
      ∀ i, Occurrence.At fence doc i ↔ i = 0 ∨ i = 4 + lines.flatten.length := by
  intro s doc first last
  have hall : s.AllPrintable := allPrintable_run g bs
  have hle : first ≤ last := Nat.le_trans (Nat.min_le_left _ _) (Nat.le_max_left _ _)
  have hlastrow : last < g.rows := Nat.max_lt.2 ⟨startRow.isLt, endRow.isLt⟩
  have hlen := length_renderedRows s first last hle
  have hrow : ∀ (i : Nat) (r : Fin g.rows), i < (renderedRows s ⟨(first : Int), (last : Int)⟩).length →
      r.val = first + i →
      (renderedRows s ⟨(first : Int), (last : Int)⟩)[i]? = some (renderRow (List.ofFn (s.cell r))) :=
    fun i r hi hr => getElem?_renderedRows s first last i r hr (by omega)
  -- every line renders a row of printable cells
  have hlines : ∀ l ∈ renderedRows s ⟨(first : Int), (last : Int)⟩, ∃ body, l = body ++ [10] ∧ Inert body := by
    intro l hl
    obtain ⟨i, hi, rfl⟩ := List.getElem_of_mem hl
    have hget := hrow i ⟨first + i, by omega⟩ hi rfl
    rw [List.getElem?_eq_getElem hi, Option.some.injEq] at hget
    rw [hget]
    refine renderRow_line _ fun cell hcell => ?_
    obtain ⟨c, rfl⟩ := List.mem_ofFn.1 hcell
    exact hall.cell _ c
  have hdoc : doc = fence ++ [10] ++ (renderedRows s ⟨(first : Int), (last : Int)⟩).flatten ++ fence ++ [10] ++
      footer s ⟨(first : Int), (last : Int)⟩ := by
    have hflat : ascii "```\n" = fence ++ [10] := rfl
    show screenshotToMarkdown s startRow.val endRow.val = _
    unfold screenshotToMarkdown renderedRows
    rw [screenshotRange_of_fin, hflat]
    simp only [List.flatMap_def, List.append_assoc]
    rfl
  refine ⟨_, hdoc, ?_, fun l hl => ?_, hrow, ?_⟩
  · rw [hlen]
    omega
  · obtain ⟨body, hbody, hinert⟩ := hlines l hl
    exact ⟨body, hbody, hinert.newline⟩
  · rw [hdoc]
    exact at_fence_iff _ _ hlines (not_mem_footer s _)

end Ptywrap
