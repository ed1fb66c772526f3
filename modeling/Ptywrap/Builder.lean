import Ptywrap.Fence
import Ptywrap.Realloc
import Ptywrap.Runs
/-!
# Builder — `screenshot_to_markdown` and its allocations (`screenshot.c`)

The document is built by `append_string` and `append_escaped_char` in a block that grows.  While every `realloc`
succeeds, any sequence of them is a string builder (`execAll_builds`).  Both return without a word where it fails, with a
null block of the doubled size, and their caller goes on to the next append: only the last one, the footer's, may fail
(`survives_iff`).  How far the block grows is told by the cells (`bodyLength`).

Whether the `i`-th allocation call succeeds is `ok i`; the call to `malloc` is the one numbered `0`.
-/
namespace Ptywrap

open Realloc (Buf Block Fault Piece Holds run peak textOf)
open CInt (intMax Fits)
open RowMajor (intRange)

variable {g : Geometry}

/-! ## The two appends -/

/-- A call of `append_string` or `append_escaped_char`. -/
inductive Append where
  | string (str : List UInt8)
  | escapedChar (ch : UInt8)

/-- `append_string`: space for the string and its terminator. -/
def appendString (ok : Nat → Bool) (str : List UInt8) (b : Buf UInt8) : Except Fault (Buf UInt8) :=
  Realloc.append ok 0 (str.length + 1) str b

/-- `append_escaped_char`: space for two characters and a terminator. -/
def appendEscapedChar (ok : Nat → Bool) (ch : UInt8) (b : Buf UInt8) : Except Fault (Buf UInt8) :=
  Realloc.append ok 0 3 (escapedChar ch) b

namespace Append

def exec (ok : Nat → Bool) : Append → Buf UInt8 → Except Fault (Buf UInt8)
  | string str => appendString ok str
  | escapedChar ch => appendEscapedChar ok ch

def execAll (ok : Nat → Bool) : List Append → Buf UInt8 → Except Fault (Buf UInt8)
  | [], b => .ok b
  | a :: as, b => (a.exec ok b).bind (execAll ok as)

def piece : Append → Piece UInt8
  | string str => ⟨str.length + 1, str⟩
  | escapedChar ch => ⟨3, Ptywrap.escapedChar ch⟩

theorem execAll_eq (ok : Nat → Bool) : ∀ (as : List Append) (b : Buf UInt8),
    execAll ok as b = run ok 0 (as.map piece) b
  | [], _ => rfl
  | a :: as, b => by
    rw [execAll, List.map_cons, run, funext (execAll_eq ok as)]
    cases a <;> rfl

end Append

/-! ## A string builder -/

/-- Characters and strings of C: `strlen` finds the end of what was appended. -/
def Append.NulFree : Append → Prop
  | string str => 0 ∉ str
  | escapedChar ch => ch ≠ 0

instance : DecidablePred Append.NulFree
  | .string str => inferInstanceAs (Decidable (0 ∉ str))
  | .escapedChar ch => inferInstanceAs (Decidable (ch ≠ 0))

/-- What a call appends. -/
def Append.text : Append → List UInt8
  | string str => str
  | escapedChar ch => Ptywrap.escapedChar ch

def appended (as : List Append) : List UInt8 := as.flatMap Append.text

theorem textOf_pieces (as : List Append) : textOf (as.map Append.piece) = appended as := by
  unfold textOf appended
  rw [List.flatMap_map]
  congr 1
  funext a
  cases a <;> rfl

theorem length_escapedChar_lt (ch : UInt8) : (escapedChar ch).length < 3 := by
  unfold escapedChar
  split
  · exact Nat.lt_succ_self 2
  · exact Nat.lt_add_of_pos_right Nat.two_pos

/-- **Either call asks for its text and a terminator at least.** -/
theorem length_text_lt (a : Append) : a.piece.text.length < a.piece.need := by
  cases a with
  | string str => exact Nat.lt_succ_self str.length
  | escapedChar ch => exact length_escapedChar_lt ch

theorem nul_not_mem_text {a : Append} (h : a.NulFree) : 0 ∉ a.text := by
  cases a with
  | string str => exact h
  | escapedChar ch =>
    have hch : 0 ≠ ch := Ne.symm h
    show 0 ∉ Ptywrap.escapedChar ch
    unfold Ptywrap.escapedChar
    split
    · simpa using hch
    · simpa using hch

theorem nul_not_mem_appended {as : List Append} (h : ∀ a ∈ as, a.NulFree) : 0 ∉ appended as := by
  intro hmem
  obtain ⟨a, ha, hin⟩ := List.mem_flatMap.1 hmem
  exact nul_not_mem_text (h a ha) hin

/-- **The buffer is a string builder** while reallocations succeed.  From an empty buffer of any positive size, whatever
else is in its block, every growth loop ends and every byte is written in the block: the calls run without a fault.  The
block then has the recorded size, begins with what was appended, and has its first NUL at the position recorded. -/
theorem execAll_builds (rest : Block UInt8) (as : List Append) (has : ∀ a ∈ as, a.NulFree) :
    ∃ b cells, Append.execAll (fun _ => true) as (Buf.empty 0 rest) = .ok b ∧ b.block = some cells ∧
      cells.length = b.size ∧ b.pos = (appended as).length ∧ b.pos < b.size ∧
      cells.take b.pos = (appended as).map some ∧ cells[b.pos]? = some (some 0) ∧ some 0 ∉ cells.take b.pos := by
  have hneed : ∀ p ∈ as.map Append.piece, p.text.length < p.need := by
    intro p hp
    obtain ⟨a, -, rfl⟩ := List.mem_map.1 hp
    exact length_text_lt a
  obtain ⟨b, hrun, hb⟩ := Realloc.run_holds _ (Realloc.holds_empty (fun _ => true) 0 rest) hneed fun _ _ => rfl
  rw [List.nil_append, textOf_pieces] at hb
  obtain ⟨tail, hblock, hlen⟩ := hb.block
  have hpos := hb.pos
  have hsplit : (appended as ++ [0]).map some ++ tail = (appended as).map some ++ some 0 :: tail := by
    rw [List.map_append, List.append_assoc]
    rfl
  have htake : ((appended as ++ [0]).map some ++ tail).take b.pos = (appended as).map some := by
    rw [hsplit, hpos, List.take_left' (List.length_map some)]
  refine ⟨b, _, (Append.execAll_eq _ as _).trans hrun, hblock, ?_, hpos, hb.pos_lt, htake, ?_, ?_⟩
  · rw [List.length_append, List.length_map, List.length_append]
    exact hlen
  · rw [hsplit, hpos, List.getElem?_append_right (Nat.le_of_eq (List.length_map some)), List.length_map, Nat.sub_self]
    rfl
  · rw [htake]
    intro hmem
    obtain ⟨x, hx, hzero⟩ := List.mem_map.1 hmem
    obtain rfl : x = 0 := Option.some.inj hzero
    exact nul_not_mem_appended has hx

/-- From a block of one byte. -/
theorem execAll_builds_grown :
    ∃ b cells, Append.execAll (fun _ => true) [.string [97, 98], .escapedChar 96, .string [99]] (Buf.empty 0 []) =
        .ok b ∧ b.block = some cells ∧ cells.length = b.size ∧ b.pos = 5 ∧ b.pos < b.size ∧
      cells.take b.pos = [97, 98, 92, 96, 99].map some ∧ cells[b.pos]? = some (some 0) ∧ some 0 ∉ cells.take b.pos :=
  execAll_builds [] [.string [97, 98], .escapedChar 96, .string [99]] (by decide)

/-! ## The calls -/

/-- The calls for one cell. -/
def RowStyle.appends (st : RowStyle) (cell : Cell) : List Append :=
  (if st.formattingChanged cell then
    (if st.inStyledSection then [.string (ascii "]")] else []) ++
      (if cell.needsStyling then .string (ascii "[") :: (hintWords cell).map .string else [])
   else []) ++ [.escapedChar cell.ch]

/-- The column loop, call by call. -/
def appender : Transducer RowStyle Cell Append := ⟨RowStyle.next, RowStyle.appends⟩

def rowAppends (cells : List Cell) : List Append :=
  appender.outputs RowStyle.init cells ++
    (if (appender.after RowStyle.init cells).inStyledSection then [.string (ascii "]")] else []) ++ [.string (ascii "\n")]

/-- The calls up to the last row. -/
def rowsAppends (s : Screen g) (rng : RowRange) : List Append :=
  .string (ascii "```\n") ::
    (intRange rng.first (rng.last + 1)).flatMap fun row => rowAppends ((rowReads g row).map s.read)

def bodyAppends (s : Screen g) (rng : RowRange) : List Append := rowsAppends s rng ++ [.string (ascii "```\n")]

/-- `char footer[256]`, as `snprintf` fills it. -/
def footerText (s : Screen g) (rng : RowRange) : List UInt8 := (footer s rng).take 255

/-- What `screenshot_to_markdown` leaves: the block it returns, how many allocation calls it made and `buffer_lock`. -/
structure Shot where
  output : Option (Block UInt8)
  calls : Nat
  locked : Bool

namespace Alloc

/-- `screenshot_to_markdown` on a screen; a fault ends the process inside it. -/
def screenshotToMarkdown (ok : Nat → Bool) (s : Screen g) (startRow endRow : Int) : Except Fault Shot :=
  let rng := screenshotRange g startRow endRow
  if ok 0 then
    (Realloc.store 0 [] ⟨some (List.replicate 4096 none), 4096, 0, 0⟩).bind fun buffer =>
      let locked := true
      (Append.execAll (fun i => ok (i + 1)) (bodyAppends s rng ++ [.string (footerText s rng)]) buffer).bind fun buffer =>
        .ok ⟨buffer.block, buffer.calls + 1, !locked⟩
  else .ok ⟨none, 1, false⟩

end Alloc

/-- The complete document, with the footer of `snprintf`. -/
def document (s : Screen g) (rng : RowRange) : List UInt8 :=
  ascii "```\n" ++ (intRange rng.first (rng.last + 1)).flatMap (fun row => renderRow ((rowReads g row).map s.read)) ++
    ascii "```\n" ++ footerText s rng

/-- The call returns with the lock released; what it returns is the complete document or null, and null when one of its
allocation calls failed. -/
def Survives (ok : Nat → Bool) (s : Screen g) (startRow endRow : Int) : Prop :=
  ∃ shot, Alloc.screenshotToMarkdown ok s startRow endRow = .ok shot ∧ shot.locked = false ∧
    (shot.output = none ∨ ∃ rest, shot.output =
      some ((document s (screenshotRange g startRow endRow) ++ [0]).map some ++ rest)) ∧
    ((∃ i < shot.calls, ok i = false) → shot.output = none)

/-! ## The size of the text, counted on the cells -/

def charLength (ch : UInt8) : Nat := if ch = 96 then 2 else 1

def hintLength (cell : Cell) : Nat :=
  (if cell.attrs &&& attrBold ≠ 0 then 6 else 0) + (if cell.attrs &&& attrUnderline ≠ 0 then 11 else 0) +
  (if cell.attrs &&& attrReverse ≠ 0 then 9 else 0) +
  (if cell.fgColor ≠ 7 then 5 + (ansiToColorName cell.fgColor).length else 0) +
  (if cell.bgColor ≠ 0 then 5 + (ansiToColorName cell.bgColor).length else 0)

/-- A run's characters, and its brackets and hints unless it is unstyled. -/
def runLength : List Cell → Nat
  | [] => 0
  | cell :: cells =>
    (if cell.needsStyling then 2 + hintLength cell else 0) + ((cell :: cells).map fun c => charLength c.ch).sum

def rowLength (cells : List Cell) : Nat := ((cells.splitBy Cell.sameStyle).map runLength).sum + 1

/-- The two fences and the rows of a range. -/
def bodyLength (s : Screen g) (rng : RowRange) : Nat :=
  8 + ((intRange rng.first (rng.last + 1)).map fun row => rowLength ((rowReads g row).map s.read)).sum

theorem length_escapedChar (ch : UInt8) : (escapedChar ch).length = charLength ch := by
  unfold escapedChar charLength
  split <;> rfl

theorem one_le_charLength (ch : UInt8) : 1 ≤ charLength ch := by
  unfold charLength
  split <;> decide

theorem length_colorHint {tag : String} (h : (ascii tag).length = 4) (name : List UInt8) :
    (ascii tag ++ name ++ ascii ")").length = 5 + name.length := by
  have hclose : (ascii ")").length = 1 := by decide
  simp only [List.length_append, h, hclose]
  omega

theorem length_hintWords (cell : Cell) : (hintWords cell).flatten.length = hintLength cell := by
  have hfg : (ascii "(fg:").length = 4 := by decide
  have hbg : (ascii "(bg:").length = 4 := by decide
  rw [← styleHints_eq]
  unfold styleHints hintLength
  simp only [List.length_append, apply_ite List.length, List.length_nil, length_colorHint hfg,
    length_colorHint hbg]
  rfl

theorem length_renderRun (cells : List Cell) : (renderRun cells).length = runLength cells := by
  cases cells with
  | nil => rfl
  | cons d ds =>
    have hchars : (escapedChars (d :: ds)).length = ((d :: ds).map fun c => charLength c.ch).sum := by
      unfold escapedChars
      simp only [List.length_flatMap, length_escapedChar]
    have hopen : (ascii "[").length = 1 := by decide
    have hclose : (ascii "]").length = 1 := by decide
    simp only [renderRun_cons, List.length_append, hchars, close_ofCell]
    unfold RowStyle.opening runLength
    dsimp only
    cases d.needsStyling with
    | false =>
      rw [if_neg Bool.false_ne_true, if_neg Bool.false_ne_true, if_neg Bool.false_ne_true]
      exact Nat.add_zero _
    | true =>
      rw [if_pos rfl, if_pos rfl, if_pos rfl, List.length_append, styleHints_eq, length_hintWords, hopen, hclose]
      omega

theorem length_renderRow (cells : List Cell) : (renderRow cells).length = rowLength cells := by
  have hend : (ascii "\n").length = 1 := by decide
  have hruns := outputs_runs (cells.splitBy Cell.sameStyle) ⟨32, 7, 0, 0⟩ (List.nil_notMem_splitBy _ _)
    (fun _ => List.isChain_of_mem_splitBy) (List.isChain_getLast_head_splitBy _ _) (.inl rfl)
  rw [List.flatten_splitBy] at hruns
  have hrow : renderRow cells = (cells.splitBy Cell.sameStyle).flatMap renderRun ++ ascii "\n" :=
    congrArg (· ++ ascii "\n") hruns
  unfold rowLength
  rw [hrow, List.length_append, List.length_flatMap, hend]
  simp only [length_renderRun]

/-- A row has a character for each cell at least. -/
theorem length_le_rowLength (cells : List Cell) : cells.length ≤ rowLength cells := by
  have hout : ∀ (cells : List Cell) (st : RowStyle), cells.length ≤ (styler.outputs st cells).length := by
    intro cells
    induction cells with
    | nil => exact fun _ => Nat.le_refl 0
    | cons cell cells ih =>
      intro st
      have hchar : 1 ≤ (styler.out st cell).length := by
        show 1 ≤ (_ ++ escapedChar cell.ch).length
        rw [List.length_append, length_escapedChar]
        exact Nat.le_trans (one_le_charLength cell.ch) (Nat.le_add_left _ _)
      have htail := ih (styler.next st cell)
      rw [Transducer.outputs_cons, List.length_append, List.length_cons]
      omega
  have hcells := hout cells RowStyle.init
  rw [← length_renderRow]
  unfold renderRow
  simp only [List.length_append]
  omega

theorem length_rowReads (row : Int) : (rowReads g row).length = g.cols := by
  unfold rowReads intRange
  simp only [List.length_map, List.length_range]
  omega

/-- **The text is no shorter than the range has cells.** -/
theorem cells_le_bodyLength (s : Screen g) (rng : RowRange) :
    (rng.last + 1 - rng.first).toNat * g.cols ≤ bodyLength s rng := by
  have hsum : ∀ rows : List Int,
      rows.length * g.cols ≤ (rows.map fun row => rowLength ((rowReads g row).map s.read)).sum := by
    intro rows
    induction rows with
    | nil => simp
    | cons row rows ih =>
      have hrow := length_le_rowLength ((rowReads g row).map s.read)
      rw [List.length_map, length_rowReads] at hrow
      rw [List.length_cons, List.map_cons, List.sum_cons, Nat.succ_mul]
      omega
  have hrows := hsum (intRange rng.first (rng.last + 1))
  unfold bodyLength
  rw [intRange, List.length_map, List.length_range] at hrows
  rw [intRange]
  omega

/-! ## The text of the calls -/

theorem textOf_append (as bs : List Append) :
    textOf ((as ++ bs).map Append.piece) = textOf (as.map Append.piece) ++ textOf (bs.map Append.piece) := by
  unfold textOf
  rw [List.map_append, List.flatMap_append]

theorem textOf_string (str : List UInt8) : textOf ([Append.string str].map Append.piece) = str := List.append_nil str

theorem textOf_strings (strs : List (List UInt8)) :
    textOf ((strs.map Append.string).map Append.piece) = strs.flatten := by
  unfold textOf
  rw [List.map_map, List.flatMap_map]
  exact List.flatMap_id

theorem textOf_ite (c : Prop) [Decidable c] (as : List Append) :
    textOf ((if c then as else []).map Append.piece) = if c then textOf (as.map Append.piece) else [] := by
  split <;> rfl

/-- **The calls for a cell append what the cell adds to the text.** -/
theorem textOf_appends (st : RowStyle) (cell : Cell) : textOf ((st.appends cell).map Append.piece) = st.out cell := by
  have hchar : textOf ([Append.escapedChar cell.ch].map Append.piece) = escapedChar cell.ch := List.append_nil _
  have hopen : textOf ((Append.string (ascii "[") :: (hintWords cell).map .string).map Append.piece) =
      ascii "[" ++ styleHints cell := by
    rw [← List.map_cons, textOf_strings, styleHints_eq, List.flatten_cons]
  unfold RowStyle.appends RowStyle.out RowStyle.close
  simp only [textOf_append, textOf_ite, hchar, hopen, textOf_string]

theorem textOf_outputs : ∀ (cells : List Cell) (st : RowStyle),
    textOf ((appender.outputs st cells).map Append.piece) = styler.outputs st cells ∧
      appender.after st cells = styler.after st cells
  | [], _ => ⟨rfl, rfl⟩
  | cell :: cells, st => by
    obtain ⟨htext, hafter⟩ := textOf_outputs cells (st.next cell)
    have hcell : textOf ((appender.out st cell).map Append.piece) = styler.out st cell := textOf_appends st cell
    simp only [Transducer.outputs_cons, textOf_append, hcell]
    exact ⟨congrArg _ htext, hafter⟩

theorem textOf_rowAppends (cells : List Cell) : textOf ((rowAppends cells).map Append.piece) = renderRow cells := by
  obtain ⟨htext, hafter⟩ := textOf_outputs cells RowStyle.init
  unfold rowAppends renderRow RowStyle.close
  simp only [textOf_append, textOf_ite, htext, hafter]
  rfl

theorem textOf_rows (s : Screen g) : ∀ rows : List Int,
    textOf ((rows.flatMap fun row => rowAppends ((rowReads g row).map s.read)).map Append.piece) =
      rows.flatMap fun row => renderRow ((rowReads g row).map s.read)
  | [] => rfl
  | row :: rows => by simp only [List.flatMap_cons, textOf_append, textOf_rowAppends, textOf_rows s rows]

/-- **The calls append the document.** -/
theorem textOf_calls (s : Screen g) (rng : RowRange) :
    textOf ((bodyAppends s rng ++ [Append.string (footerText s rng)]).map Append.piece) = document s rng := by
  unfold bodyAppends rowsAppends document
  rw [textOf_append, textOf_append, ← List.singleton_append, textOf_append, textOf_rows, textOf_string, textOf_string]

theorem length_textOf_body (s : Screen g) (rng : RowRange) :
    (textOf ((bodyAppends s rng).map Append.piece)).length = bodyLength s rng := by
  have hfence : (ascii "```\n").length = 4 := by decide
  unfold bodyAppends rowsAppends bodyLength
  rw [textOf_append, ← List.singleton_append, textOf_append, textOf_rows, textOf_string, List.length_append, List.length_append,
    List.length_flatMap, hfence]
  simp only [length_renderRow]
  omega

/-! ## The footer -/

theorem length_decimalBytes_le {x : Int} (h : Fits x) : (decimalBytes x).length ≤ 11 := by
  have hdigits : ∀ n : Nat, n < 10 ^ 10 → (numeralBytes (Decimal.ofNat n)).length ≤ 10 := by
    intro n hn
    unfold numeralBytes
    rw [List.length_map]
    exact Decimal.length_ofNat_le (by decide) hn
  rw [CInt.fits_iff] at h
  unfold decimalBytes
  split
  · rw [List.length_cons]
    exact Nat.succ_le_succ (hdigits _ (by omega))
  · exact Nat.le_succ_of_le (hdigits _ (by omega))

/-- **`footer[256]` is large enough** for six numbers of the machine. -/
theorem length_footer_le (s : Screen g) (a b : Fin g.rows) (hrow : Fits s.cursorRow) (hcol : Fits s.cursorCol) :
    (footer s (screenshotRange g a.val b.val)).length ≤ 255 := by
  have hnat : ∀ n : Nat, (n : Int) ≤ intMax → (decimalBytes n).length ≤ 11 := by
    intro n hn
    unfold intMax at hn
    exact length_decimalBytes_le ((CInt.fits_iff _).2 ⟨by omega, by omega⟩)
  have ha := a.isLt
  have hb := b.isLt
  have hrows := g.rows_le
  have h1 := hnat g.cols g.cols_le
  have h2 := hnat g.rows hrows
  have h3 := length_decimalBytes_le hcol
  have h4 := length_decimalBytes_le hrow
  have h5 := hnat (min a.val b.val) (by omega)
  have h6 := hnat (max a.val b.val) (by omega)
  have hwords : (ascii "\n*Terminal size: ").length = 17 ∧ (ascii "x").length = 1 ∧
      (ascii " | Cursor: (").length = 12 ∧ (ascii ",").length = 1 ∧ (ascii ") | ").length = 4 ∧
      (ascii "Rows: ").length = 6 ∧ (ascii "-").length = 1 ∧ (ascii "*\n").length = 2 := by decide
  rw [screenshotRange_of_fin]
  unfold footer footerRows
  simp only [List.length_append, hwords]
  omega

/-- **The complete document** is the one of a run without failures. -/
theorem document_eq (s : Screen g) (a b : Fin g.rows) (hrow : Fits s.cursorRow) (hcol : Fits s.cursorCol) :
    document s (screenshotRange g a.val b.val) = screenshotToMarkdown s a.val b.val := by
  unfold document screenshotToMarkdown footerText
  rw [List.take_of_length_le (length_footer_le s a b hrow hcol)]

/-! ## How much the calls ask for -/

theorem length_ansiToColorName_le (color : UInt8) : (ansiToColorName color).length ≤ 14 := by
  have hnames : ∀ name ∈ "default" :: colorNames, (ascii name).length ≤ 14 := by decide
  unfold ansiToColorName
  rw [List.getD_eq_getElem?_getD]
  cases h : colorNames[color.toNat]? with
  | none => exact hnames "default" List.mem_cons_self
  | some name => exact hnames name (List.mem_cons_of_mem _ (List.mem_of_getElem? h))

/-- No hint fills `style_hint[128]`. -/
theorem length_hint_le (cell : Cell) : ∀ hint ∈ hintWords cell, hint.length ≤ 19 := by
  have hcolor : ∀ (tag : String) (color : UInt8), (ascii tag).length = 4 →
      (ascii tag ++ ansiToColorName color ++ ascii ")").length ≤ 19 := by
    intro tag color htag
    have hname := length_ansiToColorName_le color
    rw [length_colorHint htag]
    omega
  intro hint hmem
  unfold hintWords at hmem
  simp only [List.mem_append, List.mem_ite_nil_right, List.mem_singleton] at hmem
  rcases hmem with (((⟨-, rfl⟩ | ⟨-, rfl⟩) | ⟨-, rfl⟩) | ⟨-, rfl⟩) | ⟨-, rfl⟩
  · decide
  · decide
  · decide
  · exact hcolor "(fg:" _ (by decide)
  · exact hcolor "(bg:" _ (by decide)

/-- A call that one doubling of the buffer is enough for, and whose text leaves no more room than a fence takes. -/
def Append.Small (a : Append) : Prop := a.piece.Within 4096 ∧ a.piece.need ≤ a.piece.text.length + 5

theorem small_string {str : List UInt8} (h : str.length < 4096) : (Append.string str).Small :=
  ⟨⟨Nat.lt_succ_self _, h⟩, by show str.length + 1 ≤ str.length + 5; omega⟩

theorem small_escapedChar (ch : UInt8) : (Append.escapedChar ch).Small := by
  refine ⟨⟨length_escapedChar_lt ch, by show 3 ≤ 4096; decide⟩, ?_⟩
  show 3 ≤ (escapedChar ch).length + 5
  omega

theorem small_appends (st : RowStyle) (cell : Cell) : ∀ a ∈ st.appends cell, a.Small := by
  intro a ha
  unfold RowStyle.appends at ha
  simp only [List.mem_append, List.mem_ite_nil_right, List.mem_cons, List.mem_map, List.not_mem_nil, or_false] at ha
  rcases ha with ⟨-, ⟨-, rfl⟩ | ⟨-, rfl | ⟨hint, hmem, rfl⟩⟩⟩ | rfl
  · exact small_string (by decide)
  · exact small_string (by decide)
  · exact small_string (Nat.lt_of_le_of_lt (length_hint_le cell hint hmem) (by decide))
  · exact small_escapedChar _

theorem small_outputs : ∀ (cells : List Cell) (st : RowStyle), ∀ a ∈ appender.outputs st cells, a.Small
  | [], _, _, ha => by cases ha
  | cell :: cells, st, a, ha => by
    rw [Transducer.outputs_cons, List.mem_append] at ha
    rcases ha with ha | ha
    · exact small_appends st cell a ha
    · exact small_outputs cells _ a ha

theorem small_rowsAppends (s : Screen g) (rng : RowRange) : ∀ a ∈ rowsAppends s rng, a.Small := by
  intro a ha
  rcases List.mem_cons.1 ha with rfl | ha
  · exact small_string (by decide)
  · obtain ⟨row, -, ha⟩ := List.mem_flatMap.1 ha
    unfold rowAppends at ha
    simp only [List.mem_append, List.mem_ite_nil_right, List.mem_singleton] at ha
    rcases ha with (ha | ⟨-, rfl⟩) | rfl
    · exact small_outputs _ _ a ha
    · exact small_string (by decide)
    · exact small_string (by decide)

theorem within_bodyAppends (s : Screen g) (rng : RowRange) :
    ∀ p ∈ (bodyAppends s rng).map Append.piece, p.Within 4096 := by
  intro p hp
  obtain ⟨a, ha, rfl⟩ := List.mem_map.1 hp
  rcases List.mem_append.1 ha with ha | ha
  · exact (small_rowsAppends s rng a ha).1
  · rw [List.mem_singleton.1 ha]
    exact (small_string (by decide)).1

/-- **The body asks for its own length** and a terminator: the closing fence covers the headroom of the characters. -/
theorem peak_bodyAppends (s : Screen g) (rng : RowRange) :
    peak 0 ((bodyAppends s rng).map Append.piece) = bodyLength s rng + 1 := by
  have hsmall : ∀ p ∈ (rowsAppends s rng).map Append.piece, p.need ≤ p.text.length + 5 := by
    intro p hp
    obtain ⟨a, ha, rfl⟩ := List.mem_map.1 hp
    exact (small_rowsAppends s rng a ha).2
  have hpeak := Realloc.peak_concat (show (Append.string (ascii "```\n")).piece.need = _ from rfl) _ 0 hsmall
  have hlist : (rowsAppends s rng).map Append.piece ++ [(Append.string (ascii "```\n")).piece] =
      (bodyAppends s rng).map Append.piece := by
    unfold bodyAppends
    rw [List.map_append]
    rfl
  rw [hlist, length_textOf_body, Nat.zero_add] at hpeak
  exact hpeak

/-! ## Failed allocations -/

/-- **Where `malloc` succeeds**, the calls run on an empty buffer of 4096 bytes. -/
theorem screenshotToMarkdown_run {ok : Nat → Bool} (h : ok 0 = true) (s : Screen g) (startRow endRow : Int) :
    Alloc.screenshotToMarkdown ok s startRow endRow =
      (run (fun i => ok (i + 1)) 0 ((bodyAppends s (screenshotRange g startRow endRow)).map Append.piece ++
        [(Append.string (footerText s (screenshotRange g startRow endRow))).piece])
          (Buf.empty 0 (List.replicate 4095 none))).bind fun buffer => .ok ⟨buffer.block, buffer.calls + 1, false⟩ := by
  unfold Alloc.screenshotToMarkdown
  dsimp only
  rw [if_pos h, Realloc.store_fresh (0 : UInt8) 4095]
  generalize Buf.empty (0 : UInt8) (List.replicate 4095 none) = b
  show (Append.execAll _ _ b).bind _ = _
  rw [Append.execAll_eq, List.map_append]
  rfl

theorem screenshotToMarkdown_of_malloc {ok : Nat → Bool} (h : ok 0 = true) (s : Screen g) (startRow endRow : Int) :
    ∃ b, Holds (fun i => ok (i + 1)) (0 : UInt8) 4096 [] b ∧
      Alloc.screenshotToMarkdown ok s startRow endRow =
        (run (fun i => ok (i + 1)) 0 ((bodyAppends s (screenshotRange g startRow endRow)).map Append.piece ++
          [(Append.string (footerText s (screenshotRange g startRow endRow))).piece]) b).bind fun buffer =>
            .ok ⟨buffer.block, buffer.calls + 1, false⟩ :=
  ⟨_, Realloc.holds_fresh (fun i => ok (i + 1)) (0 : UInt8) 4095, screenshotToMarkdown_run h s startRow endRow⟩

theorem footer_within (s : Screen g) (rng : RowRange) : (Append.string (footerText s rng)).piece.Within 4096 :=
  (small_string (Nat.lt_of_le_of_lt (List.length_take_le 255 (footer s rng)) (by decide))).1

/-- **An allocation for the body that fails** is written through. -/
theorem not_survives_of_failed {ok : Nat → Bool} (h : ok 0 = true) (s : Screen g) (startRow endRow : Int) (i : Nat)
    (hi : 4096 * 2 ^ i ≤ bodyLength s (screenshotRange g startRow endRow) + 1) (hfail : ok (i + 1) = false) :
    Alloc.screenshotToMarkdown ok s startRow endRow = .error .nullWrite := by
  obtain ⟨b, hb, heq⟩ := screenshotToMarkdown_of_malloc h s startRow endRow
  have hpos : b.pos = 0 := hb.pos
  rw [heq, Realloc.run_last_of_failed (footer_within s _) (by exact hfail) _ hb (within_bodyAppends s _)
    (by rw [hpos, peak_bodyAppends]; exact hi)]
  rfl

theorem survives_of_malloc_failed {ok : Nat → Bool} (h : ok 0 = false) (s : Screen g) (startRow endRow : Int) :
    Survives ok s startRow endRow := by
  refine ⟨⟨none, 1, false⟩, ?_, rfl, .inl rfl, fun _ => rfl⟩
  unfold Alloc.screenshotToMarkdown
  dsimp only
  rw [h, if_neg Bool.false_ne_true]

/-- **With the body's allocations** the document is complete, or the footer's allocation failed and it is null. -/
theorem survives_of_granted {ok : Nat → Bool} (h : ok 0 = true) (s : Screen g) (startRow endRow : Int)
    (hok : ∀ i, 4096 * 2 ^ i ≤ bodyLength s (screenshotRange g startRow endRow) + 1 → ok (i + 1) = true) :
    Survives ok s startRow endRow := by
  obtain ⟨b, hb, heq⟩ := screenshotToMarkdown_of_malloc h s startRow endRow
  have hpos : b.pos = 0 := hb.pos
  obtain ⟨b', hrun, hb'⟩ := Realloc.run_last_of_ok hb (within_bodyAppends s (screenshotRange g startRow endRow))
    (footer_within s _) (by rw [hpos, peak_bodyAppends]; exact hok)
  refine ⟨⟨b'.block, b'.calls + 1, false⟩, ?_, rfl, ?_, ?_⟩
  · rw [heq, hrun]
    rfl
  · rcases hb' with hnull | hholds
    · exact .inl hnull
    · obtain ⟨rest, hblock, -⟩ := hholds.block
      have htext := textOf_calls s (screenshotRange g startRow endRow)
      rw [List.map_append] at htext
      rw [List.nil_append, List.map_singleton] at *
      rw [htext] at hblock
      exact .inr ⟨rest, hblock⟩
  · rintro ⟨i, hi, hfail⟩
    rcases hb' with hnull | hholds
    · exact hnull
    · cases i with
      | zero =>
        rw [h] at hfail
        cases hfail
      | succ i =>
        rw [hholds.granted i (Nat.lt_of_succ_lt_succ hi)] at hfail
        cases hfail

/-- **The screenshot survives a failed allocation exactly when the body's succeed**, or `malloc` fails at once: of the
reallocations it needs, only the footer's may fail. -/
theorem survives_iff (ok : Nat → Bool) (s : Screen g) (a b : Fin g.rows) :
    Survives ok s a.val b.val ↔
      ok 0 = false ∨ ∀ i, 4096 * 2 ^ i ≤ bodyLength s (screenshotRange g a.val b.val) + 1 → ok (i + 1) = true := by
  constructor
  · rintro ⟨shot, hshot, -⟩
    cases h : ok 0 with
    | false => exact .inl rfl
    | true =>
      refine .inr fun i hi => ?_
      by_contra hfail
      rw [not_survives_of_failed h s a.val b.val i hi (by simpa using hfail)] at hshot
      cases hshot
  · rintro (h | hok)
    · exact survives_of_malloc_failed h s a.val b.val
    · cases h : ok 0 with
      | false => exact survives_of_malloc_failed h s a.val b.val
      | true => exact survives_of_granted h s a.val b.val hok

/-- A range of `4096` cells or more does not fit the first block. -/
theorem range_needs_realloc (s : Screen g) (a b : Fin g.rows)
    (h : 4096 ≤ (max a.val b.val + 1 - min a.val b.val) * g.cols) :
    4096 * 2 ^ 0 ≤ bodyLength s (screenshotRange g a.val b.val) + 1 := by
  have hcells := cells_le_bodyLength s (screenshotRange g a.val b.val)
  have hcount : (((max a.val b.val : Nat) : Int) + 1 - ((min a.val b.val : Nat) : Int)).toNat =
      max a.val b.val + 1 - min a.val b.val := by omega
  rw [screenshotRange_of_fin] at *
  dsimp only at hcells
  rw [hcount] at hcells
  rw [Nat.pow_zero, Nat.mul_one]
  exact Nat.le_succ_of_le (Nat.le_trans h hcells)

theorem not_survives_of_first {s : Screen g} {a b : Fin g.rows}
    (h : 4096 ≤ (max a.val b.val + 1 - min a.val b.val) * g.cols) : ¬ Survives (fun i => i != 1) s a.val b.val := by
  rintro ⟨shot, hshot, -⟩
  rw [not_survives_of_failed rfl s a.val b.val 0 (range_needs_realloc s a b h) rfl] at hshot
  cases hshot

/-- A screen of the default size, with the first reallocation failing. -/
theorem screenshot_nullWrite :
    ¬ ∀ (g : Geometry) (ok : Nat → Bool) (s : Screen g) (a b : Fin g.rows), Survives ok s a.val b.val := fun h =>
  not_survives_of_first (by decide : 4096 ≤ (max 0 39 + 1 - min 0 39) * 150)
    (h ⟨40, 150, by decide, by decide, by decide⟩ _ (terminalInit _).screen ⟨0, by decide⟩ ⟨39, by decide⟩)

end Ptywrap
