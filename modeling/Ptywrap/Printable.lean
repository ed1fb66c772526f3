import Ptywrap.Api
import Ptywrap.Encode
/-!
# Printable — every cell is a printable character with known attributes

The reader hands only printable characters to `terminal_put_char`, and every other writer of cells writes blanks
(`printable_exec`), so no byte stream, whatever its control and high bytes, leaves another character on the screen
(`allPrintable_run`).  The row texts of the API are therefore C strings as long as they say (`rowText_printable`).
-/
namespace Ptywrap

open RowMajor (All)

variable {g : Geometry}

/-- The four defined attribute flags. -/
def attrFlags : UInt8 := attrBold ||| attrUnderline ||| attrReverse ||| attrBlink

def FlagsOnly (attrs : UInt8) : Prop := attrs &&& ~~~attrFlags = 0

/-- A character in `32..126`, attribute bits within the defined flags. -/
structure Cell.Printable (cell : Cell) : Prop where
  ch : 32 ≤ cell.ch ∧ cell.ch ≤ 126
  attrs : FlagsOnly cell.attrs

/-- Every cell is printable, and the next one will be. -/
structure Screen.AllPrintable (s : Screen g) : Prop where
  cells : All Cell.Printable s.buffer
  pen : FlagsOnly s.currentAttrs.attrs

/-! ## Attributes -/

theorem flagsOnly_zero : FlagsOnly 0 := rfl

theorem flagsOnly_or {a f : UInt8} (ha : FlagsOnly a) (hf : FlagsOnly f) : FlagsOnly (a ||| f) := by
  unfold FlagsOnly at *
  have hdistrib : (a ||| f) &&& ~~~attrFlags = a &&& ~~~attrFlags ||| f &&& ~~~attrFlags :=
    UInt8.toBitVec_inj.1 BitVec.and_or_distrib_right
  rw [hdistrib, ha, hf]
  rfl

theorem flagsOnly_and {a : UInt8} (ha : FlagsOnly a) (f : UInt8) : FlagsOnly (a &&& f) := by
  unfold FlagsOnly at *
  rw [UInt8.and_assoc, UInt8.and_comm f, ← UInt8.and_assoc, ha, UInt8.zero_and]

/-- What no SGR parameter changes: the unused character, and that only defined flags are set. -/
structure SgrKeeps (a b : Cell) : Prop where
  ch : b.ch = a.ch
  attrs : FlagsOnly a.attrs → FlagsOnly b.attrs

theorem sgrStep_keeps (p : CsiArgs) (i : Nat) (a : Cell) : SgrKeeps a (sgrStep p i a) := by
  have hor : ∀ f, FlagsOnly f → SgrKeeps a { a with attrs := a.attrs ||| f } :=
    fun f hf => ⟨rfl, fun h => flagsOnly_or h hf⟩
  have hand : ∀ f, SgrKeeps a { a with attrs := a.attrs &&& f } := fun f => ⟨rfl, fun h => flagsOnly_and h f⟩
  have hcolour : ∀ fg bg, SgrKeeps a { a with fgColor := fg, bgColor := bg } := fun fg bg => ⟨rfl, id⟩
  unfold sgrStep
  dsimp only
  -- reset, the four flags on, the four flags off, the colours
  refine iteInduction (fun _ => ⟨rfl, fun _ => flagsOnly_zero⟩) (fun _ => ?_)
  iterate 4 refine iteInduction (fun _ => hor _ rfl) (fun _ => ?_)
  iterate 4 refine iteInduction (fun _ => hand _) (fun _ => ?_)
  iterate 6 refine iteInduction (fun _ => hcolour _ _) (fun _ => ?_)
  exact ⟨rfl, id⟩

theorem sgrLoop_keeps (p : CsiArgs) : ∀ (fuel i : Nat) (a : Cell), SgrKeeps a (sgrLoop p fuel i a)
  | 0, _, _ => ⟨rfl, id⟩
  | fuel + 1, i, a => by
    rw [sgrLoop]
    split
    · obtain ⟨hch, hattrs⟩ := sgrStep_keeps p i a
      obtain ⟨ihch, ihattrs⟩ := sgrLoop_keeps p fuel (sgrNext p i) (sgrStep p i a)
      exact ⟨ihch.trans hch, fun h => ihattrs (hattrs h)⟩
    · exact ⟨rfl, id⟩

theorem executeSgr_keeps (p : CsiArgs) (a : Cell) : SgrKeeps a (executeSgr p a) := by
  unfold executeSgr
  split
  · exact ⟨rfl, fun _ => flagsOnly_zero⟩
  · exact sgrLoop_keeps p _ _ a

/-! ## Cells -/

theorem printable_blank (pen : Pen) : pen.blank.Printable :=
  ⟨show (32 : UInt8) ≤ 32 ∧ (32 : UInt8) ≤ 126 by decide, flagsOnly_zero⟩

theorem printable_glyph {pen : Pen} (h : FlagsOnly pen.currentAttrs.attrs) {ch : UInt8} (hch : isPrintable ch = true) :
    (pen.glyph ch).Printable :=
  ⟨(isPrintable_iff ch).1 hch, h⟩

theorem allPrintable_newline {s : Screen g} (h : s.AllPrintable) : (terminalNewline s).AllPrintable := by
  unfold terminalNewline
  dsimp only
  split
  · exact ⟨(h.cells.blockMove _ _ _).storeAll _ (printable_blank _), h.pen⟩
  · exact ⟨h.cells, h.pen⟩

theorem allPrintable_putChar {s : Screen g} (h : s.AllPrintable) {ch : UInt8} (hch : isPrintable ch = true) :
    (terminalPutChar s ch).AllPrintable := by
  unfold terminalPutChar
  have hstored := h.cells.store (cellIndex g.cols s.cursorRow s.cursorCol) (printable_glyph h.pen hch)
  split
  · exact h
  dsimp only
  split
  · exact allPrintable_newline ⟨hstored, h.pen⟩
  · exact ⟨hstored, h.pen⟩

theorem allPrintable_executeCsi {s : Screen g} (h : s.AllPrintable) (p : CsiArgs) (cmd : UInt8) :
    (parserExecuteCsi p cmd s).AllPrintable := by
  refine parserExecuteCsi_cases (motive := Screen.AllPrintable) p cmd s (fun _ => ?sgr) (fun _ => ?move)
    (fun _ => ?position) (fun _ => ?display) (fun _ => ?line) (fun _ => h)
  case sgr => exact ⟨h.cells, (executeSgr_keeps p s.currentAttrs).attrs h.pen⟩
  case move =>
    refine ⟨h.cells, ?_⟩
    dsimp only
    rw [currentAttrs_executeCursorMove]
    exact h.pen
  case position => exact ⟨h.cells, h.pen⟩
  case display =>
    unfold executeEraseDisplay
    split
    · exact ⟨h.cells.storeAll _ (printable_blank _), h.pen⟩
    · exact h
  case line => exact ⟨h.cells.storeAll _ (printable_blank _), h.pen⟩

/-- **Every action that prints nothing but printable characters keeps the screen printable.** -/
theorem allPrintable_exec {s : Screen g} (h : s.AllPrintable) (a : Action)
    (ha : ∀ ch, a = .putChar ch → isPrintable ch = true) : (a.exec s).AllPrintable := by
  cases a with
  | newline => exact allPrintable_newline h
  | carriageReturn => exact ⟨h.cells, h.pen⟩
  | backspace =>
    unfold Action.exec
    dsimp only
    split
    · exact ⟨h.cells, h.pen⟩
    · exact h
  | putChar ch => exact allPrintable_putChar h (ha ch rfl)
  | executeCsi p cmd => exact allPrintable_executeCsi h p cmd

/-! ## Runs -/

/-- **The reader prints nothing but printable characters.** -/
theorem isPrintable_of_emits {p : Parser} {b ch : UInt8} (h : p.Emits b (.putChar ch)) : isPrintable ch = true := by
  cases h with
  | putChar _ hch => exact hch

theorem allPrintable_processByte {s : Session g} (h : s.screen.AllPrintable) (b : UInt8) :
    (terminalProcessByte s b).screen.AllPrintable := by
  rw [terminalProcessByte_eq]
  rcases out_cases s.parser b with hout | ⟨a, hout, hemits⟩
  · rw [hout]
    exact h
  · rw [hout]
    refine allPrintable_exec h a fun ch e => ?_
    rw [e] at hemits
    exact isPrintable_of_emits hemits

theorem allPrintable_processBytes : ∀ (bs : List UInt8) {s : Session g}, s.screen.AllPrintable →
    (terminalProcessBytes s bs).screen.AllPrintable
  | [], _, h => h
  | b :: bs, _, h => allPrintable_processBytes bs (allPrintable_processByte h b)

theorem allPrintable_terminalInit (g : Geometry) : (terminalInit g).screen.AllPrintable :=
  ⟨All.replicate ⟨show (32 : UInt8) ≤ 32 ∧ (32 : UInt8) ≤ 126 by decide, flagsOnly_zero⟩, flagsOnly_zero⟩

/-- **Every screen is printable text.** -/
theorem allPrintable_run (g : Geometry) (bs : List UInt8) :
    (terminalProcessBytes (terminalInit g) bs).screen.AllPrintable :=
  allPrintable_processBytes bs (allPrintable_terminalInit g)

/-! ## Row texts -/

def strlen (buf : List UInt8) : Nat := (buf.takeWhile fun b => b != 0).length

theorem strlen_append_nul : ∀ (text rest : List UInt8), (∀ b ∈ text, b ≠ 0) → strlen (text ++ 0 :: rest) = text.length
  | [], _, _ => rfl
  | b :: text, rest, h => by
    have ih := strlen_append_nul text rest (fun x hx => h x (List.mem_cons_of_mem b hx))
    unfold strlen at ih ⊢
    have hb : (b != 0) = true := bne_iff_ne.2 (h b List.mem_cons_self)
    rw [List.cons_append, List.takeWhile_cons, if_pos hb, List.length_cons, ih, List.length_cons]

/-- A NUL-terminated text at the start of `buf`, which has room for it in its first `buflen` bytes. -/
theorem terminated_text (text buf : List UInt8) {buflen : Nat} (h : ∀ b ∈ text, b ≠ 0) (hroom : text.length + 1 ≤ buflen)
    (hbuf : buflen ≤ buf.length) :
    let out := text ++ 0 :: buf.drop (text.length + 1)
    out.length = buf.length ∧ out.drop buflen = buf.drop buflen ∧ out.take (text.length + 1) = text ++ [0] ∧
      strlen out = text.length := by
  refine ⟨?_, ?_, ?_, strlen_append_nul text _ h⟩
  · rw [List.length_append, List.length_cons, List.length_drop]
    omega
  · rw [List.drop_append, List.drop_eq_nil_of_le (by omega), List.nil_append,
      show buflen - text.length = buflen - (text.length + 1) + 1 by omega, List.drop_succ_cons, List.drop_drop]
    congr 1
    omega
  · rw [List.take_append, List.take_of_length_le (by omega), Nat.add_sub_cancel_left, List.take_succ_cons, List.take_zero]

theorem Cell.Printable.ch_ne_zero {cell : Cell} (h : cell.Printable) : cell.ch ≠ 0 := by
  intro h0
  have h32 := h.ch.1
  rw [h0] at h32
  exact absurd h32 (by decide)

theorem Screen.AllPrintable.cell {s : Screen g} (h : s.AllPrintable) (r : Fin g.rows) (c : Fin g.cols) :
    (s.cell r c).Printable :=
  h.cells _ (RowMajor.flat_lt r.isLt c.isLt)

/-- **Every cell is printable, and every row reads back as a C string of the length returned**: the characters of the
row's first cells and a NUL, with nothing written from `buf[buflen]` on. -/
theorem rowText_printable (g : Geometry) (bs : List UInt8) :
    let s := terminalProcessBytes (terminalInit g) bs
    (∀ r c, (s.screen.cell r c).Printable) ∧
      ∀ (r : Fin g.rows) (buf : List UInt8) (buflen : Nat), 0 < buflen → buflen ≤ buf.length →
        let n := min g.cols (buflen - 1)
        ∃ out : List UInt8, ptywrapGetRowText (some s) r.val (some buf) buflen = ((n : Int), some out) ∧
          out.length = buf.length ∧ out.drop buflen = buf.drop buflen ∧
          out.take (n + 1) = (List.ofFn fun c => (s.screen.cell r c).ch).take n ++ [0] ∧ strlen out = n := by
  intro s
  have hall : s.screen.AllPrintable := allPrintable_run g bs
  refine ⟨fun r c => hall.cell r c, fun r buf buflen hpos hbuf => ?_⟩
  intro n
  have hn : n + 1 ≤ buflen := by
    have : n ≤ buflen - 1 := Nat.min_le_right _ _
    omega
  have hchars : ∀ b ∈ (List.ofFn fun c => (s.screen.cell r c).ch).take n, b ≠ 0 := by
    intro b hb
    obtain ⟨c, rfl⟩ := List.mem_ofFn.1 (List.mem_of_mem_take hb)
    exact (hall.cell r c).ch_ne_zero
  have hlen : ((List.ofFn fun c => (s.screen.cell r c).ch).take n).length = n := by
    rw [List.length_take, List.length_ofFn]
    exact Nat.min_eq_left (Nat.min_le_left _ _)
  have hout := terminated_text _ buf hchars (by omega) hbuf
  rw [hlen] at hout
  exact ⟨_, getRowText_inGrid s r buf buflen hpos hbuf, hout⟩

end Ptywrap
