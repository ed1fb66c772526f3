import Mathlib.Logic.Relation
import Ptywrap.Encode
/-!
# Colours — colours and attributes never reach the text

Two screens have the same text when their cursors and the characters of their cells agree.  Every action keeps that
(`sameText_exec`), an SGR sequence changes nothing of it (`sameText_sgr`), and two readers that agree up to parameters
left over from an earlier sequence emit the same actions (`outputs_of_agree`).  So streams that differ by SGR sequences
leave the same text (`text_of_sgrEdits`).
-/
namespace Ptywrap

open RowMajor (Agree)

variable {g : Geometry}

/-- The cursors and the characters agree. -/
structure SameText (s t : Screen g) : Prop where
  row : s.cursorRow = t.cursorRow
  col : s.cursorCol = t.cursorCol
  chars : Agree Cell.ch s.buffer t.buffer

theorem SameText.refl (s : Screen g) : SameText s s := ⟨rfl, rfl, fun _ _ => rfl⟩

theorem SameText.symm {s t : Screen g} (h : SameText s t) : SameText t s :=
  ⟨h.row.symm, h.col.symm, fun k hk => (h.chars k hk).symm⟩

theorem SameText.trans {s t u : Screen g} (h : SameText s t) (h' : SameText t u) : SameText s u :=
  ⟨h.row.trans h'.row, h.col.trans h'.col, fun k hk => (h.chars k hk).trans (h'.chars k hk)⟩

/-! ## Actions -/

theorem sameText_newline {s t : Screen g} (h : SameText s t) : SameText (terminalNewline s) (terminalNewline t) := by
  unfold terminalNewline
  dsimp only
  rw [h.row]
  split
  · exact ⟨rfl, rfl, (h.chars.blockMove _ _ _).storeAll _ rfl⟩
  · exact ⟨rfl, rfl, h.chars⟩

theorem sameText_putChar {s t : Screen g} (h : SameText s t) (ch : UInt8) :
    SameText (terminalPutChar s ch) (terminalPutChar t ch) := by
  have hstored : SameText
      { s with
        buffer := RowMajor.store s.buffer (cellIndex g.cols s.cursorRow s.cursorCol) (s.glyph ch)
        cursorCol := CInt.wrap32 (s.cursorCol + 1) }
      { t with
        buffer := RowMajor.store t.buffer (cellIndex g.cols t.cursorRow t.cursorCol) (t.glyph ch)
        cursorCol := CInt.wrap32 (t.cursorCol + 1) } := by
    rw [h.row, h.col]
    exact ⟨rfl, rfl, h.chars.store _ rfl⟩
  unfold terminalPutChar
  dsimp only
  rw [h.row, h.col] at hstored ⊢
  split
  · exact h
  split
  · exact sameText_newline hstored
  · exact hstored

theorem executeCursorMove_withAttrs (p : CsiArgs) (cmd : UInt8) (pen : Pen) (a : Cell) :
    executeCursorMove g p cmd { pen with currentAttrs := a } =
      { executeCursorMove g p cmd pen with currentAttrs := a } := by
  unfold executeCursorMove
  dsimp only
  split
  · rfl
  split
  · rfl
  split
  · rfl
  split <;> rfl

theorem SameText.pen_eq {s t : Screen g} (h : SameText s t) :
    s.toPen = { t.toPen with currentAttrs := s.currentAttrs } := by
  simp only [← h.row, ← h.col]

theorem sameText_executeCsi {s t : Screen g} (h : SameText s t) (p : CsiArgs) (cmd : UInt8) :
    SameText (parserExecuteCsi p cmd s) (parserExecuteCsi p cmd t) := by
  unfold parserExecuteCsi
  split
  · exact ⟨h.row, h.col, h.chars⟩
  split
  · rw [h.pen_eq, executeCursorMove_withAttrs]
    exact ⟨rfl, rfl, h.chars⟩
  split
  · exact ⟨rfl, rfl, h.chars⟩
  split
  · unfold executeEraseDisplay
    split
    · exact ⟨rfl, rfl, h.chars.storeAll _ rfl⟩
    · exact h
  split
  · have hidx : eraseLineIndices g p s.toPen = eraseLineIndices g p t.toPen := by
      unfold eraseLineIndices eraseLineCols
      rw [h.row, h.col]
    unfold executeEraseLine
    rw [hidx]
    exact ⟨h.row, h.col, h.chars.storeAll _ rfl⟩
  · exact h

/-- **Every action keeps the text the same.** -/
theorem sameText_exec (s t : Screen g) (a : Action) (h : SameText s t) : SameText (a.exec s) (a.exec t) := by
  cases a with
  | newline => exact sameText_newline h
  | carriageReturn => exact ⟨h.row, rfl, h.chars⟩
  | backspace =>
    unfold Action.exec
    dsimp only
    rw [h.col]
    split
    · exact ⟨h.row, rfl, h.chars⟩
    · exact h
  | putChar ch => exact sameText_putChar h ch
  | executeCsi p cmd => exact sameText_executeCsi h p cmd

/-! ## Readers -/

/-- The readers agree, but for parameters left over from an earlier sequence. -/
def Parser.Agree (p q : Parser) : Prop := p.parseState = q.parseState ∧ (p.InCsi → p = q)

theorem Parser.agree_of_normal {p q : Parser} (hp : p.parseState = .normal) (hq : q.parseState = .normal) :
    p.Agree q :=
  ⟨hp.trans hq.symm, fun h => absurd h (not_inCsi (.inl hp))⟩

theorem Parser.Agree.step {p q : Parser} (h : p.Agree q) (ch : UInt8) :
    p.out ch = q.out ch ∧ (p.next ch).Agree (q.next ch) := by
  obtain ⟨hstate, hcsi⟩ := h
  by_cases hin : p.InCsi
  · rw [hcsi hin]
    exact ⟨rfl, rfl, fun _ => rfl⟩
  -- outside a sequence the parameters are not read
  cases hp : p.parseState with
  | normal =>
    have hq := hstate.symm.trans hp
    unfold Parser.out Parser.next
    rw [hp, hq]
    dsimp only
    refine ⟨rfl, ?_⟩
    split
    · exact ⟨rfl, fun h => absurd h (not_inCsi (.inr rfl))⟩
    · exact Parser.agree_of_normal hp hq
  | esc =>
    have hq := hstate.symm.trans hp
    unfold Parser.out Parser.next
    rw [hp, hq]
    dsimp only
    refine ⟨rfl, ?_⟩
    split
    · exact ⟨rfl, fun _ => rfl⟩
    · exact Parser.agree_of_normal rfl rfl
  | csi => exact absurd (.inl hp) hin
  | csiParam => exact absurd (.inr hp) hin

theorem outputs_of_agree : ∀ (bs : List UInt8) {p q : Parser}, p.Agree q →
    vtReader.outputs p bs = vtReader.outputs q bs ∧ (vtReader.after p bs).Agree (vtReader.after q bs)
  | [], _, _, h => ⟨rfl, h⟩
  | b :: bs, p, q, h => by
    obtain ⟨hout, hnext⟩ := h.step b
    obtain ⟨ih1, ih2⟩ := outputs_of_agree bs hnext
    rw [Transducer.outputs_cons, Transducer.outputs_cons, Transducer.after_cons, Transducer.after_cons]
    exact ⟨congrArg₂ _ hout ih1, ih2⟩

/-! ## Runs -/

structure SameTextRun (s t : Session g) : Prop where
  screen : SameText s.screen t.screen
  parser : s.parser.Agree t.parser

theorem SameTextRun.processBytes {s t : Session g} (h : SameTextRun s t) (bs : List UInt8) :
    SameTextRun (terminalProcessBytes s bs) (terminalProcessBytes t bs) := by
  obtain ⟨hout, hafter⟩ := outputs_of_agree bs h.parser
  rw [terminalProcessBytes_eq, terminalProcessBytes_eq, hout]
  exact ⟨Transducer.exec_sim SameText Action.exec Action.exec sameText_exec _ _ _ h.screen, hafter⟩

/-- A complete SGR sequence, over any fields. -/
def sgrBytes (fields : List UInt8) : List UInt8 := 27 :: 91 :: (fields ++ [109])

/-- **An SGR sequence is invisible in the text.** -/
theorem sameText_sgr (s : Session g) (hs : s.parser.parseState = .normal) (fields : List UInt8)
    (hf : ∀ b ∈ fields, isParamChar b = true) : SameTextRun s (terminalProcessBytes s (sgrBytes fields)) := by
  obtain ⟨hout, hafter⟩ := outputs_sequence s.parser hs fields 109 hf (by decide)
  unfold sgrBytes
  rw [terminalProcessBytes_eq, hout]
  exact ⟨⟨rfl, rfl, fun _ _ => rfl⟩, Parser.agree_of_normal hs hafter⟩

/-- One SGR sequence inserted into a stream, at a point where the reader is outside a sequence. -/
inductive SgrInsertion (start : Parser) : List UInt8 → List UInt8 → Prop where
  | insert (before rest fields : List UInt8) (normal : (vtReader.after start before).parseState = .normal)
      (hfields : ∀ b ∈ fields, isParamChar b = true) :
      SgrInsertion start (before ++ rest) (before ++ sgrBytes fields ++ rest)

theorem SgrInsertion.sameTextRun {s : Session g} {u v : List UInt8} (h : SgrInsertion s.parser u v) :
    SameTextRun (terminalProcessBytes s u) (terminalProcessBytes s v) := by
  obtain ⟨before, rest, fields, hnormal, hfields⟩ := h
  rw [terminalProcessBytes_append, terminalProcessBytes_append, terminalProcessBytes_append]
  refine (sameText_sgr _ ?_ fields hfields).processBytes rest
  rw [parser_terminalProcessBytes]
  exact hnormal

/-- **Colour and attribute changes never influence the text**: streams that differ by any number of SGR sequences,
inserted or deleted, leave the same characters, the same cursor and the same parse state. -/
theorem text_of_sgrEdits (s : Session g) (u v : List UInt8)
    (h : Relation.EqvGen (SgrInsertion s.parser) u v) :
    let s₁ := terminalProcessBytes s u
    let s₂ := terminalProcessBytes s v
    (∀ r c, (s₁.screen.cell r c).ch = (s₂.screen.cell r c).ch) ∧
      s₁.screen.cursorRow = s₂.screen.cursorRow ∧ s₁.screen.cursorCol = s₂.screen.cursorCol ∧
      s₁.parser.parseState = s₂.parser.parseState := by
  have hrun : SameText (terminalProcessBytes s u).screen (terminalProcessBytes s v).screen ∧
      (terminalProcessBytes s u).parser.parseState = (terminalProcessBytes s v).parser.parseState := by
    induction h with
    | rel u v h => exact ⟨h.sameTextRun.screen, h.sameTextRun.parser.1⟩
    | refl u => exact ⟨SameText.refl _, rfl⟩
    | symm u v _ ih => exact ⟨ih.1.symm, ih.2.symm⟩
    | trans u v w _ _ ih₁ ih₂ => exact ⟨ih₁.1.trans ih₂.1, ih₁.2.trans ih₂.2⟩
  obtain ⟨⟨hrow, hcol, hchars⟩, hstate⟩ := hrun
  exact ⟨fun r c => hchars _ (RowMajor.flat_lt r.isLt c.isLt), hrow, hcol, hstate⟩

/-- `A` and `ESC[1;31mA`. -/
theorem text_of_sgrEdits_bold :
    let s := terminalInit ⟨2, 3, by decide, by decide, by decide⟩
    let s₁ := terminalProcessBytes s [65]
    let s₂ := terminalProcessBytes s [27, 91, 49, 59, 51, 49, 109, 65]
    (∀ r c, (s₁.screen.cell r c).ch = (s₂.screen.cell r c).ch) ∧
      s₁.screen.cursorRow = s₂.screen.cursorRow ∧ s₁.screen.cursorCol = s₂.screen.cursorCol ∧
      s₁.parser.parseState = s₂.parser.parseState :=
  text_of_sgrEdits _ _ _ (.rel _ _ (.insert [] [65] [49, 59, 51, 49] rfl (isParamChar_fieldBytes [[1], [3, 1]])))

end Ptywrap
