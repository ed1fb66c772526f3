import Ptywrap.Unsupported
/-!
# Resync — an ESC in the middle of a sequence

Only outside a sequence does an ESC start one.  After an ESC it is an unknown escape, inside a CSI sequence it is the
terminator, and both times the parser is outside again when the `[` comes: the new sequence is printed instead of
executed (`screen_pending`).  So a command has its effect exactly when it meets the parser outside a sequence
(`resync_iff`).
-/
namespace Ptywrap

open Decimal (value)

variable {g : Geometry}

/-- The bytes of a command after its ESC. -/
def CsiCommand.tail (c : CsiCommand) : List UInt8 := 91 :: (fieldBytes c.numerals ++ [c.final])

theorem isPrintable_of_isParamChar (ch : UInt8) (h : isParamChar ch = true) : isPrintable ch = true := by
  unfold isParamChar isDigit at h
  simp only [Bool.or_eq_true, Bool.and_eq_true, decide_eq_true_eq] at h
  rcases h with h | rfl
  · exact isPrintable_of_range h (by decide) (by decide)
  · rfl

theorem CsiCommand.isPrintable_tail (c : CsiCommand) : ∀ b ∈ c.tail, isPrintable b = true := by
  intro b hb
  unfold CsiCommand.tail at hb
  rw [List.mem_cons, List.mem_append, List.mem_singleton] at hb
  rcases hb with rfl | hb | rfl
  · rfl
  · exact isPrintable_of_isParamChar b (isParamChar_fieldBytes c.numerals b hb)
  · exact isPrintable_of_range c.final_range (by decide) (by decide)

/-- **An ESC inside a sequence ends it**, with no command executed and none begun. -/
theorem escape_pending (p : Parser) (h : p.parseState ≠ .normal) :
    (p.out 27 = [] ∨ p.out 27 = [.executeCsi p.terminate.toCsiArgs 27]) ∧ (p.next 27).parseState = .normal := by
  unfold Parser.out Parser.next
  cases hp : p.parseState with
  | normal => exact absurd hp h
  | esc => exact ⟨.inl rfl, rfl⟩
  | csi => exact ⟨.inr rfl, rfl⟩
  | csiParam => exact ⟨.inr rfl, rfl⟩

/-- **What the reader makes of a command inside another sequence**: printed characters. -/
theorem outputs_pending (c : CsiCommand) (p : Parser) (h : p.parseState ≠ .normal) :
    vtReader.outputs p c.encode = p.out 27 ++ c.tail.map Action.putChar ∧
      (vtReader.after p c.encode).parseState = .normal := by
  obtain ⟨-, hnext⟩ := escape_pending p h
  have hnext' : (vtReader.next p 27).parseState = .normal := hnext
  obtain ⟨hout, hafter⟩ := outputs_printables c.tail (vtReader.next p 27) hnext' c.isPrintable_tail
  have hbytes : c.encode = 27 :: c.tail := rfl
  rw [hbytes, Transducer.outputs_cons, Transducer.after_cons, hout, hafter]
  exact ⟨rfl, hnext'⟩

/-- **Inside another sequence a command is printed on the screen.** -/
theorem screen_pending (s : Session g) (h : s.parser.parseState ≠ .normal) (c : CsiCommand) :
    (terminalProcessBytes s c.encode).screen = c.tail.foldl terminalPutChar s.screen := by
  have hend : (s.parser.out 27).foldl Action.exec s.screen = s.screen := by
    rcases (escape_pending s.parser h).1 with hout | hout
    · rw [hout]
      rfl
    · rw [hout]
      exact parserExecuteCsi_of_unsupported s.parser.terminate.toCsiArgs 27 s.screen (by decide)
  rw [terminalProcessBytes_eq, (outputs_pending c s.parser h).1]
  dsimp only
  rw [List.foldl_append, hend, foldl_exec_putChar]

/-- **A command has the effect it has in the normal state, none of its bytes printed, exactly when it meets the parser
in that state.** -/
theorem resync_iff (s : Session g) (c : CsiCommand) :
    ((terminalProcessBytes s c.encode).screen =
        (terminalProcessBytes { s with parser.parseState := .normal } c.encode).screen ∧
      ∀ ch, Action.putChar ch ∉ vtReader.outputs s.parser c.encode) ↔ s.parser.parseState = .normal := by
  constructor
  · rintro ⟨-, hprint⟩
    refine Classical.byContradiction fun hpending => hprint 91 ?_
    rw [(outputs_pending c s.parser hpending).1]
    exact List.mem_append_right _ List.mem_cons_self
  · intro hs
    have hsame : { s with parser.parseState := .normal } = s := by rw [← hs]
    rw [hsame, (outputs_csiEncode c s.parser hs).1]
    refine ⟨rfl, fun ch hch => ?_⟩
    cases List.mem_singleton.1 hch

/-- `ESC[1m` after a lone ESC prints `[1m`. -/
theorem resync_printed :
    ¬ ∀ (g : Geometry) (bs : List UInt8) (c : CsiCommand), c.final ∈ commandBytes →
      let s := terminalProcessBytes (terminalInit g) bs
      (terminalProcessBytes s c.encode).screen =
          (terminalProcessBytes { s with parser.parseState := .normal } c.encode).screen ∧
        ∀ ch, Action.putChar ch ∉ vtReader.outputs s.parser c.encode := by
  intro h
  have hsame := (h ⟨2, 4, by decide, by decide, by decide⟩ [27] ⟨[Decimal.ofNat 1], 109, by decide,
    fun ds h => by rw [← List.singleton_inj.1 h]; exact Decimal.ofNat_ne_nil 1,
    fun ds h => by rw [List.mem_singleton.1 h, Decimal.value_ofNat]; decide, by decide⟩ (by decide)).1
  have hcol := congrArg (fun s : Screen _ => s.cursorCol) hsame
  revert hcol
  decide

end Ptywrap
