import Ptywrap.Colours
import Ptywrap.Printable
/-!
# Reset — a reset and an erased display forget the past

After `ESC[0m` and `ESC[2J` the screen is that of `terminal_init`, wherever the cursor was (`screen_resetClear`): the
only field of the pen that neither command writes is one that nothing ever writes (`attrsCh_processBytes`).  What is left of
the past is the parameter array, which the reader clears before it reads it again, so every further stream acts as on a
fresh session (`reset_forgets`).
-/
namespace Ptywrap

variable {g : Geometry}

/-- `ESC[0m`, `ESC[2J`. -/
def resetClear : List UInt8 := [27, 91, 48, 109, 27, 91, 50, 74]

/-! ## The field no command writes -/

theorem currentAttrs_newline (s : Screen g) : (terminalNewline s).currentAttrs = s.currentAttrs := by
  unfold terminalNewline
  dsimp only
  split <;> rfl

theorem currentAttrs_putChar (s : Screen g) (ch : UInt8) : (terminalPutChar s ch).currentAttrs = s.currentAttrs := by
  unfold terminalPutChar
  split
  · rfl
  dsimp only
  split
  · exact currentAttrs_newline _
  · rfl

/-- **No action writes the character of the current attributes.** -/
theorem attrsCh_exec (s : Screen g) (a : Action) : (a.exec s).currentAttrs.ch = s.currentAttrs.ch := by
  cases a with
  | newline => exact congrArg Cell.ch (currentAttrs_newline s)
  | carriageReturn => rfl
  | backspace =>
    unfold Action.exec
    dsimp only
    split <;> rfl
  | putChar ch => exact congrArg Cell.ch (currentAttrs_putChar s ch)
  | executeCsi p cmd =>
    refine parserExecuteCsi_cases (motive := fun t => t.currentAttrs.ch = s.currentAttrs.ch) p cmd s (fun _ => ?sgr)
      (fun _ => ?move) (fun _ => rfl) (fun _ => ?display) (fun _ => rfl) (fun _ => rfl)
    case sgr => exact (executeSgr_keeps p s.currentAttrs).ch
    case move => exact congrArg Cell.ch (currentAttrs_executeCursorMove p cmd s.toPen)
    case display =>
      unfold executeEraseDisplay
      split <;> rfl

theorem attrsCh_exec_all : ∀ (as : List Action) (s : Screen g),
    (as.foldl Action.exec s).currentAttrs.ch = s.currentAttrs.ch
  | [], _ => rfl
  | a :: as, s => (attrsCh_exec_all as (a.exec s)).trans (attrsCh_exec s a)

theorem attrsCh_processBytes (bs : List UInt8) (s : Session g) :
    (terminalProcessBytes s bs).screen.currentAttrs.ch = s.screen.currentAttrs.ch := by
  rw [terminalProcessBytes_eq]
  exact attrsCh_exec_all _ _

/-! ## The two commands -/

theorem sgrFinal_range : (0x40 : UInt8) ≤ 109 ∧ (109 : UInt8) ≤ 0x7E := by decide

def resetCommand : CsiCommand where
  numerals := [Decimal.ofNat 0]
  final := 109
  count_le := Nat.le_of_ble_eq_true rfl
  lone_ne_nil := fun ds h => by rw [← List.singleton_inj.1 h]; exact Decimal.ofNat_ne_nil 0
  value_le := fun ds h => by rw [List.mem_singleton.1 h, Decimal.value_ofNat]; decide
  final_range := sgrFinal_range

theorem executeCsi_sgrReset (s : Screen g) :
    parserExecuteCsi (argsOf [0]) 109 s = { s with currentAttrs := sgrReset s.currentAttrs } := rfl

/-- **`2J` leaves a blank screen in the current colours, the cursor home.** -/
theorem executeCsi_clear (s : Screen g) :
    parserExecuteCsi (argsOf [2]) 74 s =
      { currentAttrs := s.currentAttrs
        cursorRow := 0
        cursorCol := 0
        buffer := Vector.replicate (g.rows * g.cols) s.blank } := by
  have herase : parserExecuteCsi (argsOf [2]) 74 s = executeEraseDisplay (argsOf [2]) s := rfl
  have harg : (argsOf [2]).arg 0 0 = 2 := rfl
  rw [herase]
  refine Screen.ext_cell ?_ (fun r c => ?_)
  · unfold executeEraseDisplay
    rw [if_pos harg]
  · rw [cell_executeEraseDisplay, if_pos harg]
    unfold Screen.cell
    rw [RowMajor.cell_eq _ r c (RowMajor.flat_lt r.isLt c.isLt), Vector.getElem_replicate]

/-- **A reset and an erased display give the screen of `terminal_init`.** -/
theorem screen_resetClear (s : Session g) (hs : s.parser.parseState = .normal) (hch : s.screen.currentAttrs.ch = 0) :
    (terminalProcessBytes s resetClear).screen = (terminalInit g).screen ∧
      (terminalProcessBytes s resetClear).parser.parseState = .normal := by
  obtain ⟨h1, h2⟩ := screen_csiEncode s hs resetCommand
  obtain ⟨h3, h4⟩ := screen_csiEncode _ h2 eraseCommand
  have hbytes : resetClear = resetCommand.encode ++ eraseCommand.encode := by decide
  have hreset : resetCommand.numerals.map Decimal.value = [0] := by decide
  have herase : eraseCommand.numerals.map Decimal.value = [2] := by decide
  rw [hbytes, terminalProcessBytes_append]
  refine ⟨?_, h4⟩
  rw [h3, h1, hreset, herase, show resetCommand.final = 109 from rfl, show eraseCommand.final = 74 from rfl]
  rw [executeCsi_sgrReset, executeCsi_clear]
  unfold terminalInit Pen.blank sgrReset
  dsimp only
  rw [hch]

/-! ## The future -/

theorem process_resetClear (g : Geometry) (u w : List UInt8)
    (hu : (terminalProcessBytes (terminalInit g) u).parser.parseState = .normal) :
    (terminalProcessBytes (terminalInit g) (u ++ resetClear ++ w)).screen =
        (terminalProcessBytes (terminalInit g) w).screen ∧
      (terminalProcessBytes (terminalInit g) (u ++ resetClear ++ w)).parser.parseState =
        (terminalProcessBytes (terminalInit g) w).parser.parseState := by
  have hch : (terminalProcessBytes (terminalInit g) u).screen.currentAttrs.ch = 0 := attrsCh_processBytes u _
  obtain ⟨hscreen, hnormal⟩ := screen_resetClear _ hu hch
  rw [terminalProcessBytes_append, terminalProcessBytes_append]
  generalize terminalProcessBytes (terminalProcessBytes (terminalInit g) u) resetClear = s at hscreen hnormal ⊢
  -- the readers differ in their old parameters alone
  obtain ⟨hout, hafter⟩ := outputs_of_agree w (Parser.agree_of_normal (q := parserReset) hnormal rfl)
  rw [terminalProcessBytes_eq, terminalProcessBytes_eq, hscreen, hout]
  exact ⟨rfl, hafter.1⟩

/-- **Reset-and-clear forgets all history**: after any two pasts the same future gives the same screen, cursor,
attributes and parse state, those of a fresh session. -/
theorem reset_forgets (g : Geometry) (u v w : List UInt8)
    (hu : (terminalProcessBytes (terminalInit g) u).parser.parseState = .normal)
    (hv : (terminalProcessBytes (terminalInit g) v).parser.parseState = .normal) :
    let su := terminalProcessBytes (terminalInit g) (u ++ resetClear ++ w)
    let sv := terminalProcessBytes (terminalInit g) (v ++ resetClear ++ w)
    let fresh := terminalProcessBytes (terminalInit g) w
    (su.screen = sv.screen ∧ su.parser.parseState = sv.parser.parseState) ∧
      su.screen = fresh.screen ∧ su.parser.parseState = fresh.parser.parseState := by
  obtain ⟨h1, h2⟩ := process_resetClear g u w hu
  obtain ⟨h3, h4⟩ := process_resetClear g v w hv
  exact ⟨⟨h1.trans h3.symm, h2.trans h4.symm⟩, h1, h2⟩

/-- A cursor driven off the screen by `ESC[4294967295B`, and a bold `A`. -/
theorem reset_forgets_offScreen :
    let g : Geometry := ⟨2, 3, by decide, by decide, by decide⟩
    let u : List UInt8 := [27, 91, 52, 50, 57, 52, 57, 54, 55, 50, 57, 53, 66]
    let v : List UInt8 := [27, 91, 49, 109, 65]
    let su := terminalProcessBytes (terminalInit g) (u ++ resetClear ++ [66])
    let sv := terminalProcessBytes (terminalInit g) (v ++ resetClear ++ [66])
    let fresh := terminalProcessBytes (terminalInit g) [66]
    (su.screen = sv.screen ∧ su.parser.parseState = sv.parser.parseState) ∧
      su.screen = fresh.screen ∧ su.parser.parseState = fresh.parser.parseState :=
  reset_forgets ⟨2, 3, by decide, by decide, by decide⟩ _ _ _ (by decide) (by decide)

end Ptywrap
