import Ptywrap.Parser
import Ptywrap.Transducer
/-!
# Process — `terminal_process_bytes`, and the reader inside it

`terminalProcessByte` is the loop body as the source has it, parsing and acting at once.  `vtReader` is the parsing
alone: it reads bytes into `Action`s and never sees the screen.  `terminalProcessBytes_eq` puts the two back together:
a run leaves the screen that its actions, executed in order, leave.
-/
namespace Ptywrap

open CInt (wrap32)

variable {g : Geometry}

def isDigit (ch : UInt8) : Bool := decide (48 ≤ ch) && decide (ch ≤ 57)

/-- A character `terminal_process_bytes` prints.  A byte from 128 on is a negative `char`, and not one either. -/
def isPrintable (ch : UInt8) : Bool := decide (32 ≤ ch) && decide (ch < 127)

/-- The digit branch: accumulate into the current parameter. -/
def Parser.digit (p : Parser) (ch : UInt8) : Parser :=
  { p with
    parseState := .csiParam
    csiParams := p.csiParams.setIfInBounds p.csiParamCount
      (wrap32 (p.param p.csiParamCount * 10 + ((ch.toNat : Int) - 48))) }

/-- The `;` branch: the next parameter, the sixteenth being the last. -/
def Parser.semicolon (p : Parser) : Parser :=
  { p with
    parseState := .csiParam
    csiParamCount := if 16 ≤ p.csiParamCount + 1 then 15 else p.csiParamCount + 1 }

/-- The terminator branch: a sequence with parameters counts its last one. -/
def Parser.terminate (p : Parser) : Parser :=
  if p.parseState = .csiParam then { p with csiParamCount := p.csiParamCount + 1 } else p

/-- The body of `terminal_process_bytes`' loop. -/
def terminalProcessByte (s : Session g) (ch : UInt8) : Session g :=
  match s.parser.parseState with
  | .normal =>
    if ch = 27 then { s with parser.parseState := .esc }
    else if ch = 10 then { s with screen := terminalNewline s.screen }
    else if ch = 13 then { s with screen.cursorCol := 0 }
    else if ch = 8 then
      if 0 < s.screen.cursorCol then { s with screen.cursorCol := s.screen.cursorCol - 1 } else s
    else if isPrintable ch then { s with screen := terminalPutChar s.screen ch }
    else s
  | .esc =>
    if ch = 91 then { s with parser := { parserReset with parseState := .csi } }
    else { s with parser.parseState := .normal }
  | .csi | .csiParam =>
    if isDigit ch then { s with parser := s.parser.digit ch }
    else if ch = 59 then { s with parser := s.parser.semicolon }
    else
      { screen := parserExecuteCsi s.parser.terminate.toCsiArgs ch s.screen
        parser := { s.parser.terminate with parseState := .normal } }

def terminalProcessBytes (s : Session g) (data : List UInt8) : Session g := data.foldl terminalProcessByte s

/-! ## The reader -/

/-- What one byte makes the screen do. -/
inductive Action where
  | newline
  | carriageReturn
  | backspace
  | putChar (ch : UInt8)
  | executeCsi (p : CsiArgs) (cmd : UInt8)
deriving DecidableEq

def Action.exec (s : Screen g) : Action → Screen g
  | .newline => terminalNewline s
  | .carriageReturn => { s with cursorCol := 0 }
  | .backspace => if 0 < s.cursorCol then { s with cursorCol := s.cursorCol - 1 } else s
  | .putChar ch => terminalPutChar s ch
  | .executeCsi p cmd => parserExecuteCsi p cmd s

def Action.touched (g : Geometry) (pen : Pen) : Action → List Int
  | .newline => newlineTouched g pen
  | .carriageReturn => []
  | .backspace => []
  | .putChar _ => putCharTouched g pen
  | .executeCsi p cmd => csiTouched g p cmd pen

def Parser.next (p : Parser) (ch : UInt8) : Parser :=
  match p.parseState with
  | .normal => if ch = 27 then { p with parseState := .esc } else p
  | .esc => if ch = 91 then { parserReset with parseState := .csi } else { p with parseState := .normal }
  | .csi | .csiParam =>
    if isDigit ch then p.digit ch
    else if ch = 59 then p.semicolon
    else { p.terminate with parseState := .normal }

def Parser.out (p : Parser) (ch : UInt8) : List Action :=
  match p.parseState with
  | .normal =>
    if ch = 27 then []
    else if ch = 10 then [.newline]
    else if ch = 13 then [.carriageReturn]
    else if ch = 8 then [.backspace]
    else if isPrintable ch then [.putChar ch]
    else []
  | .esc => []
  | .csi | .csiParam => if isDigit ch then [] else if ch = 59 then [] else [.executeCsi p.terminate.toCsiArgs ch]

def vtReader : Transducer Parser UInt8 Action := ⟨Parser.next, Parser.out⟩

theorem isPrintable_iff (ch : UInt8) : isPrintable ch = true ↔ 32 ≤ ch ∧ ch ≤ 126 := by
  unfold isPrintable
  rw [Bool.and_eq_true, decide_eq_true_eq, decide_eq_true_eq]
  refine and_congr_right fun _ => ?_
  rw [UInt8.lt_iff_toNat_lt, UInt8.le_iff_toNat_le]
  exact Nat.lt_succ_iff

theorem isPrintable_of_range {ch lo hi : UInt8} (h : lo ≤ ch ∧ ch ≤ hi) (hlo : 32 ≤ lo) (hhi : hi ≤ 126) :
    isPrintable ch = true :=
  (isPrintable_iff ch).2 ⟨UInt8.le_trans hlo h.1, UInt8.le_trans h.2 hhi⟩

theorem ne_of_lt_of_le {ch lo k : UInt8} (hk : k < lo) (h : lo ≤ ch) : ch ≠ k := by
  rintro rfl
  exact absurd hk (UInt8.not_lt.2 h)

/-- **One byte is one step of the reader and the execution of what it emits.** -/
theorem terminalProcessByte_eq (s : Session g) (ch : UInt8) :
    terminalProcessByte s ch = ⟨(s.parser.out ch).foldl Action.exec s.screen, s.parser.next ch⟩ := by
  obtain ⟨scr, p⟩ := s
  unfold terminalProcessByte Parser.out Parser.next
  cases p.parseState with
  | normal =>
    dsimp only
    split
    · rfl
    split
    · rfl
    split
    · rfl
    split
    · split
      · rename_i h; simp [Action.exec, h]
      · rename_i h; simp [Action.exec, h]
    split <;> rfl
  | esc =>
    dsimp only
    split <;> rfl
  | csi =>
    dsimp only
    split
    · rfl
    split <;> rfl
  | csiParam =>
    dsimp only
    split
    · rfl
    split <;> rfl

/-- What a byte may emit: outside a sequence a control or a printable character, inside one its terminator's command. -/
inductive Parser.Emits (p : Parser) (ch : UInt8) : Action → Prop where
  | newline (h : p.parseState = .normal) : Emits p ch .newline
  | carriageReturn (h : p.parseState = .normal) : Emits p ch .carriageReturn
  | backspace (h : p.parseState = .normal) : Emits p ch .backspace
  | putChar (h : p.parseState = .normal) (hch : isPrintable ch = true) : Emits p ch (.putChar ch)
  | executeCsi (h : p.parseState = .csi ∨ p.parseState = .csiParam) :
    Emits p ch (.executeCsi p.terminate.toCsiArgs ch)

/-- **A byte emits at most one action.** -/
theorem out_cases (p : Parser) (ch : UInt8) : p.out ch = [] ∨ ∃ a, p.out ch = [a] ∧ p.Emits ch a := by
  unfold Parser.out
  cases hstate : p.parseState with
  | normal =>
    dsimp only
    split
    · exact .inl rfl
    split
    · exact .inr ⟨_, rfl, .newline hstate⟩
    split
    · exact .inr ⟨_, rfl, .carriageReturn hstate⟩
    split
    · exact .inr ⟨_, rfl, .backspace hstate⟩
    split
    · next hch => exact .inr ⟨_, rfl, .putChar hstate hch⟩
    · exact .inl rfl
  | esc => exact .inl rfl
  | csi =>
    dsimp only
    split
    · exact .inl rfl
    split
    · exact .inl rfl
    · exact .inr ⟨_, rfl, .executeCsi (.inl hstate)⟩
  | csiParam =>
    dsimp only
    split
    · exact .inl rfl
    split
    · exact .inl rfl
    · exact .inr ⟨_, rfl, .executeCsi (.inr hstate)⟩

theorem emits_of_mem_out {p : Parser} {ch : UInt8} {a : Action} (h : a ∈ p.out ch) : p.Emits ch a := by
  rcases out_cases p ch with hout | ⟨b, hout, hb⟩
  · rw [hout] at h
    cases h
  · rw [hout, List.mem_singleton] at h
    rw [h]
    exact hb

/-- **A run's screen is what its actions leave, its parser is the reader's.** -/
theorem terminalProcessBytes_eq (bs : List UInt8) (s : Session g) :
    terminalProcessBytes s bs =
      ⟨(vtReader.outputs s.parser bs).foldl Action.exec s.screen, vtReader.after s.parser bs⟩ := by
  let pair : Screen g × Parser → Session g := fun t => ⟨t.1, t.2⟩
  have hrun : bs.foldl terminalProcessByte (pair (s.screen, s.parser)) =
      pair (bs.foldl (vtReader.drive Action.exec) (s.screen, s.parser)) :=
    List.foldl_hom pair (fun t ch => terminalProcessByte_eq (pair t) ch)
  rw [Transducer.runDrive_eq] at hrun
  exact hrun

theorem terminalProcessBytes_append (s : Session g) (xs ys : List UInt8) :
    terminalProcessBytes s (xs ++ ys) = terminalProcessBytes (terminalProcessBytes s xs) ys := by
  unfold terminalProcessBytes
  exact List.foldl_append

/-- **Cutting the stream into chunks changes nothing.** -/
theorem foldl_terminalProcessBytes : ∀ (chunks : List (List UInt8)) (s : Session g),
    chunks.foldl terminalProcessBytes s = terminalProcessBytes s chunks.flatten
  | [], _ => rfl
  | c :: cs, s => by
    rw [List.foldl_cons, foldl_terminalProcessBytes cs, List.flatten_cons, terminalProcessBytes_append]

theorem parser_terminalProcessBytes (s : Session g) (bs : List UInt8) :
    (terminalProcessBytes s bs).parser = vtReader.after s.parser bs := by
  rw [terminalProcessBytes_eq]

end Ptywrap
