import Ptywrap.Process
import Ptywrap.Decimal
/-!
# Encode — the bytes of a command, and what the reader makes of them

A `CsiCommand` is a list of at most sixteen decimal numerals and a final byte; its encoding is `ESC [`, the numerals
separated by `;`, and the final byte.  The reader turns the encoding back into the one action that carries the values
(`outputs_encode`), whatever its parameters were before, and so a stream of encoded commands has the effect of the
commands themselves (`process_encode`).
-/
namespace Ptywrap

open CInt (wrap32 intMax Fits)
open Decimal (Numeral value push)

variable {g : Geometry}

/-! ## Encoding -/

def digitByte (d : Fin 10) : UInt8 := 48 + UInt8.ofNat d.val

def numeralBytes (ds : Numeral) : List UInt8 := ds.map digitByte

def fieldBytes : List Numeral → List UInt8
  | [] => []
  | [ds] => numeralBytes ds
  | ds :: es :: rest => numeralBytes ds ++ 59 :: fieldBytes (es :: rest)

/-- A CSI command as it is written: a lone numeral is not empty, every value is an `int`. -/
structure CsiCommand where
  numerals : List Numeral
  final : UInt8
  count_le : numerals.length ≤ 16
  lone_ne_nil : ∀ ds, numerals = [ds] → ds ≠ []
  value_le : ∀ ds ∈ numerals, (value ds : Int) ≤ intMax
  final_range : 0x40 ≤ final ∧ final ≤ 0x7E

inductive Command where
  | printable (ch : UInt8) (h : 32 ≤ ch ∧ ch ≤ 126)
  | lf
  | cr
  | bs
  | csi (c : CsiCommand)

def CsiCommand.encode (c : CsiCommand) : List UInt8 := 27 :: 91 :: (fieldBytes c.numerals ++ [c.final])

def Command.encode : Command → List UInt8
  | .printable ch _ => [ch]
  | .lf => [10]
  | .cr => [13]
  | .bs => [8]
  | .csi c => c.encode

/-- The parameter array that holds the values, and zeros after them. -/
def paramsOf (vs : List Nat) : Vector Int 16 := Vector.ofFn fun i : Fin 16 => ((vs.getD i.val 0 : Nat) : Int)

def argsOf (vs : List Nat) : CsiArgs := ⟨paramsOf vs, vs.length⟩

/-- The same for any values of type `int`. -/
def slots (vs : List Int) : Vector Int 16 := Vector.ofFn fun i : Fin 16 => vs.getD i.val 0

def intArgs (vs : List Int) : CsiArgs := ⟨slots vs, vs.length⟩

/-- `ESC [ p1 ; … ; pk final`, with any number of parameters. -/
def sequenceBytes (ns : List Numeral) (final : UInt8) : List UInt8 := 27 :: 91 :: (fieldBytes ns ++ [final])

def Command.action : Command → Action
  | .printable ch _ => .putChar ch
  | .lf => .newline
  | .cr => .carriageReturn
  | .bs => .backspace
  | .csi c => .executeCsi (argsOf (c.numerals.map value)) c.final

/-- The direct effect of a command on the screen. -/
def Command.direct (s : Screen g) (c : Command) : Screen g := c.action.exec s

/-! ## Parameter bytes -/

theorem toNat_digitByte (d : Fin 10) : (digitByte d).toNat = 48 + d.val := by
  revert d; decide

theorem isDigit_digitByte (d : Fin 10) : isDigit (digitByte d) = true := by
  revert d; decide

theorem param_argsOf (vs : List Nat) (i : Nat) (hi : i < 16) : (argsOf vs).param i = ((vs.getD i 0 : Nat) : Int) := by
  unfold argsOf CsiArgs.param paramsOf
  dsimp only
  rw [RowMajor.getD_of_lt _ i 0 hi, Vector.getElem_ofFn]

theorem arg_argsOf (vs : List Nat) (i : Nat) (dflt : Int) (hi : i < vs.length) (hi' : i < 16) :
    (argsOf vs).arg i dflt = ((vs.getD i 0 : Nat) : Int) := by
  unfold CsiArgs.arg
  rw [if_pos (show i < (argsOf vs).csiParamCount from hi)]
  exact param_argsOf vs i hi'

theorem paramsOf_eq (vs : List Nat) : paramsOf vs = slots (vs.map fun n : Nat => (n : Int)) := by
  unfold paramsOf slots
  congr 1
  funext i
  rw [List.getD_eq_getElem?_getD, List.getD_eq_getElem?_getD, List.getElem?_map]
  cases vs[i.val]? <;> rfl

theorem slots_nil : slots [] = Vector.replicate 16 0 := by
  decide

theorem slots_snoc_zero (vs : List Int) : slots (vs ++ [0]) = slots vs := by
  apply Vector.ext
  intro i hi
  unfold slots
  rw [Vector.getElem_ofFn, Vector.getElem_ofFn]
  dsimp only
  rcases Nat.lt_trichotomy i vs.length with h | h | h
  · simp [List.getD, List.getElem?_append_left h]
  · subst h; simp [List.getD]
  · simp [List.getD, List.getElem?_append_right (Nat.le_of_lt h), List.getElem?_eq_none (Nat.le_of_lt h),
      show ¬ i - vs.length = 0 by omega]

theorem slots_set_last (vs : List Int) (v w : Int) :
    (slots (vs ++ [v])).setIfInBounds vs.length w = slots (vs ++ [w]) := by
  apply Vector.ext
  intro i hi
  unfold slots
  rw [Vector.getElem_setIfInBounds hi, Vector.getElem_ofFn, Vector.getElem_ofFn]
  dsimp only
  rcases Nat.lt_trichotomy i vs.length with h | h | h
  · rw [if_neg (by omega)]; simp [List.getD, List.getElem?_append_left h]
  · subst h; simp [List.getD]
  · rw [if_neg (by omega)]
    simp [List.getD, List.getElem?_append_right (Nat.le_of_lt h), show ¬ i - vs.length = 0 by omega]

/-- What a digit makes of the open parameter. -/
def pushInt (v : Int) (d : Fin 10) : Int := wrap32 (v * 10 + (d.val : Int))

/-- The `int` that a field leaves. -/
def fieldInt (ds : Numeral) : Int := ds.foldl pushInt 0

/-- The reader in the middle of a sequence: the fields read so far, the last of them still open. -/
def midField (st : ParseState) (vs : List Int) (v : Int) : Parser where
  csiParams := slots (vs ++ [v])
  csiParamCount := vs.length
  parseState := st

/-- The same with the values of fields that are in the range of `int`. -/
def reading (st : ParseState) (vs : List Nat) (v : Nat) : Parser where
  csiParams := paramsOf (vs ++ [v])
  csiParamCount := vs.length
  parseState := st

theorem reading_start (st : ParseState) : reading st [] 0 = midField st [] 0 := by
  unfold reading midField
  rw [paramsOf_eq]
  rfl

theorem param_midField (st : ParseState) (vs : List Int) (v : Int) (hlen : vs.length < 16) :
    (midField st vs v).param vs.length = v := by
  unfold midField CsiArgs.param slots
  dsimp only
  rw [RowMajor.getD_of_lt _ vs.length 0 hlen, Vector.getElem_ofFn]
  simp [List.getD]

/-- **A digit extends the open field.** -/
theorem digit_midField (st : ParseState) (vs : List Int) (v : Int) (d : Fin 10) (hlen : vs.length < 16) :
    (midField st vs v).digit (digitByte d) = midField .csiParam vs (pushInt v d) := by
  have hd : (((digitByte d).toNat : Int) - 48) = (d.val : Int) := by
    rw [toNat_digitByte]
    omega
  unfold Parser.digit
  rw [show (midField st vs v).csiParamCount = vs.length from rfl, param_midField st vs v hlen, hd,
    show (midField st vs v).csiParams = slots (vs ++ [v]) from rfl, slots_set_last]
  rfl

/-- **A `;` closes the open field and opens the next one at zero.** -/
theorem semicolon_midField (st : ParseState) (vs : List Int) (v : Int) (hlen : vs.length + 1 < 16) :
    (midField st vs v).semicolon = midField .csiParam (vs ++ [v]) 0 := by
  unfold Parser.semicolon midField
  dsimp only
  rw [if_neg (by omega), slots_snoc_zero, List.length_append, List.length_singleton]

theorem pushInt_of_le (v : Nat) (d : Fin 10) (h : ((push v d : Nat) : Int) ≤ intMax) :
    pushInt (v : Int) d = ((push v d : Nat) : Int) := by
  unfold pushInt push at *
  unfold intMax at h
  rw [CInt.wrap32_of_fits]
  · omega
  · rw [CInt.fits_iff]; omega

/-- **A field whose value is an `int` leaves its value.** -/
theorem foldl_pushInt_of_le : ∀ (ds : Numeral) (v : Nat), ((ds.foldl push v : Nat) : Int) ≤ intMax →
    ds.foldl pushInt (v : Int) = ((ds.foldl push v : Nat) : Int)
  | [], _, _ => rfl
  | d :: ds, v, h => by
    rw [List.foldl_cons] at h
    have := Decimal.foldl_push_ge ds (push v d)
    rw [List.foldl_cons, List.foldl_cons, pushInt_of_le v d (by omega), foldl_pushInt_of_le ds (push v d) h]

/-! ## Whole sequences -/

def Parser.InCsi (p : Parser) : Prop := p.parseState = .csi ∨ p.parseState = .csiParam

theorem not_inCsi {p : Parser} (h : p.parseState = .normal ∨ p.parseState = .esc) : ¬ p.InCsi := by
  rintro (hs | hs)
  · rcases h with h | h <;> cases h.symm.trans hs
  · rcases h with h | h <;> cases h.symm.trans hs

theorem next_of_inCsi (p : Parser) (ch : UInt8) (h : p.InCsi) :
    p.next ch = if isDigit ch then p.digit ch else if ch = 59 then p.semicolon
      else { p.terminate with parseState := .normal } := by
  unfold Parser.next
  rcases h with h | h <;> rw [h]

theorem out_of_inCsi (p : Parser) (ch : UInt8) (h : p.InCsi) :
    p.out ch = if isDigit ch then [] else if ch = 59 then [] else [.executeCsi p.terminate.toCsiArgs ch] := by
  unfold Parser.out
  rcases h with h | h <;> rw [h]

/-- A digit or a `;`. -/
def isParamChar (ch : UInt8) : Bool := isDigit ch || decide (ch = 59)

/-- **Digits and `;` inside a sequence emit nothing and stay inside it.** -/
theorem outputs_paramChars : ∀ (bs : List UInt8) (p : Parser), p.InCsi → (∀ b ∈ bs, isParamChar b = true) →
    vtReader.outputs p bs = [] ∧ (vtReader.after p bs).InCsi
  | [], _, h, _ => ⟨rfl, h⟩
  | b :: bs, p, h, hb => by
    have hout : p.out b = [] ∧ (p.next b).InCsi := by
      have hb0 := hb b List.mem_cons_self
      unfold isParamChar at hb0
      rw [out_of_inCsi p b h, next_of_inCsi p b h]
      by_cases hd : isDigit b = true
      · rw [if_pos hd, if_pos hd]; exact ⟨rfl, .inr rfl⟩
      · have hs : b = 59 := by simpa [hd] using hb0
        rw [if_neg hd, if_neg hd, if_pos hs, if_pos hs]; exact ⟨rfl, .inr rfl⟩
    obtain ⟨ih1, ih2⟩ := outputs_paramChars bs (p.next b) hout.2 (fun x hx => hb x (List.mem_cons_of_mem b hx))
    rw [Transducer.outputs_cons, Transducer.after_cons]
    exact ⟨by rw [show vtReader.out p b = [] from hout.1, List.nil_append]; exact ih1, ih2⟩

theorem isParamChar_numeralBytes (ds : Numeral) : ∀ b ∈ numeralBytes ds, isParamChar b = true := by
  intro b hb
  obtain ⟨d, -, rfl⟩ := List.mem_map.1 hb
  unfold isParamChar
  rw [isDigit_digitByte]
  rfl

theorem isParamChar_fieldBytes : ∀ (ns : List Numeral), ∀ b ∈ fieldBytes ns, isParamChar b = true
  | [], _, hb => by cases hb
  | [ds], b, hb => isParamChar_numeralBytes ds b hb
  | ds :: es :: rest, b, hb => by
    unfold fieldBytes at hb
    rw [List.mem_append, List.mem_cons] at hb
    rcases hb with hb | rfl | hb
    · exact isParamChar_numeralBytes ds b hb
    · rfl
    · exact isParamChar_fieldBytes (es :: rest) b hb

theorem after_numeralBytes : ∀ (ds : Numeral) (st : ParseState) (vs : List Int) (v : Int),
    st = .csi ∨ st = .csiParam → vs.length < 16 →
    vtReader.after (midField st vs v) (numeralBytes ds) =
      midField (if ds = [] then st else .csiParam) vs (ds.foldl pushInt v)
  | [], _, _, _, _, _ => rfl
  | d :: ds, st, vs, v, hst, hlen => by
    have hstep : vtReader.next (midField st vs v) (digitByte d) = midField .csiParam vs (pushInt v d) := by
      have := next_of_inCsi (midField st vs v) (digitByte d) hst
      rw [isDigit_digitByte, if_pos rfl, digit_midField st vs v d hlen] at this
      exact this
    unfold numeralBytes
    rw [List.map_cons, Transducer.after_cons, hstep]
    have ih := after_numeralBytes ds .csiParam vs (pushInt v d) (.inr rfl) hlen
    unfold numeralBytes at ih
    rw [ih, if_neg (List.cons_ne_nil d ds), ite_self, List.foldl_cons]

/-- **The fields of a sequence leave their ints in the parameter array**, the count one short of them. -/
theorem after_fieldBytes : ∀ (ns : List Numeral) (st : ParseState) (vs : List Int),
    st = .csi ∧ (∀ ds, ns = [ds] → ds ≠ []) ∨ st = .csiParam → ns ≠ [] → vs.length + ns.length ≤ 16 →
    vtReader.after (midField st vs 0) (fieldBytes ns) =
      { csiParams := slots (vs ++ ns.map fieldInt), csiParamCount := vs.length + ns.length - 1,
        parseState := .csiParam }
  | [], _, _, _, h, _ => absurd rfl h
  | [ds], st, vs, hst, _, hlen => by
    unfold fieldBytes
    have hst' : st = .csi ∨ st = .csiParam := hst.imp And.left id
    rw [after_numeralBytes ds st vs 0 hst' (by simp only [List.length_singleton] at hlen; omega)]
    have hend : (if ds = [] then st else .csiParam) = .csiParam := by
      rcases hst with ⟨-, hne⟩ | hst
      · rw [if_neg (hne ds rfl)]
      · rw [hst, ite_self]
    rw [hend]
    rfl
  | ds :: es :: rest, st, vs, hst, _, hlen => by
    have hst' : st = .csi ∨ st = .csiParam := hst.imp And.left id
    simp only [List.length_cons] at hlen
    unfold fieldBytes
    rw [Transducer.after_append, after_numeralBytes ds st vs 0 hst' (by omega), Transducer.after_cons]
    have hmid : (if ds = [] then st else ParseState.csiParam) = .csi ∨
        (if ds = [] then st else ParseState.csiParam) = .csiParam := by
      split
      · exact hst'
      · exact .inr rfl
    generalize (if ds = [] then st else ParseState.csiParam) = st' at hmid ⊢
    have hsemi : vtReader.next (midField st' vs (fieldInt ds)) 59 = midField .csiParam (vs ++ [fieldInt ds]) 0 := by
      have := next_of_inCsi (midField st' vs (fieldInt ds)) 59 hmid
      rw [if_neg (by decide), if_pos rfl, semicolon_midField st' vs (fieldInt ds) (by omega)] at this
      exact this
    rw [show ds.foldl pushInt 0 = fieldInt ds from rfl, hsemi,
      after_fieldBytes (es :: rest) .csiParam (vs ++ [fieldInt ds]) (.inr rfl) (List.cons_ne_nil _ _)
        (by simp only [List.length_append, List.length_cons, List.length_nil]; omega)]
    simp only [List.map_cons, List.append_assoc, List.singleton_append, List.length_append, List.length_cons,
      List.length_nil]
    congr 2
    omega

theorem after_introducer (p : Parser) (h : p.parseState = .normal) :
    vtReader.outputs p [27, 91] = [] ∧ vtReader.after p [27, 91] = reading .csi [] 0 := by
  have h1 : p.out 27 = [] ∧ p.next 27 = { p with parseState := .esc } := by
    unfold Parser.out Parser.next
    rw [h]
    exact ⟨rfl, rfl⟩
  have h2 : vtReader.next p 27 = { p with parseState := .esc } := h1.2
  rw [Transducer.outputs_cons, Transducer.outputs_cons, Transducer.after_cons, Transducer.after_cons, h2,
    show vtReader.out p 27 = [] from h1.1]
  refine ⟨rfl, ?_⟩
  rw [reading_start]
  unfold midField
  rw [slots_snoc_zero, slots_nil]
  rfl

theorem terminator_of_inCsi (p : Parser) (ch : UInt8) (h : p.InCsi) (hch : isParamChar ch = false) :
    p.out ch = [.executeCsi p.terminate.toCsiArgs ch] ∧ p.next ch = { p.terminate with parseState := .normal } := by
  unfold isParamChar at hch
  simp only [Bool.or_eq_false_iff, decide_eq_false_iff_not] at hch
  rw [out_of_inCsi p ch h, next_of_inCsi p ch h, hch.1]
  simp only [Bool.false_eq_true, if_false, if_neg hch.2, and_self]

theorem isParamChar_of_final (ch : UInt8) (h : 0x40 ≤ ch) : isParamChar ch = false := by
  have hdigit : ¬ ch ≤ 57 := UInt8.not_le.2 (UInt8.lt_of_lt_of_le (by decide) h)
  have hsemicolon : ch ≠ 59 := ne_of_lt_of_le (by decide) h
  unfold isParamChar isDigit
  rw [decide_eq_false hdigit, decide_eq_false hsemicolon, Bool.and_false]
  rfl

/-- **A sequence is read into the one action of its terminator**, with the arguments its digits and `;` left. -/
theorem outputs_sequence (p : Parser) (h : p.parseState = .normal) (pre : List UInt8) (x : UInt8)
    (hpre : ∀ b ∈ pre, isParamChar b = true) (hx : isParamChar x = false) :
    vtReader.outputs p (27 :: 91 :: (pre ++ [x])) =
        [.executeCsi (vtReader.after (reading .csi [] 0) pre).terminate.toCsiArgs x] ∧
      (vtReader.after p (27 :: 91 :: (pre ++ [x]))).parseState = .normal := by
  obtain ⟨h1, h2⟩ := after_introducer p h
  obtain ⟨h3, h4⟩ := outputs_paramChars pre (reading .csi [] 0) (.inl rfl) hpre
  obtain ⟨h5, h6⟩ := terminator_of_inCsi _ x h4 hx
  have hsplit : (27 :: 91 :: (pre ++ [x]) : List UInt8) = [27, 91] ++ (pre ++ [x]) := rfl
  rw [hsplit, Transducer.outputs_append, Transducer.outputs_append, Transducer.after_append, Transducer.after_append,
    h1, h2, h3, Transducer.outputs_cons, Transducer.outputs_nil, Transducer.after_cons, Transducer.after_nil]
  exact ⟨by rw [List.nil_append, List.nil_append, List.append_nil]; exact h5, congrArg Parser.parseState h6⟩

/-- What the terminator hands over: the ints of the fields, counted. -/
theorem args_fieldBytes (ns : List Numeral) (hlen : ns.length ≤ 16) (hlone : ∀ ds, ns = [ds] → ds ≠ []) :
    (vtReader.after (reading .csi [] 0) (fieldBytes ns)).terminate.toCsiArgs = intArgs (ns.map fieldInt) := by
  by_cases hne : ns = []
  · subst hne
    decide
  · have hpos := List.length_pos_iff.2 hne
    rw [reading_start, after_fieldBytes ns .csi [] (.inl ⟨rfl, hlone⟩) hne (by simpa using hlen)]
    unfold Parser.terminate intArgs
    simp only [if_true, List.nil_append, List.length_nil, List.length_map]
    congr 1
    omega

/-- **The reader turns a sequence of at most sixteen parameters into the command**, and is back outside. -/
theorem outputs_sequenceBytes (ns : List Numeral) (hlen : ns.length ≤ 16) (hlone : ∀ ds, ns = [ds] → ds ≠ [])
    (final : UInt8) (hfinal : isParamChar final = false) (p : Parser) (h : p.parseState = .normal) :
    vtReader.outputs p (sequenceBytes ns final) = [.executeCsi (intArgs (ns.map fieldInt)) final] ∧
      (vtReader.after p (sequenceBytes ns final)).parseState = .normal := by
  rw [← args_fieldBytes ns hlen hlone]
  exact outputs_sequence p h _ _ (isParamChar_fieldBytes ns) hfinal

theorem screen_sequenceBytes (s : Session g) (hs : s.parser.parseState = .normal) (ns : List Numeral)
    (hlen : ns.length ≤ 16) (hlone : ∀ ds, ns = [ds] → ds ≠ []) (final : UInt8) (hfinal : isParamChar final = false) :
    (terminalProcessBytes s (sequenceBytes ns final)).screen =
        parserExecuteCsi (intArgs (ns.map fieldInt)) final s.screen ∧
      (terminalProcessBytes s (sequenceBytes ns final)).parser.parseState = .normal := by
  obtain ⟨h1, h2⟩ := outputs_sequenceBytes ns hlen hlone final hfinal s.parser hs
  rw [terminalProcessBytes_eq, h1]
  exact ⟨rfl, h2⟩

theorem outputs_csiEncode (c : CsiCommand) (p : Parser) (h : p.parseState = .normal) :
    vtReader.outputs p c.encode = [.executeCsi (argsOf (c.numerals.map value)) c.final] ∧
      (vtReader.after p c.encode).parseState = .normal := by
  have hvals : c.numerals.map fieldInt = (c.numerals.map value).map fun n : Nat => (n : Int) := by
    rw [List.map_map]
    exact List.map_congr_left fun ds hds => foldl_pushInt_of_le ds 0 (c.value_le ds hds)
  have hargs : intArgs (c.numerals.map fieldInt) = argsOf (c.numerals.map value) := by
    unfold intArgs argsOf
    rw [paramsOf_eq, ← hvals, List.length_map, List.length_map]
  rw [← hargs]
  exact outputs_sequenceBytes c.numerals c.count_le c.lone_ne_nil c.final
    (isParamChar_of_final c.final c.final_range.1) p h

/-- Above the control characters a byte is printed or ignored. -/
theorem outputs_of_blank_le (ch : UInt8) (p : Parser) (h : p.parseState = .normal) (hch : 32 ≤ ch) :
    p.out ch = (if isPrintable ch then [.putChar ch] else []) ∧ p.next ch = p := by
  have hne : ∀ k < 32, ch ≠ k := fun k hk => ne_of_lt_of_le hk hch
  unfold Parser.out Parser.next
  rw [h]
  dsimp only
  rw [if_neg (hne 27 (by decide)), if_neg (hne 10 (by decide)), if_neg (hne 13 (by decide)), if_neg (hne 8 (by decide)),
    if_neg (hne 27 (by decide))]
  exact ⟨rfl, rfl⟩

theorem outputs_printable (ch : UInt8) (p : Parser) (h : p.parseState = .normal) (hch : isPrintable ch = true) :
    p.out ch = [.putChar ch] ∧ p.next ch = p := by
  have hout := outputs_of_blank_le ch p h ((isPrintable_iff ch).1 hch).1
  rw [if_pos hch] at hout
  exact hout

theorem outputs_printables : ∀ (text : List UInt8) (p : Parser), p.parseState = .normal →
    (∀ b ∈ text, isPrintable b = true) →
    vtReader.outputs p text = text.map Action.putChar ∧ vtReader.after p text = p
  | [], _, _, _ => ⟨rfl, rfl⟩
  | b :: text, p, h, hb => by
    obtain ⟨h1, h2⟩ := outputs_printable b p h (hb b List.mem_cons_self)
    have h2' : vtReader.next p b = p := h2
    obtain ⟨ih1, ih2⟩ := outputs_printables text p h (fun x hx => hb x (List.mem_cons_of_mem b hx))
    rw [Transducer.outputs_cons, Transducer.after_cons, h2', ih1, ih2, show vtReader.out p b = [.putChar b] from h1]
    exact ⟨rfl, rfl⟩

theorem foldl_exec_putChar (text : List UInt8) (s : Screen g) :
    (text.map Action.putChar).foldl Action.exec s = text.foldl terminalPutChar s := by
  rw [List.foldl_map]
  rfl

theorem screen_printables (s : Session g) (hs : s.parser.parseState = .normal) (text : List UInt8)
    (htext : ∀ b ∈ text, isPrintable b = true) :
    (terminalProcessBytes s text).screen = text.foldl terminalPutChar s.screen ∧
      (terminalProcessBytes s text).parser.parseState = .normal := by
  obtain ⟨h1, h2⟩ := outputs_printables text s.parser hs htext
  rw [terminalProcessBytes_eq, h1, h2, foldl_exec_putChar]
  exact ⟨rfl, hs⟩

theorem outputs_control (ch : UInt8) (a : Action) (p : Parser) (h : p.parseState = .normal)
    (hch : (ch, a) ∈ [((10 : UInt8), Action.newline), (13, .carriageReturn), (8, .backspace)]) :
    p.out ch = [a] ∧ p.next ch = p := by
  unfold Parser.out Parser.next
  rw [h]
  simp only [List.mem_cons, Prod.mk.injEq, List.not_mem_nil, or_false] at hch
  rcases hch with ⟨rfl, rfl⟩ | ⟨rfl, rfl⟩ | ⟨rfl, rfl⟩ <;> exact ⟨rfl, rfl⟩

theorem outputs_singleton (ch : UInt8) (a : Action) (p : Parser) (h : p.parseState = .normal)
    (hstep : p.out ch = [a] ∧ p.next ch = p) :
    vtReader.outputs p [ch] = [a] ∧ (vtReader.after p [ch]).parseState = .normal := by
  rw [Transducer.outputs_cons, Transducer.after_cons, show vtReader.out p ch = [a] from hstep.1,
    show vtReader.next p ch = p from hstep.2]
  exact ⟨rfl, h⟩

theorem outputs_encode (c : Command) (p : Parser) (h : p.parseState = .normal) :
    vtReader.outputs p c.encode = [c.action] ∧ (vtReader.after p c.encode).parseState = .normal := by
  cases c with
  | printable ch hch =>
    exact outputs_singleton ch _ p h (outputs_printable ch p h ((isPrintable_iff ch).2 hch))
  | lf => exact outputs_singleton 10 _ p h (outputs_control 10 _ p h (by decide))
  | cr => exact outputs_singleton 13 _ p h (outputs_control 13 _ p h (by decide))
  | bs => exact outputs_singleton 8 _ p h (outputs_control 8 _ p h (by decide))
  | csi c => exact outputs_csiEncode c p h

theorem screen_csiEncode (s : Session g) (hs : s.parser.parseState = .normal) (c : CsiCommand) :
    (terminalProcessBytes s c.encode).screen = parserExecuteCsi (argsOf (c.numerals.map value)) c.final s.screen ∧
      (terminalProcessBytes s c.encode).parser.parseState = .normal := by
  obtain ⟨h1, h2⟩ := outputs_csiEncode c s.parser hs
  rw [terminalProcessBytes_eq, h1]
  exact ⟨rfl, h2⟩

/-! ## Positioning -/

/-- `ESC [ row ; col H`. -/
def positionBytes (row col : Nat) : List UInt8 :=
  27 :: 91 :: (numeralBytes (Decimal.ofNat row) ++ 59 :: numeralBytes (Decimal.ofNat col) ++ [72])

theorem value_position_le (r : Fin g.rows) (c : Fin g.cols) :
    ∀ ds ∈ [Decimal.ofNat (r.val + 1), Decimal.ofNat (c.val + 1)], (value ds : Int) ≤ intMax := by
  have hr := g.rows_le
  have hc := g.cols_le
  have hr' := r.isLt
  have hc' := c.isLt
  intro ds hds
  simp only [List.mem_cons, List.not_mem_nil, or_false] at hds
  rcases hds with rfl | rfl
  · rw [Decimal.value_ofNat]
    omega
  · rw [Decimal.value_ofNat]
    omega

def positionCommand (r : Fin g.rows) (c : Fin g.cols) : CsiCommand where
  numerals := [Decimal.ofNat (r.val + 1), Decimal.ofNat (c.val + 1)]
  final := 72
  count_le := Nat.le_of_ble_eq_true rfl
  lone_ne_nil := fun _ h => by cases h
  value_le := value_position_le r c
  final_range := by decide

theorem encode_positionCommand (r : Fin g.rows) (c : Fin g.cols) :
    (positionCommand r c).encode = positionBytes (r.val + 1) (c.val + 1) := by
  unfold CsiCommand.encode positionBytes positionCommand
  simp only [fieldBytes]

/-- **`ESC [ r+1 ; c+1 H` puts the cursor at row `r` and column `c`.** -/
theorem screen_position (s : Session g) (hs : s.parser.parseState = .normal) (r : Fin g.rows) (c : Fin g.cols) :
    (terminalProcessBytes s (positionBytes (r.val + 1) (c.val + 1))).screen =
        { s.screen with cursorRow := (r.val : Int), cursorCol := (c.val : Int) } ∧
      (terminalProcessBytes s (positionBytes (r.val + 1) (c.val + 1))).parser.parseState = .normal := by
  have hr := r.isLt
  have hc := c.isLt
  obtain ⟨h1, h2⟩ := screen_csiEncode s hs (positionCommand r c)
  have hvals : (positionCommand r c).numerals.map value = [r.val + 1, c.val + 1] := by
    unfold positionCommand
    simp only [List.map_cons, List.map_nil, Decimal.value_ofNat]
  have hrow : (argsOf [r.val + 1, c.val + 1]).arg 0 1 = ((r.val + 1 : Nat) : Int) := arg_argsOf _ 0 1 (by simp) (by simp)
  have hcol : (argsOf [r.val + 1, c.val + 1]).arg 1 1 = ((c.val + 1 : Nat) : Int) := arg_argsOf _ 1 1 (by simp) (by simp)
  rw [← encode_positionCommand]
  refine ⟨?_, h2⟩
  rw [h1, hvals, show (positionCommand r c).final = 72 from rfl]
  unfold parserExecuteCsi
  simp +decide only [if_true, if_false]
  unfold executeCursorPosition
  rw [hrow, hcol, clampPosition_of_le g.rows_le (by omega) (by omega),
    clampPosition_of_le g.cols_le (by omega) (by omega)]
  simp only [Int.natCast_add, Int.natCast_one, Int.add_sub_cancel]

/-! ## Erasing -/

def eraseCommand : CsiCommand where
  numerals := [Decimal.ofNat 2]
  final := 74
  count_le := by decide
  lone_ne_nil := fun ds h => by cases h; exact Decimal.ofNat_ne_nil 2
  value_le := fun ds h => by rw [List.mem_singleton.1 h, Decimal.value_ofNat]; decide
  final_range := by decide

theorem encode_eraseCommand : eraseCommand.encode = [27, 91, 50, 74] := by
  decide

/-! ## Streams of commands -/

def encodeAll (cs : List Command) : List UInt8 := cs.flatMap Command.encode

theorem outputs_encodeAll : ∀ (cs : List Command) (p : Parser), p.parseState = .normal →
    vtReader.outputs p (encodeAll cs) = cs.map Command.action ∧ (vtReader.after p (encodeAll cs)).parseState = .normal
  | [], _, h => ⟨rfl, h⟩
  | c :: cs, p, h => by
    obtain ⟨h1, h2⟩ := outputs_encode c p h
    obtain ⟨ih1, ih2⟩ := outputs_encodeAll cs (vtReader.after p c.encode) h2
    unfold encodeAll at ih1 ih2 ⊢
    rw [List.flatMap_cons, Transducer.outputs_append, Transducer.after_append, h1, ih1]
    exact ⟨rfl, ih2⟩

theorem screen_encodeAll (s : Session g) (hs : s.parser.parseState = .normal) (cs : List Command) :
    (terminalProcessBytes s (encodeAll cs)).screen = cs.foldl Command.direct s.screen ∧
      (terminalProcessBytes s (encodeAll cs)).parser.parseState = .normal := by
  obtain ⟨h1, h2⟩ := outputs_encodeAll cs s.parser hs
  rw [terminalProcessBytes_eq]
  refine ⟨?_, h2⟩
  simp only
  rw [h1, List.foldl_map]
  rfl

/-- **The parser undoes the encoding**: however the encoded commands are cut into chunks, the screen they leave is the
one their direct effects leave in order, and the parser is back in the normal state. -/
theorem process_encode (s : Session g) (hs : s.parser.parseState = .normal) (cs : List Command)
    (chunks : List (List UInt8)) (hchunks : chunks.flatten = encodeAll cs) :
    (chunks.foldl terminalProcessBytes s).screen = cs.foldl Command.direct s.screen ∧
      (chunks.foldl terminalProcessBytes s).parser.parseState = .normal := by
  rw [foldl_terminalProcessBytes, hchunks]
  exact screen_encodeAll s hs cs

/-- `A ESC[;02H B` cut before the `2`. -/
theorem process_encode_cut :
    let s := terminalInit ⟨2, 3, by decide, by decide, by decide⟩
    let cs : List Command := [.printable 65 (by decide),
      .csi ⟨[[], [0, 2]], 72, by decide, fun _ h => (by cases h), by decide, by decide⟩, .printable 66 (by decide)]
    let chunks : List (List UInt8) := [[65, 27, 91, 59, 48], [50, 72, 66]]
    (chunks.foldl terminalProcessBytes s).screen = cs.foldl Command.direct s.screen ∧
      (chunks.foldl terminalProcessBytes s).parser.parseState = .normal :=
  process_encode _ rfl _ _ (by decide)

end Ptywrap
