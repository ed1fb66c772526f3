import Ptywrap.Encode
import Ptywrap.Erasing
/-!
# Addressing — absolute and relative cursor addresses

`ESC[r;cH` counts from one and clamps; `ESC[H` and then `B` and `C` by the distances count from zero, the distance zero
being left out because it would be read as one.  Both put the cursor in the same place (`screen_position_clamped`,
`screen_relative`), and none of their `int` operations leaves the range of `int`.
-/
namespace Ptywrap

open CInt (wrap32 intMax Fits)
open Decimal (Numeral value push)
open Transducer (Throughout)

variable {g : Geometry}

/-! ## The arithmetic of a byte -/

/-- The exact results of the `int` operations of the cursor commands. -/
def CsiArgs.arithmetic (p : CsiArgs) (cmd : UInt8) (pen : Pen) : List Int :=
  if cmd = 65 then [pen.cursorRow - moveCount p]
  else if cmd = 66 then [pen.cursorRow + moveCount p]
  else if cmd = 67 then [pen.cursorCol + moveCount p]
  else if cmd = 68 then [pen.cursorCol - moveCount p]
  else if cmd = 72 ∨ cmd = 102 then [p.arg 0 1 - 1, p.arg 1 1 - 1]
  else []

/-- The exact results of the `int` operations on one byte of a CSI sequence: the digit's, the `;`'s and the
terminator's with those of its cursor command. -/
def Session.arithmetic (s : Session g) (ch : UInt8) : List Int :=
  match s.parser.parseState with
  | .normal => []
  | .esc => []
  | .csi | .csiParam =>
    let param := s.parser.param s.parser.csiParamCount
    if isDigit ch then [(ch.toNat : Int) - 48, param * 10, param * 10 + ((ch.toNat : Int) - 48)]
    else if ch = 59 then [(s.parser.csiParamCount : Int) + 1]
    else ((s.parser.csiParamCount : Int) + 1) :: s.parser.terminate.arithmetic ch s.screen.toPen

/-- None of them leaves the range of `int`. -/
def NoOverflow (s : Session g) (bs : List UInt8) : Prop :=
  Throughout terminalProcessByte (fun t ch => ∀ x ∈ t.arithmetic ch, Fits x) bs s

theorem noOverflow_nil (s : Session g) : NoOverflow s [] := trivial

theorem noOverflow_cons (s : Session g) (b : UInt8) (bs : List UInt8) :
    NoOverflow s (b :: bs) ↔ (∀ x ∈ s.arithmetic b, Fits x) ∧ NoOverflow (terminalProcessByte s b) bs := Iff.rfl

theorem noOverflow_append (s : Session g) (xs ys : List UInt8) :
    NoOverflow s (xs ++ ys) ↔ NoOverflow s xs ∧ NoOverflow (terminalProcessBytes s xs) ys :=
  Transducer.throughout_append xs ys s

theorem arithmetic_of_inCsi (s : Session g) (ch : UInt8) (h : s.parser.InCsi) :
    s.arithmetic ch =
      if isDigit ch then
        [(ch.toNat : Int) - 48, s.parser.param s.parser.csiParamCount * 10,
          s.parser.param s.parser.csiParamCount * 10 + ((ch.toNat : Int) - 48)]
      else if ch = 59 then [(s.parser.csiParamCount : Int) + 1]
      else ((s.parser.csiParamCount : Int) + 1) :: s.parser.terminate.arithmetic ch s.screen.toPen := by
  unfold Session.arithmetic
  rcases h with h | h <;> rw [h]

/-! ## Sequences without overflow -/

theorem processByte_of_silent (s : Session g) (ch : UInt8) (h : s.parser.out ch = []) :
    terminalProcessByte s ch = ⟨s.screen, s.parser.next ch⟩ := by
  rw [terminalProcessByte_eq, h]
  rfl

theorem fits_of_nonneg {x : Int} (h0 : 0 ≤ x) (h : x ≤ intMax) : Fits x := by
  unfold intMax at h
  rw [CInt.fits_iff]
  omega

/-- **The digits of an `int` do not overflow.** -/
theorem noOverflow_numeral : ∀ (ds : Numeral) (scr : Screen g) (st : ParseState) (vs : List Int) (v : Nat),
    st = .csi ∨ st = .csiParam → vs.length < 16 → ((ds.foldl push v : Nat) : Int) ≤ intMax →
    NoOverflow ⟨scr, midField st vs v⟩ (numeralBytes ds)
  | [], _, _, _, _, _, _, _ => trivial
  | d :: ds, scr, st, vs, v, hst, hlen, hv => by
    rw [List.foldl_cons] at hv
    have hpush : ((push v d : Nat) : Int) ≤ intMax := by
      have := Decimal.foldl_push_ge ds (push v d)
      omega
    have hnext : terminalProcessByte (⟨scr, midField st vs v⟩ : Session g) (digitByte d) =
        ⟨scr, midField .csiParam vs ((push v d : Nat) : Int)⟩ := by
      have hout := out_of_inCsi (midField st vs v) (digitByte d) hst
      have hstep := next_of_inCsi (midField st vs v) (digitByte d) hst
      rw [isDigit_digitByte, if_pos rfl] at hout hstep
      rw [processByte_of_silent ⟨scr, midField st vs v⟩ (digitByte d) hout]
      dsimp only
      rw [hstep, digit_midField st vs v d hlen, pushInt_of_le v d hpush]
    unfold numeralBytes
    rw [List.map_cons, noOverflow_cons, hnext]
    refine ⟨?_, noOverflow_numeral ds scr .csiParam vs (push v d) (.inr rfl) hlen hv⟩
    · rw [arithmetic_of_inCsi ⟨scr, midField st vs v⟩ (digitByte d) hst]
      dsimp only
      rw [isDigit_digitByte, if_pos rfl, show (midField st vs v).csiParamCount = vs.length from rfl,
        param_midField st vs v hlen, toNat_digitByte]
      unfold push at hpush
      simp only [List.forall_mem_cons]
      refine ⟨fits_of_nonneg (by omega) (by unfold intMax; omega), fits_of_nonneg (by omega) (by omega),
        fits_of_nonneg (by omega) (by omega), fun x hx => by cases hx⟩

/-- **A `;` counts one parameter more.** -/
theorem noOverflow_semicolon (scr : Screen g) (st : ParseState) (vs : List Int) (v : Int)
    (hst : st = .csi ∨ st = .csiParam) (hlen : vs.length < 16) : NoOverflow ⟨scr, midField st vs v⟩ [59] := by
  rw [noOverflow_cons]
  refine ⟨?_, trivial⟩
  rw [arithmetic_of_inCsi ⟨scr, midField st vs v⟩ 59 hst]
  dsimp only
  rw [if_neg (by decide), if_pos rfl, List.forall_mem_singleton]
  exact fits_of_nonneg (by omega) (show ((vs.length : Nat) : Int) + 1 ≤ intMax by unfold intMax; omega)

theorem processBytes_paramChars (bs : List UInt8) (scr : Screen g) (p : Parser) (hp : p.InCsi)
    (h : ∀ b ∈ bs, isParamChar b = true) :
    terminalProcessBytes (⟨scr, p⟩ : Session g) bs = ⟨scr, vtReader.after p bs⟩ := by
  rw [terminalProcessBytes_eq, (outputs_paramChars bs p hp h).1]
  rfl

/-- **The parameters of a sequence do not overflow**, each value being an `int`. -/
theorem noOverflow_fields : ∀ (ns : List Numeral) (scr : Screen g) (st : ParseState) (vs : List Int),
    st = .csi ∨ st = .csiParam → vs.length + ns.length ≤ 16 → (∀ ds ∈ ns, (value ds : Int) ≤ intMax) →
    NoOverflow ⟨scr, midField st vs 0⟩ (fieldBytes ns)
  | [], _, _, _, _, _, _ => trivial
  | [ds], scr, st, vs, hst, hlen, hv =>
    noOverflow_numeral ds scr st vs 0 hst (by simp only [List.length_singleton] at hlen; omega) (hv ds List.mem_cons_self)
  | ds :: es :: rest, scr, st, vs, hst, hlen, hv => by
    simp only [List.length_cons] at hlen
    have hds : ((value ds : Nat) : Int) ≤ intMax := hv ds List.mem_cons_self
    have hafter := after_numeralBytes ds st vs 0 hst (by omega)
    generalize hst' : (if ds = [] then st else ParseState.csiParam) = st' at hafter
    have hin : st' = .csi ∨ st' = .csiParam := by
      rw [← hst']
      split
      · exact hst
      · exact .inr rfl
    have hsemi : vtReader.next (midField st' vs (fieldInt ds)) 59 = midField .csiParam (vs ++ [fieldInt ds]) 0 := by
      refine (next_of_inCsi (midField st' vs (fieldInt ds)) 59 hin).trans ?_
      rw [if_neg (by decide), if_pos rfl, semicolon_midField st' vs (fieldInt ds) (by omega)]
    have hsplit : fieldBytes (ds :: es :: rest) = numeralBytes ds ++ ([59] ++ fieldBytes (es :: rest)) := rfl
    rw [hsplit, noOverflow_append, noOverflow_append]
    rw [processBytes_paramChars _ scr (midField st vs 0) hst (isParamChar_numeralBytes ds), hafter]
    refine ⟨noOverflow_numeral ds scr st vs 0 hst (by omega) hds, noOverflow_semicolon scr st' vs _ hin (by omega), ?_⟩
    rw [processBytes_paramChars [59] scr (midField st' vs _) hin (by simp [isParamChar]), Transducer.after_cons,
      Transducer.after_nil, show ds.foldl pushInt 0 = fieldInt ds from rfl, hsemi]
    refine noOverflow_fields (es :: rest) scr .csiParam _ (.inr rfl) ?_ fun x hx => hv x (List.mem_cons_of_mem ds hx)
    simp only [List.length_append, List.length_cons, List.length_nil]
    omega

/-- **A sequence does not overflow** when its values are `int`s and its command does not. -/
theorem noOverflow_sequence (s : Session g) (hs : s.parser.parseState = .normal) (ns : List Numeral)
    (hlen : ns.length ≤ 16) (hlone : ∀ ds, ns = [ds] → ds ≠ []) (hv : ∀ ds ∈ ns, (value ds : Int) ≤ intMax)
    (final : UInt8) (hfinal : isParamChar final = false)
    (hcmd : ∀ x ∈ (intArgs (ns.map fieldInt)).arithmetic final s.screen.toPen, Fits x) :
    NoOverflow s (sequenceBytes ns final) := by
  obtain ⟨hout, hstart⟩ := after_introducer s.parser hs
  have hintro : terminalProcessBytes s [27, 91] = ⟨s.screen, midField .csi [] 0⟩ := by
    rw [terminalProcessBytes_eq, hout, hstart, reading_start]
    rfl
  have hfields := processBytes_paramChars (fieldBytes ns) s.screen (midField .csi [] 0) (.inl rfl)
    (isParamChar_fieldBytes ns)
  have hin := (outputs_paramChars (fieldBytes ns) (midField .csi [] 0) (.inl rfl) (isParamChar_fieldBytes ns)).2
  have hargs := args_fieldBytes ns hlen hlone
  rw [reading_start] at hargs
  have hsplit : sequenceBytes ns final = [27, 91] ++ (fieldBytes ns ++ [final]) := rfl
  rw [hsplit, noOverflow_append, noOverflow_append, hintro, hfields]
  refine ⟨?_, noOverflow_fields ns s.screen .csi [] (.inl rfl) (by simpa using hlen) hv, ?_⟩
  · -- `ESC` and `[` compute nothing
    have hesc : terminalProcessByte s 27 = ⟨s.screen, { s.parser with parseState := .esc }⟩ := by
      unfold terminalProcessByte
      rw [hs]
      rfl
    rw [noOverflow_cons, hesc, noOverflow_cons]
    refine ⟨?_, ?_, trivial⟩
    · unfold Session.arithmetic
      rw [hs]
      exact List.forall_mem_nil _
    · exact List.forall_mem_nil _
  · rw [noOverflow_cons]
    refine ⟨?_, trivial⟩
    unfold isParamChar at hfinal
    simp only [Bool.or_eq_false_iff, decide_eq_false_iff_not] at hfinal
    generalize hq : vtReader.after (midField .csi [] 0) (fieldBytes ns) = q at hin hargs
    have hcount : (q.terminate.toCsiArgs).csiParamCount ≤ 16 := by
      rw [hargs]
      exact Nat.le_trans (Nat.le_of_eq (List.length_map _)) hlen
    have hle : q.csiParamCount ≤ (q.terminate.toCsiArgs).csiParamCount := by
      unfold Parser.terminate
      split
      · exact Nat.le_succ _
      · exact Nat.le_refl _
    rw [arithmetic_of_inCsi ⟨s.screen, q⟩ final hin, hfinal.1]
    dsimp only
    rw [if_neg Bool.false_ne_true, if_neg hfinal.2, hargs, List.forall_mem_cons]
    exact ⟨fits_of_nonneg (by omega) (by unfold intMax; omega), hcmd⟩

/-! ## The two ways to a place -/

/-- `ESC [ r ; c final`. -/
def absoluteBytes (r c : Nat) (final : UInt8) : List UInt8 := sequenceBytes [Decimal.ofNat r, Decimal.ofNat c] final

/-- `ESC [ n-1 final`, and nothing for the distance zero. -/
def distanceBytes (n : Nat) (final : UInt8) : List UInt8 :=
  if 1 < n then sequenceBytes [Decimal.ofNat (n - 1)] final else []

/-- `ESC[H`, then down and right. -/
def relativeBytes (r c : Nat) : List UInt8 := sequenceBytes [] 72 ++ (distanceBytes r 66 ++ distanceBytes c 67)

/-- The place in row `r` and column `c`, counted from one, or as near as the screen has it. -/
def Screen.moveTo (s : Screen g) (r c : Nat) : Screen g :=
  { s with cursorRow := min (r : Int) g.rows - 1, cursorCol := min (c : Int) g.cols - 1 }

theorem fieldInt_ofNat (n : Nat) (h : (n : Int) ≤ intMax) : fieldInt (Decimal.ofNat n) = (n : Int) := by
  have hvalue : (Decimal.ofNat n).foldl push 0 = n := Decimal.value_ofNat n
  have := foldl_pushInt_of_le (Decimal.ofNat n) 0 (by rw [hvalue]; exact h)
  rwa [hvalue] at this

theorem clampPosition_of_pos {size : Nat} {x : Int} (h1 : 1 ≤ x) (h2 : x ≤ intMax) :
    clampPosition size x = min x size - 1 := by
  unfold intMax at h2
  unfold clampPosition
  dsimp only
  rw [CInt.wrap32_of_fits (by rw [CInt.fits_iff]; omega)]
  simp only [if_neg (show ¬ x - 1 < 0 by omega)]
  split <;> omega

theorem arg_intArgs (vs : List Int) (i : Nat) (d : Int) (hi : i < vs.length) (hi' : i < 16) :
    (intArgs vs).arg i d = vs[i] := by
  unfold CsiArgs.arg intArgs CsiArgs.param slots
  dsimp only
  rw [if_pos hi, RowMajor.getD_of_lt _ i 0 hi', Vector.getElem_ofFn]
  exact (List.getElem_eq_getD 0).symm

theorem executeCsi_position (p : CsiArgs) (final : UInt8) (hfinal : final = 72 ∨ final = 102) (s : Screen g) (r c : Nat)
    (hr : p.arg 0 1 = (r : Int)) (hc : p.arg 1 1 = (c : Int)) (hr1 : 1 ≤ r) (hr2 : (r : Int) ≤ intMax) (hc1 : 1 ≤ c)
    (hc2 : (c : Int) ≤ intMax) : parserExecuteCsi p final s = s.moveTo r c := by
  have hexec : parserExecuteCsi p final s = { s with toPen := executeCursorPosition g p s.toPen } := by
    unfold parserExecuteCsi
    rcases hfinal with rfl | rfl <;> rfl
  rw [hexec]
  unfold executeCursorPosition Screen.moveTo
  rw [hr, hc, clampPosition_of_pos (by omega) hr2, clampPosition_of_pos (by omega) hc2]

/-- **A sequence of written-out numbers** runs its command on them; it overflows nowhere if the command does not. -/
theorem screen_numbers (s : Session g) (hs : s.parser.parseState = .normal) (ks : List Nat) (hlen : ks.length ≤ 16)
    (hmax : ∀ k ∈ ks, (k : Int) ≤ intMax) (final : UInt8) (hfinal : isParamChar final = false)
    (hcmd : ∀ x ∈ (intArgs (ks.map Nat.cast)).arithmetic final s.screen.toPen, Fits x) :
    (terminalProcessBytes s (sequenceBytes (ks.map Decimal.ofNat) final)).screen =
        parserExecuteCsi (intArgs (ks.map Nat.cast)) final s.screen ∧
      (terminalProcessBytes s (sequenceBytes (ks.map Decimal.ofNat) final)).parser.parseState = .normal ∧
      NoOverflow s (sequenceBytes (ks.map Decimal.ofNat) final) := by
  have hlen' : (ks.map Decimal.ofNat).length ≤ 16 := by rwa [List.length_map]
  have hlone : ∀ ds, ks.map Decimal.ofNat = [ds] → ds ≠ [] := by
    intro ds h
    obtain ⟨k, -, rfl⟩ := List.mem_map.1 (h ▸ List.mem_singleton_self ds)
    exact Decimal.ofNat_ne_nil k
  have hvalue : ∀ ds ∈ ks.map Decimal.ofNat, (value ds : Int) ≤ intMax := by
    intro ds h
    obtain ⟨k, hk, rfl⟩ := List.mem_map.1 h
    rw [Decimal.value_ofNat]
    exact hmax k hk
  have hfields : (ks.map Decimal.ofNat).map fieldInt = ks.map Nat.cast := by
    rw [List.map_map]
    exact List.map_congr_left fun k hk => fieldInt_ofNat k (hmax k hk)
  obtain ⟨hscreen, hnormal⟩ := screen_sequenceBytes s hs _ hlen' hlone final hfinal
  rw [hfields] at hscreen
  exact ⟨hscreen, hnormal, noOverflow_sequence s hs _ hlen' hlone hvalue final hfinal (by rwa [hfields])⟩

/-- A distance from the first row or column. -/
theorem moved_of_zero {size n : Nat} (hn : 1 < n) (hmax : (n : Int) ≤ intMax) :
    (if (size : Int) ≤ wrap32 (0 + ((n - 1 : Nat) : Int)) then (size : Int) - 1 else wrap32 (0 + ((n - 1 : Nat) : Int))) =
      min (n : Int) size - 1 := by
  unfold intMax at hmax
  rw [CInt.wrap32_of_fits (by rw [CInt.fits_iff]; omega)]
  split <;> omega

theorem moveCount_intArgs (n : Int) (hn : n ≠ 0) : moveCount (intArgs [n]) = n := by
  unfold moveCount
  rw [arg_intArgs [n] 0 1 (by simp) (by omega)]
  exact if_neg hn

/-- **One distance**, down or right, from the first row or column. -/
theorem screen_distance (s : Session g) (hs : s.parser.parseState = .normal) (n : Nat) (hn : 1 ≤ n)
    (hmax : (n : Int) ≤ intMax) :
    (s.screen.cursorRow = 0 →
      (terminalProcessBytes s (distanceBytes n 66)).screen =
          { s.screen with cursorRow := min (n : Int) g.rows - 1 } ∧
        (terminalProcessBytes s (distanceBytes n 66)).parser.parseState = .normal ∧ NoOverflow s (distanceBytes n 66)) ∧
    (s.screen.cursorCol = 0 →
      (terminalProcessBytes s (distanceBytes n 67)).screen =
          { s.screen with cursorCol := min (n : Int) g.cols - 1 } ∧
        (terminalProcessBytes s (distanceBytes n 67)).parser.parseState = .normal ∧ NoOverflow s (distanceBytes n 67)) := by
  have hrows := g.rows_pos
  have hcols := g.cols_pos
  unfold distanceBytes
  by_cases h1 : 1 < n
  · have hle : ∀ k ∈ [n - 1], (k : Int) ≤ intMax := by
      rw [List.forall_mem_singleton]
      omega
    have hcount : moveCount (intArgs ([n - 1].map Nat.cast)) = ((n - 1 : Nat) : Int) := moveCount_intArgs _ (by omega)
    have hfits : Fits (0 + ((n - 1 : Nat) : Int)) := fits_of_nonneg (by omega) (by omega)
    rw [if_pos h1, if_pos h1]
    constructor
    · intro h0
      have hcmd : ∀ x ∈ (intArgs ([n - 1].map Nat.cast)).arithmetic 66 s.screen.toPen, Fits x := by
        unfold CsiArgs.arithmetic
        rw [if_neg (by decide), if_pos rfl, hcount, h0, List.forall_mem_singleton]
        exact hfits
      obtain ⟨hscreen, hnormal, hexact⟩ := screen_numbers s hs [n - 1] (by simp) hle 66 rfl hcmd
      refine ⟨hscreen.trans ?_, hnormal, hexact⟩
      rw [← moved_of_zero h1 hmax, ← h0, ← hcount]
      rfl
    · intro h0
      have hcmd : ∀ x ∈ (intArgs ([n - 1].map Nat.cast)).arithmetic 67 s.screen.toPen, Fits x := by
        unfold CsiArgs.arithmetic
        rw [if_neg (by decide), if_neg (by decide), if_pos rfl, hcount, h0, List.forall_mem_singleton]
        exact hfits
      obtain ⟨hscreen, hnormal, hexact⟩ := screen_numbers s hs [n - 1] (by simp) hle 67 rfl hcmd
      refine ⟨hscreen.trans ?_, hnormal, hexact⟩
      rw [← moved_of_zero h1 hmax, ← h0, ← hcount]
      rfl
  · obtain rfl : n = 1 := by omega
    rw [if_neg h1, if_neg h1]
    constructor
    · intro h0
      refine ⟨?_, hs, noOverflow_nil s⟩
      rw [show min ((1 : Nat) : Int) g.rows - 1 = 0 by omega, ← h0]
      rfl
    · intro h0
      refine ⟨?_, hs, noOverflow_nil s⟩
      rw [show min ((1 : Nat) : Int) g.cols - 1 = 0 by omega, ← h0]
      rfl

/-- **The absolute address.** -/
theorem screen_absolute (s : Session g) (hs : s.parser.parseState = .normal) (r c : Nat) (hr : 1 ≤ r)
    (hrmax : (r : Int) ≤ intMax) (hc : 1 ≤ c) (hcmax : (c : Int) ≤ intMax) (final : UInt8)
    (hfinal : final = 72 ∨ final = 102) :
    (terminalProcessBytes s (absoluteBytes r c final)).screen = s.screen.moveTo r c ∧
      (terminalProcessBytes s (absoluteBytes r c final)).parser.parseState = .normal ∧
      NoOverflow s (absoluteBytes r c final) := by
  have hmax : ∀ k ∈ [r, c], (k : Int) ≤ intMax := by
    rw [List.forall_mem_cons, List.forall_mem_singleton]
    exact ⟨hrmax, hcmax⟩
  have hchar : isParamChar final = false := by rcases hfinal with rfl | rfl <;> rfl
  have hrow : (intArgs ([r, c].map Nat.cast)).arg 0 1 = (r : Int) := arg_intArgs _ 0 1 (by simp) (by omega)
  have hcol : (intArgs ([r, c].map Nat.cast)).arg 1 1 = (c : Int) := arg_intArgs _ 1 1 (by simp) (by omega)
  have harith : (intArgs ([r, c].map Nat.cast)).arithmetic final s.screen.toPen = [(r : Int) - 1, (c : Int) - 1] := by
    unfold CsiArgs.arithmetic
    rw [hrow, hcol]
    rcases hfinal with rfl | rfl <;> rfl
  have hcmd : ∀ x ∈ (intArgs ([r, c].map Nat.cast)).arithmetic final s.screen.toPen, Fits x := by
    rw [harith, List.forall_mem_cons, List.forall_mem_singleton]
    exact ⟨fits_of_nonneg (by omega) (by omega), fits_of_nonneg (by omega) (by omega)⟩
  obtain ⟨hscreen, hnormal, hexact⟩ := screen_numbers s hs [r, c] (by simp) hmax final hchar hcmd
  exact ⟨hscreen.trans (executeCsi_position _ final hfinal s.screen r c hrow hcol hr hrmax hc hcmax), hnormal, hexact⟩

theorem screen_home (s : Session g) (hs : s.parser.parseState = .normal) :
    (terminalProcessBytes s (sequenceBytes [] 72)).screen = s.screen.moveTo 1 1 ∧
      (terminalProcessBytes s (sequenceBytes [] 72)).parser.parseState = .normal ∧
      NoOverflow s (sequenceBytes [] 72) := by
  have hcmd : ∀ x ∈ [(1 : Int) - 1, 1 - 1], Fits x := by decide
  obtain ⟨hscreen, hnormal, hexact⟩ := screen_numbers s hs [] (by simp) (List.forall_mem_nil _) 72 rfl hcmd
  refine ⟨hscreen.trans ?_, hnormal, hexact⟩
  exact executeCsi_position _ 72 (.inl rfl) s.screen 1 1 rfl rfl (by omega) (by decide) (by omega) (by decide)

/-- **The relative address.** -/
theorem screen_relative (s : Session g) (hs : s.parser.parseState = .normal) (r c : Nat) (hr : 1 ≤ r)
    (hrmax : (r : Int) ≤ intMax) (hc : 1 ≤ c) (hcmax : (c : Int) ≤ intMax) :
    (terminalProcessBytes s (relativeBytes r c)).screen = s.screen.moveTo r c ∧
      (terminalProcessBytes s (relativeBytes r c)).parser.parseState = .normal ∧ NoOverflow s (relativeBytes r c) := by
  have hrows := g.rows_pos
  have hcols := g.cols_pos
  obtain ⟨hhome, hnormal, hexact⟩ := screen_home s hs
  unfold relativeBytes
  simp only [terminalProcessBytes_append, noOverflow_append]
  generalize terminalProcessBytes s (sequenceBytes [] 72) = t at hhome hnormal ⊢
  have hrow0 : t.screen.cursorRow = 0 := by
    rw [hhome]
    show min ((1 : Nat) : Int) g.rows - 1 = 0
    omega
  have hcol0 : t.screen.cursorCol = 0 := by
    rw [hhome]
    show min ((1 : Nat) : Int) g.cols - 1 = 0
    omega
  obtain ⟨hdown, hnormal', hexact'⟩ := (screen_distance t hnormal r hr hrmax).1 hrow0
  generalize terminalProcessBytes t (distanceBytes r 66) = u at hdown hnormal' ⊢
  obtain ⟨hright, hnormal'', hexact''⟩ := (screen_distance u hnormal' c hc hcmax).2 (by rw [hdown]; exact hcol0)
  refine ⟨?_, hnormal'', hexact, hexact', hexact''⟩
  rw [hright, hdown, hhome]
  rfl

/-- **Absolute and relative addresses agree** on every row and column that an `int` counts. -/
theorem addressing_agree (s : Session g) (hs : s.parser.parseState = .normal) (r c : Nat) (hr : 1 ≤ r)
    (hrmax : (r : Int) ≤ intMax) (hc : 1 ≤ c) (hcmax : (c : Int) ≤ intMax) (final : UInt8)
    (hfinal : final = 72 ∨ final = 102) :
    SameSession (terminalProcessBytes s (absoluteBytes r c final)) (terminalProcessBytes s (relativeBytes r c)) ∧
    (terminalProcessBytes s (absoluteBytes r c final)).screen =
      { s.screen with cursorRow := min (r : Int) g.rows - 1, cursorCol := min (c : Int) g.cols - 1 } ∧
    NoOverflow s (absoluteBytes r c final) ∧ NoOverflow s (relativeBytes r c) := by
  obtain ⟨habs, hnormal, hexact⟩ := screen_absolute s hs r c hr hrmax hc hcmax final hfinal
  obtain ⟨hrel, hnormal', hexact'⟩ := screen_relative s hs r c hr hrmax hc hcmax
  exact ⟨⟨habs.trans hrel.symm, hnormal.trans hnormal'.symm⟩, habs, hexact, hexact'⟩

/-- Row `2147483647` and column `2` of a small screen. -/
theorem addressing_agree_last :
    let s := terminalInit ⟨2, 3, by decide, by decide, by decide⟩
    SameSession (terminalProcessBytes s (absoluteBytes 2147483647 2 72))
        (terminalProcessBytes s (relativeBytes 2147483647 2)) ∧
      NoOverflow s (absoluteBytes 2147483647 2 72) :=
  have h := addressing_agree (terminalInit ⟨2, 3, by decide, by decide, by decide⟩) rfl 2147483647 2 (by decide)
    (by decide) (by decide) (by decide) 72 (.inl rfl)
  ⟨h.1, h.2.2.1⟩

end Ptywrap
