import Ptywrap.SgrLists
/-!
# Surplus — more CSI parameters than the array holds

The index of the open parameter stops at the last slot, and the digits of every further parameter are accumulated there.
So a sequence of more than sixteen parameters is the sequence of sixteen whose last one has the digits of all the rest
behind its own (`screen_surplus`), which SGR alone can notice (`surplus_harmless_iff`).
-/
namespace Ptywrap

open Decimal (Numeral)

variable {g : Geometry}

/-- The digits of all the parameters from the sixteenth on, one after the other. -/
def lastDigits (ns : List Numeral) : Numeral := (ns.drop 15).flatten

def firstInts (ns : List Numeral) : List Int := (ns.take 15).map fieldInt

/-- The value that the scan of the list leaves to be read next is the operand of an indexed colour. -/
def operandNext : List Int → Bool
  | [] => false
  | [_] => false
  | [x, y] => decide ((x = 38 ∨ x = 48) ∧ y = 5)
  | x :: y :: n :: rest => if (x = 38 ∨ x = 48) ∧ y = 5 then operandNext rest else operandNext (y :: n :: rest)

/-- The final byte is not `m`; or the sixteenth value is the number of a colour and its low byte does not change; or it
stands for itself, and with or without the further digits every field of the attributes is left with one value, which is
the value set by the parameter, or else the one it had from those before, or else from the start. -/
def SurplusHarmless (ns : List Numeral) (final : UInt8) (a : Cell) : Prop :=
  let last := fieldInt (ns.getD 15 [])
  let run := fieldInt (lastDigits ns)
  final ≠ 109 ∨
    if operandNext (firstInts ns) then last % 256 = run % 256
    else ∀ f : SgrField, (sgrSets last f).getD ((settled f (firstInts ns)).getD (a.field f)) =
      (sgrSets run f).getD ((settled f (firstInts ns)).getD (a.field f))

/-! ## What the reader makes of the surplus -/

theorem fieldBytes_append : ∀ (ns rest : List Numeral), ns ≠ [] →
    fieldBytes (ns ++ rest) = fieldBytes ns ++ rest.flatMap fun ds => 59 :: numeralBytes ds
  | [], _, h => absurd rfl h
  | [ds], [], _ => (List.append_nil _).symm
  | [ds], es :: rest, _ => by
    show numeralBytes ds ++ 59 :: fieldBytes ([es] ++ rest) = _
    rw [fieldBytes_append [es] rest (List.cons_ne_nil _ _), List.flatMap_cons]
    rfl
  | ds :: es :: ns, rest, _ => by
    rw [List.cons_append, List.cons_append, fieldBytes, ← List.cons_append,
      fieldBytes_append (es :: ns) rest (List.cons_ne_nil _ _), fieldBytes, List.append_assoc, List.cons_append]

/-- **In the last slot a `;` does nothing**, and the digits after it go on where the others ended. -/
theorem after_surplus : ∀ (rest : List Numeral) (vs : List Int) (v : Int), vs.length = 15 →
    vtReader.after (midField .csiParam vs v) (rest.flatMap fun ds => 59 :: numeralBytes ds) =
      midField .csiParam vs (rest.flatten.foldl pushInt v)
  | [], _, _, _ => rfl
  | ds :: rest, vs, v, h => by
    have hsemi : vtReader.next (midField .csiParam vs v) 59 = midField .csiParam vs v := by
      refine (next_of_inCsi (midField .csiParam vs v) 59 (.inr rfl)).trans ?_
      rw [if_neg (by decide), if_pos rfl]
      unfold Parser.semicolon midField
      dsimp only
      rw [if_pos (by omega), h]
    rw [List.flatMap_cons, List.cons_append, Transducer.after_cons, hsemi, Transducer.after_append,
      after_numeralBytes ds .csiParam vs v (.inr rfl) (by omega), ite_self, after_surplus rest vs _ h, List.flatten_cons,
      List.foldl_append]

/-- **The arguments of a sequence of sixteen parameters or more.** -/
theorem after_fieldBytes_surplus (ns : List Numeral) (hlen : 16 ≤ ns.length) :
    vtReader.after (reading .csi [] 0) (fieldBytes ns) =
      midField .csiParam (firstInts ns) (fieldInt (lastDigits ns)) := by
  obtain ⟨ds, rest, hdrop⟩ : ∃ ds rest, ns.drop 15 = ds :: rest := by
    refine List.exists_cons_of_ne_nil fun h => ?_
    have := List.drop_eq_nil_iff.1 h
    omega
  have hsplit : ns = (ns.take 15 ++ [ds]) ++ rest := by
    rw [List.append_assoc, List.singleton_append, ← hdrop, List.take_append_drop]
  have htake : (ns.take 15).length = 15 := List.length_take_of_le (by omega)
  have hfirst : (firstInts ns).length = 15 := (List.length_map _).trans htake
  have hbytes : fieldBytes ns = fieldBytes (ns.take 15 ++ [ds]) ++ rest.flatMap fun ds => 59 :: numeralBytes ds := by
    conv => lhs; rw [hsplit]
    exact fieldBytes_append _ _ (by simp)
  have hsixteen : vtReader.after (reading .csi [] 0) (fieldBytes (ns.take 15 ++ [ds])) =
      midField .csiParam (firstInts ns) (fieldInt ds) := by
    rw [reading_start, after_fieldBytes _ .csi [] (.inl ⟨rfl, fun es h => ?_⟩) (by simp) (by simp)]
    · unfold midField firstInts
      simp only [List.nil_append, List.map_append, List.map_cons, List.map_nil, List.length_append, List.length_nil,
        List.length_singleton, List.length_map, htake]
    · have := congrArg List.length h
      rw [List.length_append, htake] at this
      simp at this
  rw [hbytes, Transducer.after_append, hsixteen, after_surplus rest _ _ hfirst]
  unfold lastDigits fieldInt
  rw [hdrop, List.flatten_cons, List.foldl_append]

theorem screen_surplus (s : Session g) (hs : s.parser.parseState = .normal) (ns : List Numeral) (hlen : 16 ≤ ns.length)
    (final : UInt8) (hfinal : isParamChar final = false) :
    (terminalProcessBytes s (sequenceBytes ns final)).screen =
      parserExecuteCsi (intArgs (firstInts ns ++ [fieldInt (lastDigits ns)])) final s.screen := by
  have hfirst : (firstInts ns).length = 15 := (List.length_map _).trans (List.length_take_of_le (by omega))
  obtain ⟨h, -⟩ := outputs_sequence s.parser hs (fieldBytes ns) final (isParamChar_fieldBytes ns) hfinal
  unfold sequenceBytes
  rw [terminalProcessBytes_eq, h, after_fieldBytes_surplus ns hlen]
  unfold midField Parser.terminate intArgs
  simp only [if_true, List.foldl_cons, List.foldl_nil, List.length_append, List.length_singleton, hfirst]
  rfl

/-! ## Who notices -/

/-- The commands other than SGR read the first two parameters. -/
theorem parserExecuteCsi_congr {p q : CsiArgs} {cmd : UInt8} (hcmd : cmd ≠ 109) (h0 : ∀ d, p.arg 0 d = q.arg 0 d)
    (h1 : ∀ d, p.arg 1 d = q.arg 1 d) (s : Screen g) : parserExecuteCsi p cmd s = parserExecuteCsi q cmd s := by
  unfold parserExecuteCsi executeCursorMove moveCount executeCursorPosition executeEraseDisplay executeEraseLine
    eraseDisplayIndices eraseLineIndices eraseLineCols
  simp only [if_neg hcmd, h0, h1]

theorem arg_intArgs_append (vs : List Int) (v w : Int) (i : Nat) (hi : i < vs.length) (hi' : i < 16) (d : Int) :
    (intArgs (vs ++ [v])).arg i d = (intArgs (vs ++ [w])).arg i d := by
  have hparam : ∀ u, (intArgs (vs ++ [u])).param i = vs[i] := fun u => by
    unfold intArgs CsiArgs.param slots
    dsimp only
    rw [RowMajor.getD_of_lt _ i 0 hi', Vector.getElem_ofFn]
    simp [List.getD, List.getElem?_append_left hi, List.getElem?_eq_getElem hi]
  unfold CsiArgs.arg
  rw [hparam v, hparam w]
  unfold intArgs
  simp only [List.length_append, List.length_singleton]

theorem ofInt_eq_iff (x y : Int) : UInt8.ofInt x = UInt8.ofInt y ↔ x % 256 = y % 256 := by
  unfold UInt8.ofInt
  rw [← UInt8.toNat_inj, UInt8.toNat_ofNat', UInt8.toNat_ofNat']
  omega

theorem indexed_eq_iff (x v w : Int) (a : Cell) : indexed x v a = indexed x w a ↔ v % 256 = w % 256 := by
  rw [← ofInt_eq_iff]
  unfold indexed
  split
  · exact ⟨fun h => congrArg Cell.fgColor h, fun h => by rw [h]⟩
  · exact ⟨fun h => congrArg Cell.bgColor h, fun h => by rw [h]⟩

theorem rendition_eq_iff (v w : Int) (a : Cell) :
    rendition v a = rendition w a ↔
      ∀ f, (sgrSets v f).getD (a.field f) = (sgrSets w f).getD (a.field f) := by
  simp only [← field_rendition]
  refine ⟨fun h f => by rw [h], Cell.ext_field ?_⟩
  rw [ch_rendition, ch_rendition]

/-- **The last value of a list is read as an operand, or stands for itself.** -/
theorem scan_snoc (l : List Int) (a : Cell) :
    if operandNext l then ∃ x b, ∀ v, scan (l ++ [v]) a = indexed x v b
    else ∀ v, scan (l ++ [v]) a = rendition v (scan l a) := by
  have hstep : ∀ (x y n : Int) (rest : List Int) (a : Cell), scan (x :: y :: n :: rest) a =
      if (x = 38 ∨ x = 48) ∧ y = 5 then scan rest (indexed x n a) else scan (y :: n :: rest) (rendition x a) :=
    fun _ _ _ _ _ => rfl
  induction l, a using scan.induct with
  | case1 a => exact fun v => rfl
  | case2 x a => exact fun v => rfl
  | case3 x y a =>
    unfold operandNext
    by_cases h : (x = 38 ∨ x = 48) ∧ y = 5
    · rw [decide_eq_true h, if_pos rfl]
      obtain ⟨hx, rfl⟩ := h
      exact ⟨x, a, fun v => scan_indexed x v [] a hx⟩
    · rw [decide_eq_false h, if_neg Bool.false_ne_true]
      intro v
      refine (hstep x y v [] a).trans ?_
      rw [if_neg h]
      rfl
  | case4 x y n rest a h ih =>
    rw [operandNext, if_pos h, scan, if_pos h]
    simp only [List.cons_append, hstep, if_pos h]
    exact ih
  | case5 x y n rest a h ih =>
    rw [operandNext, if_neg h, scan, if_neg h]
    simp only [List.cons_append] at ih ⊢
    simp only [hstep x y n, if_neg h]
    exact ih

/-- **Surplus parameters are harmless exactly when the last slot, with their digits behind its own, still does the
same.** -/
theorem surplus_harmless_iff (s : Session g) (hs : s.parser.parseState = .normal) (ns : List Numeral)
    (hlen : 16 < ns.length) (final : UInt8) (hfinal : final ∈ [109, 65, 66, 67, 68, 72, 102, 74, 75]) :
    (terminalProcessBytes s (sequenceBytes ns final)).screen =
        (terminalProcessBytes s (sequenceBytes (ns.take 16) final)).screen ↔
      SurplusHarmless ns final s.screen.currentAttrs := by
  have hchar : isParamChar final = false := by
    simp only [List.mem_cons, List.not_mem_nil, or_false] at hfinal
    rcases hfinal with rfl | rfl | rfl | rfl | rfl | rfl | rfl | rfl | rfl <;> rfl
  have hfirst : (firstInts ns).length = 15 := (List.length_map _).trans (List.length_take_of_le (by omega))
  -- the sixteen alone
  have htake : firstInts (ns.take 16) = firstInts ns := by
    unfold firstInts
    rw [List.take_take, Nat.min_eq_left (by omega)]
  have hlast : lastDigits (ns.take 16) = ns.getD 15 [] := by
    have hget : (ns.take 16).drop 15 = [ns.getD 15 []] := by
      rw [List.drop_take, List.drop_eq_getElem_cons (by omega), List.getElem_eq_getD []]
      rfl
    unfold lastDigits
    rw [hget, List.flatten_cons, List.flatten_nil, List.append_nil]
  rw [screen_surplus s hs ns (by omega) final hchar,
    screen_surplus s hs (ns.take 16) (by rw [List.length_take]; omega) final hchar, htake, hlast]
  unfold SurplusHarmless
  dsimp only
  generalize fieldInt (ns.getD 15 []) = last
  generalize fieldInt (lastDigits ns) = run
  by_cases hm : final = 109
  · subst hm
    have hexec : ∀ v, parserExecuteCsi (intArgs (firstInts ns ++ [v])) 109 s.screen =
        { s.screen with currentAttrs := scan (firstInts ns ++ [v]) s.screen.currentAttrs } := fun v => by
      unfold parserExecuteCsi
      rw [if_pos rfl, executeSgr_intArgs _ _ (by simp) (by rw [List.length_append, hfirst]; rfl)]
    have hscreen : ∀ b c : Cell, ({ s.screen with currentAttrs := b } : Screen g) = { s.screen with currentAttrs := c } ↔
        b = c := fun b c => ⟨fun h => congrArg (fun t : Screen g => t.currentAttrs) h, fun h => by rw [h]⟩
    have hsnoc := scan_snoc (firstInts ns) s.screen.currentAttrs
    rw [hexec, hexec, hscreen, eq_comm]
    simp only [ne_eq, not_true, false_or]
    split at hsnoc
    · rename_i hop
      obtain ⟨x, b, hx⟩ := hsnoc
      rw [if_pos hop, hx, hx]
      exact indexed_eq_iff x last run b
    · rename_i hop
      rw [if_neg hop, hsnoc, hsnoc, rendition_eq_iff]
      simp only [field_scan]
  · refine iff_of_true ?_ (.inl hm)
    exact parserExecuteCsi_congr hm (arg_intArgs_append _ _ _ 0 (by omega) (by omega))
      (arg_intArgs_append _ _ _ 1 (by omega) (by omega)) s.screen

/-- Sixteen zeros and a `1`: the last slot holds `01`. -/
theorem surplus_harmless_iff_zeros :
    let s := terminalInit ⟨2, 3, by decide, by decide, by decide⟩
    let ns : List Numeral := List.replicate 16 [0] ++ [[1]]
    (terminalProcessBytes s (sequenceBytes ns 109)).screen =
        (terminalProcessBytes s (sequenceBytes (ns.take 16) 109)).screen ↔
      SurplusHarmless ns 109 s.screen.currentAttrs :=
  surplus_harmless_iff _ rfl _ (by decide) 109 (by decide)

/-- There bold is turned on by the seventeenth parameter. -/
theorem surplus_not_harmless :
    ¬ ∀ (g : Geometry) (s : Session g) (ns : List Numeral) (final : UInt8), s.parser.parseState = .normal →
      16 < ns.length → final ∈ [109, 65, 66, 67, 68, 72, 102, 74, 75] →
      (terminalProcessBytes s (sequenceBytes ns final)).screen =
        (terminalProcessBytes s (sequenceBytes (ns.take 16) final)).screen := by
  intro h
  have hsame := h ⟨2, 3, by decide, by decide, by decide⟩ (terminalInit _) (List.replicate 16 [0] ++ [[1]]) 109 rfl
    (by decide) (by decide)
  rw [screen_surplus _ rfl _ (by decide) _ rfl, screen_surplus _ rfl _ (by decide) _ rfl] at hsame
  have hattrs := congrArg (fun t : Screen _ => t.currentAttrs.attrs) hsame
  revert hattrs
  decide

end Ptywrap
