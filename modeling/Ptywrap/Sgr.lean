import Ptywrap.Parser
/-!
# Sgr — the parameter loop as a scan of a list

`execute_sgr` walks an array by an index that an indexed colour moves by three.  `scan` is the same walk over the list
of parameters: it drops what it has read, and an indexed colour drops three.  `executeSgr_eq_scan` is the equation.
-/
namespace Ptywrap

/-- The parameters that are counted. -/
def CsiArgs.values (p : CsiArgs) : List Int := (List.range p.csiParamCount).map p.param

/-- A parameter that stands for itself. -/
def rendition (param : Int) (a : Cell) : Cell :=
  if param = 0 then sgrReset a
  else if param = 1 then { a with attrs := a.attrs ||| attrBold }
  else if param = 4 then { a with attrs := a.attrs ||| attrUnderline }
  else if param = 5 then { a with attrs := a.attrs ||| attrBlink }
  else if param = 7 then { a with attrs := a.attrs ||| attrReverse }
  else if param = 22 then { a with attrs := a.attrs &&& ~~~attrBold }
  else if param = 24 then { a with attrs := a.attrs &&& ~~~attrUnderline }
  else if param = 25 then { a with attrs := a.attrs &&& ~~~attrBlink }
  else if param = 27 then { a with attrs := a.attrs &&& ~~~attrReverse }
  else if 30 ≤ param ∧ param ≤ 37 then { a with fgColor := UInt8.ofInt (param - 30) }
  else if param = 39 then { a with fgColor := 7 }
  else if 40 ≤ param ∧ param ≤ 47 then { a with bgColor := UInt8.ofInt (param - 40) }
  else if param = 49 then { a with bgColor := 0 }
  else a

/-- The foreground for `38`, the background for `48`. -/
def indexed (param n : Int) (a : Cell) : Cell :=
  if param = 38 then { a with fgColor := UInt8.ofInt n } else { a with bgColor := UInt8.ofInt n }

def scan : List Int → Cell → Cell
  | [], a => a
  | [x], a => rendition x a
  | [x, y], a => rendition y (rendition x a)
  | x :: y :: n :: rest, a =>
    if (x = 38 ∨ x = 48) ∧ y = 5 then scan rest (indexed x n a) else scan (y :: n :: rest) (rendition x a)

/-- A parameter that starts no indexed colour is scanned by itself. -/
theorem scan_cons (x : Int) (rest : List Int) (a : Cell)
    (h : x = 38 ∨ x = 48 → ∀ n tail, rest ≠ 5 :: n :: tail) : scan (x :: rest) a = scan rest (rendition x a) := by
  match rest with
  | [] => rfl
  | [_] => rfl
  | y :: n :: tail =>
    rw [scan, if_neg]
    rintro ⟨hx, rfl⟩
    exact h hx n tail rfl

theorem scan_indexed (x n : Int) (rest : List Int) (a : Cell) (h : x = 38 ∨ x = 48) :
    scan (x :: 5 :: n :: rest) a = scan rest (indexed x n a) := by
  rw [scan, if_pos ⟨h, rfl⟩]

theorem sgrStep_eq (p : CsiArgs) (i : Nat) (a : Cell) :
    sgrStep p i a =
      if (p.param i = 38 ∨ p.param i = 48) ∧ indexedColour p i then indexed (p.param i) (p.param (i + 2)) a
      else rendition (p.param i) a := by
  unfold sgrStep
  dsimp only
  generalize p.param i = x
  by_cases h38 : x = 38
  · subst h38
    cases h : indexedColour p i with
    | true => simp +decide [indexed]
    | false => simp +decide [rendition]
  by_cases h48 : x = 48
  · subst h48
    cases h : indexedColour p i with
    | true => simp +decide [indexed]
    | false => simp +decide [rendition]
  · unfold rendition
    simp only [h38, h48, or_self, false_and, if_false]

theorem drop_values (p : CsiArgs) (i : Nat) (h : i < p.csiParamCount) :
    p.values.drop i = p.param i :: p.values.drop (i + 1) := by
  have hlen : i < p.values.length := by simpa [CsiArgs.values] using h
  rw [List.drop_eq_getElem_cons hlen]
  simp [CsiArgs.values]

/-- **The loop from index `i` scans the parameters from `i` on.** -/
theorem sgrLoop_eq_scan (p : CsiArgs) : ∀ (fuel i : Nat) (a : Cell), p.csiParamCount ≤ i + fuel →
    sgrLoop p fuel i a = scan (p.values.drop i) a
  | 0, i, a, h => by
    rw [List.drop_eq_nil_of_le (by simpa [CsiArgs.values] using h)]
    rfl
  | fuel + 1, i, a, h => by
    have hnext := lt_sgrNext p i
    rw [sgrLoop]
    by_cases hi : i < p.csiParamCount
    · rw [if_pos hi, sgrLoop_eq_scan p fuel _ _ (by omega), drop_values p i hi, sgrStep_eq]
      unfold sgrNext
      by_cases hcol : (p.param i = 38 ∨ p.param i = 48) ∧ indexedColour p i = true
      · obtain ⟨hparam, hidx⟩ := hcol
        rw [if_pos ⟨hparam, hidx⟩, if_pos ⟨hparam, hidx⟩]
        unfold indexedColour at hidx
        simp only [Bool.and_eq_true, decide_eq_true_eq] at hidx
        rw [drop_values p (i + 1) (by omega), drop_values p (i + 2) hidx.1, hidx.2, scan_indexed _ _ _ _ hparam]
      · rw [if_neg hcol, if_neg hcol, scan_cons]
        -- a `38` or `48` here has not the two operands of an indexed colour after it
        intro hparam n tail htail
        have hlen := congrArg List.length htail
        simp only [CsiArgs.values, List.length_drop, List.length_map, List.length_range, List.length_cons] at hlen
        rw [drop_values p (i + 1) (by omega), List.cons.injEq] at htail
        refine hcol ⟨hparam, ?_⟩
        unfold indexedColour
        rw [decide_eq_true (show i + 2 < p.csiParamCount by omega), decide_eq_true htail.1]
        rfl
    · rw [if_neg hi, List.drop_eq_nil_of_le (by simpa [CsiArgs.values] using hi)]
      rfl

/-- **`execute_sgr` scans its parameters.** -/
theorem executeSgr_eq_scan (p : CsiArgs) (a : Cell) (h : p.csiParamCount ≠ 0) : executeSgr p a = scan p.values a := by
  unfold executeSgr
  rw [if_neg h, sgrLoop_eq_scan p _ 0 a (by omega)]
  rfl

end Ptywrap
