import Mathlib.Data.List.Induction
import Mathlib.Data.List.Perm.Subperm
import Ptywrap.Api
import Ptywrap.Encode
import Ptywrap.Sgr
/-!
# Store — the screen as a random-access store of cells

An update positions on a cell, sets colours and attributes from scratch and prints one character.  Away from the last
cell of the screen that changes the one cell (`update_cell`), so after any list of updates each cell reads as the last
one written there (`store_readBack`).
-/
namespace Ptywrap

variable {g : Geometry}

inductive Attribute where
  | bold
  | underline
  | blink
  | reverse
deriving DecidableEq

namespace Attribute

def code : Attribute → Nat
  | bold => 1
  | underline => 4
  | blink => 5
  | reverse => 7

/-- The bits of a set of attributes, in the order of `ptywrap.h`. -/
def bits (attrs : List Attribute) : UInt8 :=
  (if bold ∈ attrs then attrBold else 0) ||| (if underline ∈ attrs then attrUnderline else 0) |||
    (if reverse ∈ attrs then attrReverse else 0) ||| (if blink ∈ attrs then attrBlink else 0)

end Attribute

/-- One update: a cell other than the last of the screen, and what is written there. -/
structure Update (g : Geometry) where
  row : Fin g.rows
  col : Fin g.cols
  ch : UInt8
  fg : UInt8
  bg : UInt8
  attrs : List Attribute
  not_last : ¬ (row.val + 1 = g.rows ∧ col.val + 1 = g.cols)
  printable : 32 ≤ ch ∧ ch ≤ 126
  attrs_nodup : attrs.Nodup

namespace Update

def cell (u : Update g) : Cell := ⟨u.ch, u.fg, u.bg, Attribute.bits u.attrs⟩

/-- `0;<codes>;38;5;fg;48;5;bg`. -/
def sgrValues (u : Update g) : List Nat :=
  0 :: (u.attrs.map Attribute.code ++ [38, 5, u.fg.toNat, 48, 5, u.bg.toNat])

def bytes (u : Update g) : List UInt8 :=
  positionBytes (u.row.val + 1) (u.col.val + 1) ++
    (27 :: 91 :: (fieldBytes (u.sgrValues.map Decimal.ofNat) ++ [109])) ++ [u.ch]

def At (u : Update g) (r : Fin g.rows) (c : Fin g.cols) : Bool := decide (u.row = r ∧ u.col = c)

end Update

/-- The cell last written at row `r` and column `c`, if any. -/
def lastWritten (us : List (Update g)) (r : Fin g.rows) (c : Fin g.cols) : Option Cell :=
  (us.reverse.find? (fun u => u.At r c)).map Update.cell

/-! ## The SGR sequence -/

theorem bits_cons (x : Attribute) (attrs : List Attribute) :
    Attribute.bits (x :: attrs) = Attribute.bits [x] ||| Attribute.bits attrs := by
  unfold Attribute.bits
  cases x <;>
    simp only [List.mem_cons, List.not_mem_nil, reduceCtorEq, false_or, true_or, or_false, if_true, if_false] <;>
    repeat' split
  all_goals rfl

theorem rendition_code (x : Attribute) (a : Cell) :
    rendition (x.code : Int) a = { a with attrs := a.attrs ||| Attribute.bits [x] } := by
  cases x <;> rfl

/-- **Attribute codes add their bits.** -/
theorem scan_codes : ∀ (attrs : List Attribute) (rest : List Int) (a : Cell),
    scan (attrs.map (fun x => (x.code : Int)) ++ rest) a =
      scan rest { a with attrs := a.attrs ||| Attribute.bits attrs }
  | [], rest, a => by
    rw [show Attribute.bits [] = 0 from rfl, UInt8.or_zero]
    rfl
  | x :: attrs, rest, a => by
    have hcode : ¬ ((x.code : Int) = 38 ∨ (x.code : Int) = 48) := by cases x <;> decide
    rw [List.map_cons, List.cons_append, scan_cons _ _ _ (fun h => absurd h hcode), rendition_code,
      scan_codes attrs rest, bits_cons x attrs, UInt8.or_assoc]

theorem ofInt_toNat (n : UInt8) : UInt8.ofInt (n.toNat : Int) = n := by
  have hlt := n.toNat_lt
  have hmod : ((n.toNat : Int) % 2 ^ 8).toNat = n.toNat := by omega
  unfold UInt8.ofInt
  rw [hmod, UInt8.ofNat_toNat]

namespace Update

theorem length_attrs_le (u : Update g) : u.attrs.length ≤ 4 := by
  have hsub : u.attrs ⊆ [.bold, .underline, .blink, .reverse] := by
    intro x _
    cases x <;> simp
  exact (List.subperm_of_subset u.attrs_nodup hsub).length_le

theorem length_sgrValues (u : Update g) : u.sgrValues.length ≤ 11 := by
  have := u.length_attrs_le
  simp only [sgrValues, List.length_cons, List.length_append, List.length_map, List.length_nil]
  omega

theorem sgrValues_le (u : Update g) : ∀ v ∈ u.sgrValues, v ≤ 255 := by
  have hfg := u.fg.toNat_lt
  have hbg := u.bg.toNat_lt
  intro v hv
  simp only [sgrValues, List.mem_cons, List.mem_append, List.mem_map, List.not_mem_nil, or_false] at hv
  rcases hv with rfl | ⟨x, -, rfl⟩ | rfl | rfl | rfl | rfl | rfl | rfl
  · omega
  · cases x <;> decide
  all_goals omega

end Update

theorem values_argsOf (vs : List Nat) (h : vs.length ≤ 16) : (argsOf vs).values = vs.map Int.ofNat := by
  apply List.ext_getElem
  · simp [CsiArgs.values, argsOf]
  · intro i h1 h2
    rw [List.length_map] at h2
    simp only [CsiArgs.values, List.getElem_map, List.getElem_range]
    rw [param_argsOf vs i (by omega)]
    simp [List.getD, h2]

/-- **The SGR sequence of an update sets its colours and exactly its attributes.** -/
theorem executeSgr_update (u : Update g) (a : Cell) :
    executeSgr (argsOf u.sgrValues) a = { a with fgColor := u.fg, bgColor := u.bg, attrs := Attribute.bits u.attrs } := by
  have hlen := u.length_sgrValues
  have hlist : u.sgrValues.map Int.ofNat =
      0 :: (u.attrs.map (fun x => (x.code : Int)) ++ [38, 5, (u.fg.toNat : Int), 48, 5, (u.bg.toNat : Int)]) := by
    simp [Update.sgrValues]
  rw [executeSgr_eq_scan _ _ (show u.sgrValues.length ≠ 0 by simp [Update.sgrValues]), values_argsOf _ (by omega), hlist,
    scan_cons _ _ _ (by omega), scan_codes, scan_indexed _ _ _ _ (by decide), scan_indexed _ _ _ _ (by decide)]
  unfold indexed rendition sgrReset
  simp +decide only [if_true, if_false, ofInt_toNat, UInt8.zero_or, scan]

/-! ## One update -/

namespace Update

def sgrCommand (u : Update g) : CsiCommand where
  numerals := u.sgrValues.map Decimal.ofNat
  final := 109
  count_le := by have := u.length_sgrValues; rw [List.length_map]; omega
  lone_ne_nil := fun ds h => by
    have hmem : ds ∈ u.sgrValues.map Decimal.ofNat := by rw [h]; exact List.mem_cons_self
    obtain ⟨v, -, rfl⟩ := List.mem_map.1 hmem
    exact Decimal.ofNat_ne_nil v
  value_le := fun ds h => by
    obtain ⟨v, hv, rfl⟩ := List.mem_map.1 h
    have := u.sgrValues_le v hv
    rw [Decimal.value_ofNat]
    unfold CInt.intMax
    omega
  final_range := by decide

theorem screen_sgr {g' : Geometry} (s : Session g) (hs : s.parser.parseState = .normal) (u : Update g') :
    (terminalProcessBytes s u.sgrCommand.encode).screen =
        { s.screen with currentAttrs :=
            { s.screen.currentAttrs with fgColor := u.fg, bgColor := u.bg, attrs := Attribute.bits u.attrs } } ∧
      (terminalProcessBytes s u.sgrCommand.encode).parser.parseState = .normal := by
  obtain ⟨h1, h2⟩ := screen_csiEncode s hs u.sgrCommand
  have hvals : u.sgrCommand.numerals.map Decimal.value = u.sgrValues := by
    unfold sgrCommand
    simp [Function.comp_def, Decimal.value_ofNat]
  refine ⟨?_, h2⟩
  rw [h1, hvals, show u.sgrCommand.final = 109 from rfl]
  unfold parserExecuteCsi
  rw [if_pos rfl, executeSgr_update]

/-- **An update changes its own cell alone.** -/
theorem screen_bytes (s : Session g) (hs : s.parser.parseState = .normal) (u : Update g) :
    (∀ r c, (terminalProcessBytes s u.bytes).screen.cell r c =
        if r = u.row ∧ c = u.col then u.cell else s.screen.cell r c) ∧
      (terminalProcessBytes s u.bytes).parser.parseState = .normal := by
  obtain ⟨h1, h2⟩ := screen_position s hs u.row u.col
  obtain ⟨h3, h4⟩ := screen_sgr _ h2 u
  obtain ⟨h5, h6⟩ := screen_printables _ h4 [u.ch] (fun b hb => by
    rw [List.mem_singleton.1 hb]
    exact (isPrintable_iff u.ch).2 u.printable)
  have hbytes : u.bytes = positionBytes (u.row.val + 1) (u.col.val + 1) ++ u.sgrCommand.encode ++ [u.ch] := rfl
  rw [hbytes, terminalProcessBytes_append, terminalProcessBytes_append]
  refine ⟨fun r c => ?_, h6⟩
  rw [h5, h3, h1, List.foldl_cons, List.foldl_nil, terminalPutChar_of_inGrid _ u.ch u.row u.col rfl rfl]
  have hrow := u.row.isLt
  have hlast := u.not_last
  -- the cell is stored before a line end, if any, which away from the last cell moves the cursor alone
  dsimp only
  split
  · exact RowMajor.cell_store_flat _ u.row u.col _ r c
  · rw [terminalNewline_of_lt _ (by simp only; omega) (by simp only; omega)]
    exact RowMajor.cell_store_flat _ u.row u.col _ r c

end Update

/-! ## Any list of updates -/

theorem screen_updates (s : Session g) (hs : s.parser.parseState = .normal) (us : List (Update g)) :
    (∀ r c, (terminalProcessBytes s (us.flatMap Update.bytes)).screen.cell r c =
        (lastWritten us r c).getD (s.screen.cell r c)) ∧
      (terminalProcessBytes s (us.flatMap Update.bytes)).parser.parseState = .normal := by
  induction us using List.reverseRecOn with
  | nil => exact ⟨fun _ _ => rfl, hs⟩
  | append_singleton us u ih =>
    obtain ⟨hcells, hnormal⟩ := ih
    obtain ⟨h1, h2⟩ := u.screen_bytes _ hnormal
    rw [List.flatMap_append, List.flatMap_singleton, terminalProcessBytes_append]
    refine ⟨fun r c => ?_, h2⟩
    rw [h1 r c, hcells r c]
    unfold lastWritten
    rw [List.reverse_append, List.reverse_singleton, List.singleton_append, List.find?_cons]
    by_cases hat : r = u.row ∧ c = u.col
    · have : u.At r c = true := decide_eq_true ⟨hat.1.symm, hat.2.symm⟩
      rw [if_pos hat, this]
      rfl
    · have : u.At r c = false := decide_eq_false (fun e => hat ⟨e.1.symm, e.2.symm⟩)
      rw [if_neg hat, this]

/-- **The screen is a random-access store**: after any updates `ptywrap_get_cell` returns, at every position, the cell
last written there, and the old cell where none was. -/
theorem store_readBack (s : Session g) (hs : s.parser.parseState = .normal) (us : List (Update g)) (r : Fin g.rows)
    (c : Fin g.cols) (out : Cell) :
    ptywrapGetCell (some (terminalProcessBytes s (us.flatMap Update.bytes))) r.val c.val (some out) =
      (ptywrapOk, some ((lastWritten us r c).getD (s.screen.cell r c))) := by
  rw [getCell_inGrid, (screen_updates s hs us).1 r c]

/-- Two updates of one cell, the second in bold red. -/
theorem store_readBack_twice :
    let g : Geometry := ⟨2, 3, by decide, by decide, by decide⟩
    let us : List (Update g) := [⟨0, 1, 65, 7, 0, [], by decide, by decide, by decide⟩,
      ⟨0, 1, 66, 1, 0, [.bold], by decide, by decide, by decide⟩]
    ptywrapGetCell (some (terminalProcessBytes (terminalInit g) (us.flatMap Update.bytes))) 0 1 (some default) =
      (ptywrapOk, some ((lastWritten us 0 1).getD ((terminalInit g).screen.cell 0 1))) :=
  store_readBack (g := ⟨2, 3, by decide, by decide, by decide⟩) _ rfl _ 0 1 default

end Ptywrap
