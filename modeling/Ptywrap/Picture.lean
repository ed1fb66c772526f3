import Ptywrap.Contain
import Ptywrap.Erasing
import Ptywrap.Reset
import Ptywrap.Store
/-!
# Picture — the screens that can be reached

A picture is a screen with its cursor on it, printable text with the defined attributes, and a blank in the last cell:
a character printed there scrolls it away at once.  A run whose cursor stays on the screen leaves a picture
(`exists_picture`), and each picture is painted by a stream of its own, whatever was on the screen and in the middle of
whatever sequence the past stopped (`screen_paint`).  So the pictures are the reachable screens, and each of them stays
reachable for ever (`reachable_iff`).
-/
namespace Ptywrap

variable {g : Geometry}

/-- A blank in any colours, without attributes, in the last cell. -/
def Screen.CornerBlank (s : Screen g) : Prop :=
  ∀ (r : Fin g.rows) (c : Fin g.cols), r.val + 1 = g.rows → c.val + 1 = g.cols →
    (s.cell r c).ch = 32 ∧ (s.cell r c).attrs = 0

/-- What a terminal can show. -/
structure Picture (g : Geometry) extends Screen g where
  inGrid : toScreen.InGrid g
  printable : toScreen.AllPrintable
  corner : toScreen.CornerBlank
  unused : currentAttrs.ch = 0

/-- The cursor is on the screen after each byte. -/
def Contained (g : Geometry) (bs : List UInt8) : Prop :=
  ∀ pre, pre <+: bs → (terminalProcessBytes (terminalInit g) pre).InGrid

/-! ## Painting -/

/-- The attributes of a set of flags. -/
def attributesOf (flags : UInt8) : List Attribute :=
  [Attribute.bold, .underline, .blink, .reverse].filter fun x => flags &&& Attribute.bits [x] != 0

theorem attributesOf_nodup (flags : UInt8) : (attributesOf flags).Nodup :=
  List.Nodup.filter _ (by decide)

theorem bits_attributesOf {flags : UInt8} (h : FlagsOnly flags) : Attribute.bits (attributesOf flags) = flags := by
  have hall : ∀ n : Fin 256, FlagsOnly (UInt8.ofNat n) →
      Attribute.bits (attributesOf (UInt8.ofNat n)) = UInt8.ofNat n := by
    unfold FlagsOnly
    decide +kernel
  have hn := hall ⟨flags.toNat, flags.toNat_lt⟩
  simp only [UInt8.ofNat_toNat] at hn
  exact hn h

theorem space_printable : (32 : UInt8) ≤ 32 ∧ (32 : UInt8) ≤ 126 := by decide

/-- Colours and attributes, as an update of another screen that has a cell to spare. -/
def brush (fg bg flags : UInt8) : Update twoCells where
  row := ⟨0, Nat.one_pos⟩
  col := ⟨0, Nat.two_pos⟩
  ch := 32
  fg := fg
  bg := bg
  attrs := attributesOf flags
  not_last := fun h => absurd h.2 (Nat.ne_of_lt Nat.one_lt_two)
  printable := space_printable
  attrs_nodup := attributesOf_nodup flags

def Update.commands (u : Update g) : List Command :=
  [.csi (positionCommand u.row u.col), .csi u.sgrCommand, .printable u.ch u.printable]

theorem eraseFinal_range : (0x40 : UInt8) ≤ 75 ∧ (75 : UInt8) ≤ 0x7E := by decide

def eraseToEnd : CsiCommand where
  numerals := []
  final := 75
  count_le := Nat.zero_le _
  lone_ne_nil := nofun
  value_le := nofun
  final_range := eraseFinal_range

namespace Picture

/-- The update that writes one cell, other than the last. -/
def update (p : Picture g) (r : Fin g.rows) (c : Fin g.cols) (h : ¬ (r.val + 1 = g.rows ∧ c.val + 1 = g.cols)) :
    Update g where
  row := r
  col := c
  ch := (p.cell r c).ch
  fg := (p.cell r c).fgColor
  bg := (p.cell r c).bgColor
  attrs := attributesOf (p.cell r c).attrs
  not_last := h
  printable := (p.printable.cell r c).ch
  attrs_nodup := attributesOf_nodup _

def updates (p : Picture g) : List (Update g) :=
  (List.finRange g.rows).flatMap fun r => (List.finRange g.cols).filterMap fun c =>
    if h : r.val + 1 = g.rows ∧ c.val + 1 = g.cols then none else some (p.update r c h)

def lastRow (g : Geometry) : Fin g.rows := ⟨g.rows - 1, Nat.sub_lt g.rows_pos Nat.one_pos⟩

def lastCol (g : Geometry) : Fin g.cols := ⟨g.cols - 1, Nat.sub_lt g.cols_pos Nat.one_pos⟩

theorem toNat_lt_of_mem {n : Nat} {x : Int} (h : 0 ≤ x ∧ x < n) : x.toNat < n := by
  obtain ⟨h0, hn⟩ := h
  omega

/-- The cursor. -/
def row (p : Picture g) : Fin g.rows := ⟨p.cursorRow.toNat, toNat_lt_of_mem p.inGrid.1⟩

def col (p : Picture g) : Fin g.cols := ⟨p.cursorCol.toNat, toNat_lt_of_mem p.inGrid.2⟩

/-- Every cell but the last, the last one by erasing it, and the pen. -/
def commands (p : Picture g) : List Command :=
  let corner := p.cell (lastRow g) (lastCol g)
  p.updates.flatMap Update.commands ++
    [.csi (brush corner.fgColor corner.bgColor 0).sgrCommand, .csi (positionCommand (lastRow g) (lastCol g)),
      .csi eraseToEnd, .csi (brush p.currentAttrs.fgColor p.currentAttrs.bgColor p.currentAttrs.attrs).sgrCommand,
      .csi (positionCommand p.row p.col)]

/-- The picture as a byte stream.  The first byte ends a sequence, if there is one to end. -/
def paint (p : Picture g) : List UInt8 := 24 :: encodeAll p.commands

end Picture

/-! ### The list of updates -/

/-- **A cell reads as what all its updates write.** -/
theorem lastWritten_eq_some {us : List (Update g)} {r : Fin g.rows} {c : Fin g.cols} {x : Cell}
    (hsome : ∃ u ∈ us, u.At r c = true) (hall : ∀ u ∈ us, u.At r c = true → u.cell = x) :
    lastWritten us r c = some x := by
  unfold lastWritten
  obtain ⟨u, hu, hat⟩ := hsome
  cases hfind : us.reverse.find? (fun u => u.At r c) with
  | none =>
    rw [List.find?_eq_none] at hfind
    exact absurd hat (hfind u (List.mem_reverse.2 hu))
  | some v =>
    have hv := List.mem_reverse.1 (List.mem_of_find?_eq_some hfind)
    have hatv : v.At r c = true := List.find?_some (p := fun u : Update g => u.At r c) hfind
    rw [Option.map_some, hall v hv hatv]

theorem lastWritten_eq_none {us : List (Update g)} {r : Fin g.rows} {c : Fin g.cols}
    (h : ∀ u ∈ us, ¬ u.At r c = true) : lastWritten us r c = none := by
  unfold lastWritten
  rw [List.find?_eq_none.2 fun u hu => h u (List.mem_reverse.1 hu), Option.map_none]

namespace Picture

theorem mem_updates {p : Picture g} {u : Update g} : u ∈ p.updates ↔ ∃ r c h, u = p.update r c h := by
  unfold updates
  simp only [List.mem_flatMap, List.mem_finRange, true_and, List.mem_filterMap]
  constructor
  · rintro ⟨r, c, hu⟩
    split at hu
    · cases hu
    · exact ⟨r, c, _, (Option.some.inj hu).symm⟩
  · rintro ⟨r, c, h, rfl⟩
    exact ⟨r, c, dif_neg h⟩

theorem cell_update (p : Picture g) (r : Fin g.rows) (c : Fin g.cols)
    (h : ¬ (r.val + 1 = g.rows ∧ c.val + 1 = g.cols)) : (p.update r c h).cell = p.cell r c := by
  unfold Update.cell update
  dsimp only
  rw [bits_attributesOf (p.printable.cell r c).attrs]

theorem lastWritten_updates (p : Picture g) (r : Fin g.rows) (c : Fin g.cols) :
    lastWritten p.updates r c = if r.val + 1 = g.rows ∧ c.val + 1 = g.cols then none else some (p.cell r c) := by
  have hat : ∀ {u : Update g}, u ∈ p.updates → u.At r c = true → ∃ h, u = p.update r c h := by
    intro u hu h
    obtain ⟨r', c', hne, rfl⟩ := mem_updates.1 hu
    obtain ⟨rfl, rfl⟩ := of_decide_eq_true h
    exact ⟨hne, rfl⟩
  by_cases hlast : r.val + 1 = g.rows ∧ c.val + 1 = g.cols
  · rw [if_pos hlast]
    refine lastWritten_eq_none fun u hu h => ?_
    obtain ⟨hne, -⟩ := hat hu h
    exact hne hlast
  · rw [if_neg hlast]
    refine lastWritten_eq_some ⟨p.update r c hlast, mem_updates.2 ⟨r, c, hlast, rfl⟩, decide_eq_true ⟨rfl, rfl⟩⟩ ?_
    intro u hu h
    obtain ⟨hne, rfl⟩ := hat hu h
    exact p.cell_update r c hne

end Picture

/-! ### The effect of the stream -/

theorem encodeAll_append (cs cs' : List Command) : encodeAll (cs ++ cs') = encodeAll cs ++ encodeAll cs' :=
  List.flatMap_append

theorem encodeAll_commands (us : List (Update g)) : encodeAll (us.flatMap Update.commands) = us.flatMap Update.bytes := by
  unfold encodeAll
  rw [List.flatMap_assoc]
  congr 1
  funext u
  unfold Update.commands Update.bytes
  simp only [List.flatMap_cons, List.flatMap_nil, Command.encode, encode_positionCommand, List.append_nil]
  rw [List.append_assoc]
  rfl

/-- **A byte that is neither printed nor part of a sequence** takes the reader outside, by a command that does not
exist if by any. -/
theorem cancel (p : Parser) : (p.next 24).parseState = .normal ∧ ∀ a ∈ p.out 24, ∃ args, a = .executeCsi args 24 := by
  unfold Parser.next Parser.out
  cases hstate : p.parseState with
  | normal => exact ⟨hstate, nofun⟩
  | esc => exact ⟨rfl, nofun⟩
  | csi => exact ⟨rfl, fun a ha => ⟨_, List.mem_singleton.1 ha⟩⟩
  | csiParam => exact ⟨rfl, fun a ha => ⟨_, List.mem_singleton.1 ha⟩⟩

theorem screen_eraseToEnd (s : Session g) (hs : s.parser.parseState = .normal) (h : s.screen.InGrid g) :
    (terminalProcessBytes s eraseToEnd.encode).screen.toPen = s.screen.toPen ∧
      (terminalProcessBytes s eraseToEnd.encode).parser.parseState = .normal ∧
      ∀ (r : Fin g.rows) (c : Fin g.cols), (terminalProcessBytes s eraseToEnd.encode).screen.cell r c =
        if s.screen.cursorRow = (r.val : Int) ∧ s.screen.cursorCol ≤ (c.val : Int) then s.screen.blank
        else s.screen.cell r c :=
  cell_eraseLine s hs h .toEnd

def brushBytes (fg bg flags : UInt8) (r : Fin g.rows) (c : Fin g.cols) : List UInt8 :=
  (brush fg bg flags).sgrCommand.encode ++ (positionCommand r c).encode

/-- **Colours, attributes and a position set the whole pen**, but for the field that nothing sets. -/
theorem screen_brush (s : Session g) (hs : s.parser.parseState = .normal) (fg bg : UInt8) {flags : UInt8}
    (hflags : FlagsOnly flags) (r : Fin g.rows) (c : Fin g.cols) :
    let s' := terminalProcessBytes s (brushBytes fg bg flags r c)
    s'.screen = { s.screen with
        cursorRow := (r.val : Int), cursorCol := (c.val : Int)
        currentAttrs := { s.screen.currentAttrs with fgColor := fg, bgColor := bg, attrs := flags } } ∧
      s'.parser.parseState = .normal := by
  obtain ⟨hsgr, hnormal⟩ := Update.screen_sgr s hs (brush fg bg flags)
  obtain ⟨hposition, hnormal'⟩ := screen_position _ hnormal r c
  intro s'
  have hs' : s' = terminalProcessBytes (terminalProcessBytes s (brush fg bg flags).sgrCommand.encode)
      (positionBytes (r.val + 1) (c.val + 1)) := by
    rw [← encode_positionCommand, ← terminalProcessBytes_append]
    rfl
  rw [hs']
  refine ⟨?_, hnormal'⟩
  rw [hposition, hsgr, show Attribute.bits (brush fg bg flags).attrs = flags from bits_attributesOf hflags]
  rfl

namespace Picture

theorem last_iff (r : Fin g.rows) (c : Fin g.cols) :
    r.val + 1 = g.rows ∧ c.val + 1 = g.cols ↔ r = lastRow g ∧ c = lastCol g := by
  have hr := r.isLt
  have hc := c.isLt
  rw [Fin.ext_iff, Fin.ext_iff]
  unfold lastRow lastCol
  dsimp only
  omega

def cornerBytes (g : Geometry) (fg bg : UInt8) : List UInt8 :=
  brushBytes fg bg 0 (lastRow g) (lastCol g) ++ eraseToEnd.encode

/-- **The last cell is set by erasing it.** -/
theorem screen_corner (s : Session g) (hs : s.parser.parseState = .normal) (fg bg : UInt8) :
    (∀ r c, (terminalProcessBytes s (cornerBytes g fg bg)).screen.cell r c =
      if r.val + 1 = g.rows ∧ c.val + 1 = g.cols then ⟨32, fg, bg, 0⟩ else s.screen.cell r c) ∧
      (terminalProcessBytes s (cornerBytes g fg bg)).parser.parseState = .normal := by
  obtain ⟨hbrush, hnormal⟩ := screen_brush s hs fg bg flagsOnly_zero (lastRow g) (lastCol g)
  unfold cornerBytes
  rw [terminalProcessBytes_append]
  generalize terminalProcessBytes s (brushBytes fg bg 0 (lastRow g) (lastCol g)) = t at hbrush hnormal ⊢
  have hin : t.screen.InGrid g := by
    rw [hbrush]
    exact ⟨⟨Int.natCast_nonneg _, Int.ofNat_lt.2 (lastRow g).isLt⟩, Int.natCast_nonneg _,
      Int.ofNat_lt.2 (lastCol g).isLt⟩
  obtain ⟨-, hnormal', hcell⟩ := screen_eraseToEnd t hnormal hin
  refine ⟨fun r c => ?_, hnormal'⟩
  rw [hcell, hbrush]
  have hr := r.isLt
  have hc := c.isLt
  have hlast : ((lastRow g).val : Int) = (r.val : Int) ∧ ((lastCol g).val : Int) ≤ (c.val : Int) ↔
      r.val + 1 = g.rows ∧ c.val + 1 = g.cols := by
    unfold lastRow lastCol
    dsimp only
    omega
  simp only [hlast]
  rfl

theorem bytes_paint (p : Picture g) :
    p.paint = [24] ++ p.updates.flatMap Update.bytes ++
      cornerBytes g (p.cell (lastRow g) (lastCol g)).fgColor (p.cell (lastRow g) (lastCol g)).bgColor ++
      brushBytes p.currentAttrs.fgColor p.currentAttrs.bgColor p.currentAttrs.attrs p.row p.col := by
  unfold paint commands cornerBytes brushBytes
  rw [encodeAll_append, encodeAll_commands]
  unfold encodeAll
  simp only [List.flatMap_cons, List.flatMap_nil, Command.encode, List.append_nil, List.append_assoc]
  rfl

theorem cursor_eq (p : Picture g) : (p.row.val : Int) = p.cursorRow ∧ (p.col.val : Int) = p.cursorCol :=
  ⟨Int.toNat_of_nonneg p.inGrid.1.1, Int.toNat_of_nonneg p.inGrid.2.1⟩

/-- **A picture is painted over whatever was there.** -/
theorem screen_paint (p : Picture g) (s : Session g) (hch : s.screen.currentAttrs.ch = 0) :
    (terminalProcessBytes s p.paint).screen = p.toScreen ∧
      (terminalProcessBytes s p.paint).parser.parseState = .normal := by
  have h0 : (terminalProcessBytes s [24]).parser.parseState = .normal := by
    rw [parser_terminalProcessBytes]
    exact (cancel s.parser).1
  have hch0 : (terminalProcessBytes s [24]).screen.currentAttrs.ch = 0 := (attrsCh_processBytes _ _).trans hch
  rw [bytes_paint, terminalProcessBytes_append, terminalProcessBytes_append, terminalProcessBytes_append]
  generalize terminalProcessBytes s [24] = s0 at h0 hch0
  obtain ⟨hupdates, h1⟩ := screen_updates s0 h0 p.updates
  have hch1 := (attrsCh_processBytes (p.updates.flatMap Update.bytes) s0).trans hch0
  generalize terminalProcessBytes s0 (p.updates.flatMap Update.bytes) = s1 at hupdates h1 hch1
  obtain ⟨hcorner, h2⟩ := screen_corner s1 h1 (p.cell (lastRow g) (lastCol g)).fgColor
    (p.cell (lastRow g) (lastCol g)).bgColor
  have hch2 := (attrsCh_processBytes (cornerBytes g (p.cell (lastRow g) (lastCol g)).fgColor
    (p.cell (lastRow g) (lastCol g)).bgColor) s1).trans hch1
  generalize terminalProcessBytes s1 (cornerBytes g _ _) = s2 at hcorner h2 hch2 ⊢
  obtain ⟨hpen, h3⟩ := screen_brush s2 h2 p.currentAttrs.fgColor p.currentAttrs.bgColor p.printable.pen p.row p.col
  refine ⟨?_, h3⟩
  rw [hpen]
  refine Screen.ext_cell ?_ fun r c => ?_
  · obtain ⟨hrow, hcol⟩ := p.cursor_eq
    have hattrs : ({ s2.screen.currentAttrs with
        fgColor := p.currentAttrs.fgColor, bgColor := p.currentAttrs.bgColor, attrs := p.currentAttrs.attrs } : Cell) =
        p.currentAttrs := by
      dsimp only
      rw [hch2, ← p.unused]
    dsimp only at hattrs ⊢
    rw [hrow, hcol, hattrs]
  · show s2.screen.cell r c = p.cell r c
    rw [hcorner, hupdates, lastWritten_updates]
    by_cases hlast : r.val + 1 = g.rows ∧ c.val + 1 = g.cols
    · obtain ⟨rfl, rfl⟩ := (last_iff r c).1 hlast
      obtain ⟨h32, hplain⟩ := p.corner _ _ hlast.1 hlast.2
      rw [if_pos hlast, ← h32, ← hplain]
    · rw [if_neg hlast, if_neg hlast]
      rfl

end Picture

/-! ## Reaching -/

/-- No relative move. -/
def Action.Absolute : Action → Prop
  | .executeCsi _ cmd => cmd ∉ [65, 66, 67, 68]
  | _ => True

theorem inGrid_absolute {s : Screen g} (h : s.InGrid g) {a : Action} (ha : a.Absolute) : (a.exec s).InGrid g := by
  cases a with
  | newline => exact inGrid_terminalNewline s h
  | carriageReturn => exact ⟨h.1, Int.le_refl _, Int.natCast_pos.2 g.cols_pos⟩
  | backspace =>
    unfold Action.exec
    dsimp only
    obtain ⟨hrow, hcol⟩ := h
    split
    · exact ⟨hrow, by simp only; omega, by simp only; omega⟩
    · exact ⟨hrow, hcol⟩
  | putChar ch => exact inGrid_terminalPutChar s ch h
  | executeCsi p cmd =>
    refine parserExecuteCsi_cases (motive := fun t => t.InGrid g) p cmd s (fun _ => h) (fun hmove => ?move)
      (fun _ => inGrid_executeCursorPosition p s.toPen) (fun _ => inGrid_executeEraseDisplay p s h) (fun _ => h)
      (fun _ => h)
    case move =>
      refine absurd ?_ ha
      rcases hmove with rfl | rfl | rfl | rfl <;> decide

theorem inGrid_absolute_all : ∀ (as : List Action) {s : Screen g}, s.InGrid g → (∀ a ∈ as, a.Absolute) →
    (as.foldl Action.exec s).InGrid g
  | [], _, h, _ => h
  | a :: as, _, h, ha => inGrid_absolute_all as (inGrid_absolute h (ha a List.mem_cons_self))
      fun x hx => ha x (List.mem_cons_of_mem a hx)

/-- **Without a relative move the cursor stays on the screen throughout.** -/
theorem inGrid_of_outputs {s : Session g} (h : s.InGrid) {bs : List UInt8}
    (hout : ∀ a ∈ vtReader.outputs s.parser bs, a.Absolute) {pre : List UInt8} (hpre : pre <+: bs) :
    (terminalProcessBytes s pre).InGrid := by
  obtain ⟨rest, rfl⟩ := hpre
  rw [Transducer.outputs_append] at hout
  unfold Session.InGrid
  rw [terminalProcessBytes_eq]
  exact inGrid_absolute_all _ h fun a ha => hout a (List.mem_append_left _ ha)

theorem absolute_updates (us : List (Update g)) : ∀ c ∈ us.flatMap Update.commands, c.action.Absolute := by
  intro c hc
  obtain ⟨u, -, hu⟩ := List.mem_flatMap.1 hc
  unfold Update.commands at hu
  simp only [List.mem_cons, List.not_mem_nil, or_false] at hu
  rcases hu with rfl | rfl | rfl
  · exact (by decide : (72 : UInt8) ∉ [65, 66, 67, 68])
  · exact (by decide : (109 : UInt8) ∉ [65, 66, 67, 68])
  · trivial

theorem Picture.absolute_commands (p : Picture g) : ∀ c ∈ p.commands, c.action.Absolute := by
  intro c hc
  unfold Picture.commands at hc
  rw [List.mem_append] at hc
  rcases hc with hc | hc
  · exact absolute_updates p.updates c hc
  simp only [List.mem_cons, List.not_mem_nil, or_false] at hc
  rcases hc with rfl | rfl | rfl | rfl | rfl
  · exact (by decide : (109 : UInt8) ∉ [65, 66, 67, 68])
  · exact (by decide : (72 : UInt8) ∉ [65, 66, 67, 68])
  · exact (by decide : (75 : UInt8) ∉ [65, 66, 67, 68])
  · exact (by decide : (109 : UInt8) ∉ [65, 66, 67, 68])
  · exact (by decide : (72 : UInt8) ∉ [65, 66, 67, 68])

theorem Picture.absolute_paint (p : Picture g) (q : Parser) : ∀ a ∈ vtReader.outputs q p.paint, a.Absolute := by
  obtain ⟨hnormal, hcancel⟩ := cancel q
  obtain ⟨hout, -⟩ := outputs_encodeAll p.commands (vtReader.next q 24) hnormal
  intro a ha
  unfold Picture.paint at ha
  rw [Transducer.outputs_cons, List.mem_append, hout, List.mem_map] at ha
  rcases ha with ha | ⟨c, hc, rfl⟩
  · obtain ⟨args, rfl⟩ := hcancel a ha
    exact (by decide : (24 : UInt8) ∉ [65, 66, 67, 68])
  · exact p.absolute_commands c hc

/-! ### What a run leaves -/

theorem cornerBlank_newline {s : Screen g} (hrow : 0 ≤ s.cursorRow ∧ s.cursorRow < g.rows)
    (h : s.cursorRow + 1 < g.rows → s.CornerBlank) : (terminalNewline s).CornerBlank := by
  obtain ⟨h0, h1⟩ := hrow
  intro r c hr hc
  by_cases hlt : s.cursorRow + 1 < g.rows
  · rw [terminalNewline_of_lt s h0 hlt]
    exact h hlt r c hr hc
  · rw [terminalNewline_of_last s (by omega)]
    unfold Screen.cell
    dsimp only
    rw [RowMajor.cell_scrollUp, dif_neg (by omega)]
    exact ⟨rfl, rfl⟩

/-- **A character in the last cell is gone at once**: the line end scrolls. -/
theorem cornerBlank_putChar {s : Screen g} (hin : s.InGrid g) (h : s.CornerBlank) (ch : UInt8) :
    (terminalPutChar s ch).CornerBlank := by
  obtain ⟨r, c, hr, hc⟩ := hin.exists_fin
  rw [terminalPutChar_of_inGrid s ch r c hr hc]
  -- unless it is the last one, the cell that is stored leaves the corner
  have hstored : (r.val + 1 < g.rows ∨ c.val + 1 < g.cols) →
      ∀ col, Screen.CornerBlank { s with
        buffer := RowMajor.store s.buffer ((r.val * g.cols + c.val : Nat) : Int) (s.glyph ch), cursorCol := col } := by
    intro hother col r' c' hr' hc'
    unfold Screen.cell
    dsimp only
    rw [RowMajor.cell_store_flat, if_neg (by rintro ⟨rfl, rfl⟩; omega)]
    exact h r' c' hr' hc'
  dsimp only
  split
  · rename_i hcol
    exact hstored (.inr hcol) _
  · refine cornerBlank_newline hin.1 fun hrow => ?_
    exact hstored (.inl (by dsimp only at hrow; omega)) _

theorem cornerBlank_executeCsi {s : Screen g} (hin : s.InGrid g) (h : s.CornerBlank) (p : CsiArgs) (cmd : UInt8) :
    (parserExecuteCsi p cmd s).CornerBlank := by
  refine parserExecuteCsi_cases (motive := Screen.CornerBlank) p cmd s (fun _ => h) (fun _ => h) (fun _ => h)
    (fun _ => ?display) (fun _ => ?line) (fun _ => h)
  case display =>
    intro r c hr hc
    rw [cell_executeEraseDisplay]
    split
    · exact ⟨rfl, rfl⟩
    · exact h r c hr hc
  case line =>
    intro r c hr hc
    rw [cell_executeEraseLine p s hin]
    split
    · exact ⟨rfl, rfl⟩
    · exact h r c hr hc

theorem cornerBlank_exec {s : Screen g} (hin : s.InGrid g) (h : s.CornerBlank) (a : Action) :
    (a.exec s).CornerBlank := by
  cases a with
  | newline => exact cornerBlank_newline hin.1 fun _ => h
  | carriageReturn => exact h
  | backspace =>
    unfold Action.exec
    dsimp only
    split
    · exact h
    · exact h
  | putChar ch => exact cornerBlank_putChar hin h ch
  | executeCsi p cmd => exact cornerBlank_executeCsi hin h p cmd

theorem cornerBlank_processByte {s : Session g} (hin : s.InGrid) (h : s.screen.CornerBlank) (b : UInt8) :
    (terminalProcessByte s b).screen.CornerBlank := by
  rw [terminalProcessByte_eq]
  rcases out_cases s.parser b with hout | ⟨a, hout, -⟩
  · rw [hout]
    exact h
  · rw [hout]
    exact cornerBlank_exec hin h a

/-- **The last cell is blank after every byte.** -/
theorem cornerBlank_run {bs : List UInt8} (h : Contained g bs) :
    (terminalProcessBytes (terminalInit g) bs).screen.CornerBlank := by
  refine Transducer.forall_prefix terminalProcessByte (fun s => s.screen.CornerBlank) (terminalInit g) bs ?_ ?_ bs
    (List.prefix_refl bs)
  · intro r c _ _
    unfold terminalInit Screen.cell
    rw [RowMajor.cell_eq _ r c (RowMajor.flat_lt r.isLt c.isLt), Vector.getElem_replicate]
    exact ⟨rfl, rfl⟩
  · intro pre b hpre hcorner
    exact cornerBlank_processByte (h pre ((List.prefix_append pre [b]).trans hpre)) hcorner b

/-- **What a run leaves is a picture.** -/
theorem exists_picture {bs : List UInt8} (h : Contained g bs) :
    ∃ p : Picture g, p.toScreen = (terminalProcessBytes (terminalInit g) bs).screen :=
  ⟨⟨_, h bs (List.prefix_refl bs), allPrintable_run g bs, cornerBlank_run h, attrsCh_processBytes bs (terminalInit g)⟩,
    rfl⟩

theorem contained_append {past bs : List UInt8} (h : Contained g past)
    (h' : ∀ pre, pre <+: bs → (terminalProcessBytes (terminalProcessBytes (terminalInit g) past) pre).InGrid) :
    Contained g (past ++ bs) := by
  intro pre hpre
  rcases List.prefix_or_prefix_of_prefix hpre (List.prefix_append past bs) with hpast | ⟨rest, rfl⟩
  · exact h pre hpast
  · rw [List.prefix_append_right_inj] at hpre
    rw [terminalProcessBytes_append]
    exact h' rest hpre

/-- **The pictures are the screens that can be reached**, from any past, and each has a stream that paints it. -/
theorem reachable_iff (past : List UInt8) (hpast : Contained g past) (t : Screen g) :
    ((∃ bs, Contained g (past ++ bs) ∧ (terminalProcessBytes (terminalInit g) (past ++ bs)).screen = t) ↔
        ∃ p : Picture g, p.toScreen = t) ∧
      ∀ p : Picture g, Contained g (past ++ p.paint) ∧
        (terminalProcessBytes (terminalInit g) (past ++ p.paint)).screen = p.toScreen := by
  have hpaint : ∀ p : Picture g, Contained g (past ++ p.paint) ∧
      (terminalProcessBytes (terminalInit g) (past ++ p.paint)).screen = p.toScreen := by
    intro p
    have hin := hpast past (List.prefix_refl past)
    refine ⟨contained_append hpast fun pre hpre => inGrid_of_outputs hin (p.absolute_paint _) hpre, ?_⟩
    rw [terminalProcessBytes_append]
    exact (p.screen_paint _ (attrsCh_processBytes past (terminalInit g))).1
  refine ⟨⟨?_, ?_⟩, hpaint⟩
  · rintro ⟨bs, hbs, rfl⟩
    exact exists_picture hbs
  · rintro ⟨p, rfl⟩
    exact ⟨p.paint, hpaint p⟩

/-- In the middle of a sequence after an `A`. -/
def midSequence : List UInt8 := [65, 27, 91, 51]

theorem contained_midSequence : Contained twoCells midSequence := by
  have hout : vtReader.outputs parserReset midSequence = [.putChar 65] := rfl
  intro pre hpre
  refine inGrid_of_outputs (inGrid_terminalInit _) (fun a ha => ?_) hpre
  have ha' : a ∈ vtReader.outputs parserReset midSequence := ha
  rw [hout, List.mem_singleton] at ha'
  rw [ha']
  trivial

theorem reachable_iff_midSequence :
    let s := terminalInit twoCells
    ((∃ bs, Contained twoCells (midSequence ++ bs) ∧ (terminalProcessBytes s (midSequence ++ bs)).screen = s.screen) ↔
        ∃ p : Picture twoCells, p.toScreen = s.screen) ∧
      ∀ p : Picture twoCells, Contained twoCells (midSequence ++ p.paint) ∧
        (terminalProcessBytes s (midSequence ++ p.paint)).screen = p.toScreen :=
  reachable_iff midSequence contained_midSequence _

end Ptywrap
