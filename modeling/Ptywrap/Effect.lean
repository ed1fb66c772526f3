import Ptywrap.Contain
import Ptywrap.Patch
/-!
# Effect — what a byte stream does to the cells

The cells never steer the terminal: where the cursor goes, which attributes are current and what is written where
follow from the pen and the parser alone, and so does whether anything outside the buffer is touched, which has no
effect that could be told.  A byte stream that stays inside acts on the cells as a patch, a move by whole rows and an
overwriting (`process_effect`), and what was on the screen is forgotten exactly when every cell is overwritten
(`forgets_screen_iff`).
-/
namespace Ptywrap

open CInt (wrap32)

variable {g : Geometry}

/-- Where the pen goes, and a patch of the cells that moves whole rows. -/
structure Effect (g : Geometry) where
  pen : Pen
  patch : Patch (g.rows * g.cols) Cell
  whole : g.cols ∣ patch.shift

namespace Effect

def on (e : Effect g) (buffer : Vector Cell (g.rows * g.cols)) : Screen g :=
  { toPen := e.pen, buffer := e.patch.apply buffer }

/-- The cells stay. -/
def move (pen : Pen) : Effect g := ⟨pen, .refl _ _, Nat.dvd_zero _⟩

def overwrite (pen : Pen) (is : List Int) (a : Cell) : Effect g := ⟨pen, .overwrite _ is a, Nat.dvd_zero _⟩

def andThen (e : Effect g) (f : Pen → Effect g) : Effect g :=
  ⟨(f e.pen).pen, (f e.pen).patch.comp e.patch, Nat.dvd_add (f e.pen).whole e.whole⟩

theorem on_andThen (e : Effect g) (f : Pen → Effect g) (buffer : Vector Cell (g.rows * g.cols)) :
    (e.andThen f).on buffer = (f (e.on buffer).toPen).on (e.on buffer).buffer :=
  congrArg (Screen.mk _) (Patch.apply_comp _ _ _)

@[simp] theorem on_move (pen : Pen) (buffer : Vector Cell (g.rows * g.cols)) :
    (move pen : Effect g).on buffer = { toPen := pen, buffer := buffer } :=
  congrArg (Screen.mk _) (Patch.apply_refl _)

@[simp] theorem on_overwrite (pen : Pen) (is : List Int) (a : Cell) (buffer : Vector Cell (g.rows * g.cols)) :
    (overwrite pen is a : Effect g).on buffer = { toPen := pen, buffer := RowMajor.storeAll buffer is a } :=
  congrArg (Screen.mk _) (Patch.apply_overwrite _ _ _)

end Effect

/-! ## One action -/

def newlineEffect (g : Geometry) (pen : Pen) : Effect g :=
  let pen := { pen with cursorCol := 0, cursorRow := wrap32 (pen.cursorRow + 1) }
  if (g.rows : Int) ≤ pen.cursorRow then
    ⟨{ pen with cursorRow := (g.rows : Int) - 1 }, .scroll _ g.cols pen.blank, Nat.dvd_refl _⟩
  else .move pen

def putCharEffect (g : Geometry) (ch : UInt8) (pen : Pen) : Effect g :=
  if (g.rows : Int) ≤ pen.cursorRow ∨ (g.cols : Int) ≤ pen.cursorCol then .move pen
  else
    let stored : Effect g := .overwrite { pen with cursorCol := wrap32 (pen.cursorCol + 1) }
      [cellIndex g.cols pen.cursorRow pen.cursorCol] (pen.glyph ch)
    if (g.cols : Int) ≤ wrap32 (pen.cursorCol + 1) then stored.andThen (newlineEffect g) else stored

def csiEffect (g : Geometry) (p : CsiArgs) (cmd : UInt8) (pen : Pen) : Effect g :=
  if cmd = 109 then .move { pen with currentAttrs := executeSgr p pen.currentAttrs }
  else if cmd = 65 ∨ cmd = 66 ∨ cmd = 67 ∨ cmd = 68 then .move (executeCursorMove g p cmd pen)
  else if cmd = 72 ∨ cmd = 102 then .move (executeCursorPosition g p pen)
  else if cmd = 74 then
    if p.arg 0 0 = 2 then .overwrite { pen with cursorRow := 0, cursorCol := 0 } (eraseDisplayIndices g p) pen.blank
    else .move pen
  else if cmd = 75 then .overwrite pen (eraseLineIndices g p pen) pen.blank
  else .move pen

def Action.effect (g : Geometry) : Action → Pen → Effect g
  | newline => newlineEffect g
  | carriageReturn => fun pen => .move { pen with cursorCol := 0 }
  | backspace => fun pen => .move (if 0 < pen.cursorCol then { pen with cursorCol := pen.cursorCol - 1 } else pen)
  | putChar ch => putCharEffect g ch
  | executeCsi p cmd => csiEffect g p cmd

theorem newline_effect (s : Screen g) : terminalNewline s = (newlineEffect g s.toPen).on s.buffer := by
  unfold terminalNewline newlineEffect
  dsimp only
  split
  · exact congrArg (Screen.mk _) (Patch.apply_scroll g.rows_pos _ _).symm
  · rw [Effect.on_move]

theorem putChar_effect (s : Screen g) (ch : UInt8) :
    terminalPutChar s ch = (putCharEffect g ch s.toPen).on s.buffer := by
  unfold terminalPutChar putCharEffect
  dsimp only
  by_cases hout : (g.rows : Int) ≤ s.cursorRow ∨ (g.cols : Int) ≤ s.cursorCol
  · rw [if_pos hout, if_pos hout, Effect.on_move]
  have hstored : (Effect.overwrite { s.toPen with cursorCol := wrap32 (s.cursorCol + 1) }
      [cellIndex g.cols s.cursorRow s.cursorCol] (s.glyph ch) : Effect g).on s.buffer =
        { s with
          buffer := RowMajor.store s.buffer (cellIndex g.cols s.cursorRow s.cursorCol) (s.glyph ch)
          cursorCol := wrap32 (s.cursorCol + 1) } := Effect.on_overwrite _ _ _ _
  rw [if_neg hout, if_neg hout]
  by_cases hwrap : (g.cols : Int) ≤ wrap32 (s.cursorCol + 1)
  · rw [if_pos hwrap, if_pos hwrap, Effect.on_andThen, hstored]
    exact newline_effect _
  · rw [if_neg hwrap, if_neg hwrap, hstored]

theorem csi_effect (p : CsiArgs) (cmd : UInt8) (s : Screen g) :
    parserExecuteCsi p cmd s = (csiEffect g p cmd s.toPen).on s.buffer := by
  unfold parserExecuteCsi csiEffect
  split
  · rw [Effect.on_move]
  split
  · rw [Effect.on_move]
  split
  · rw [Effect.on_move]
  split
  · unfold executeEraseDisplay
    split
    · rw [Effect.on_overwrite]
    · rw [Effect.on_move]
  split
  · rw [Effect.on_overwrite]
    rfl
  · rw [Effect.on_move]

/-- **An action is its effect**, whatever the cells hold. -/
theorem exec_effect (a : Action) (s : Screen g) : a.exec s = (a.effect g s.toPen).on s.buffer := by
  cases a with
  | newline => exact newline_effect s
  | carriageReturn => exact (Effect.on_move _ _).symm
  | backspace =>
    unfold Action.exec Action.effect
    dsimp only
    rw [Effect.on_move]
    split <;> rfl
  | putChar ch => exact putChar_effect s ch
  | executeCsi p cmd => exact csi_effect p cmd s

/-! ## A stream -/

/-- The action reads and writes cells of the buffer only. -/
def Action.Inside (g : Geometry) (pen : Pen) (a : Action) : Prop :=
  ∀ i ∈ a.touched g pen, 0 ≤ i ∧ i < ((g.rows * g.cols : Nat) : Int)

instance (g : Geometry) (pen : Pen) (a : Action) : Decidable (a.Inside g pen) := by
  unfold Action.Inside; exact inferInstance

/-- The effect and then those of some actions, if each of them stays inside the buffer. -/
def Effect.through (e : Effect g) : List Action → Option (Effect g)
  | [] => some e
  | a :: as => if a.Inside g e.pen then (e.andThen (a.effect g)).through as else none

theorem Effect.through_cons (e : Effect g) (a : Action) (as : List Action) :
    e.through (a :: as) = if a.Inside g e.pen then (e.andThen (a.effect g)).through as else none := rfl

/-- The effect of a byte stream, computed from the pen and the parser; none if it goes outside the buffer. -/
def streamEffect (g : Geometry) (pen : Pen) (parser : Parser) (bs : List UInt8) : Option (Effect g) :=
  (Effect.move pen).through (vtReader.outputs parser bs)

theorem exec_on (e : Effect g) (a : Action) (buffer : Vector Cell (g.rows * g.cols)) :
    a.exec (e.on buffer) = (e.andThen (a.effect g)).on buffer := by
  rw [Effect.on_andThen]
  exact exec_effect a _

theorem foldl_through : ∀ (as : List Action) {e e' : Effect g}, e.through as = some e' →
    ∀ buffer, as.foldl Action.exec (e.on buffer) = e'.on buffer
  | [], e, e', h, buffer => by
    rw [Option.some.inj h]
    rfl
  | a :: as, e, e', h, buffer => by
    rw [Effect.through_cons] at h
    split at h
    · rw [List.foldl_cons, exec_on]
      exact foldl_through as h buffer
    · cases h

/-- **Whether a stream stays inside the buffer does not depend on the cells either.** -/
theorem throughout_inside_iff : ∀ (bs : List UInt8) (e : Effect g) (p : Parser) (buffer : Vector Cell (g.rows * g.cols)),
    Transducer.Throughout terminalProcessByte Session.ByteInside bs (⟨e.on buffer, p⟩ : Session g) ↔
      (e.through (vtReader.outputs p bs)).isSome = true
  | [], _, _, _ => iff_of_true trivial rfl
  | b :: bs, e, p, buffer => by
    have hstep := terminalProcessByte_eq (⟨e.on buffer, p⟩ : Session g) b
    dsimp only at hstep
    rw [Transducer.outputs_cons]
    unfold Transducer.Throughout
    rw [hstep]
    rcases out_cases p b with hout | ⟨a, hout, -⟩
    · have hinside : (⟨e.on buffer, p⟩ : Session g).ByteInside b := by
        unfold Session.ByteInside Session.byteTouched
        rw [hout]
        exact nofun
      rw [show vtReader.out p b = [] from hout, hout]
      exact (and_iff_right hinside).trans (throughout_inside_iff bs e (p.next b) buffer)
    · have hinside : (⟨e.on buffer, p⟩ : Session g).ByteInside b ↔ a.Inside g e.pen := by
        unfold Session.ByteInside Session.byteTouched
        rw [hout, List.flatMap_singleton]
        rfl
      have hrest := throughout_inside_iff bs (e.andThen (a.effect g)) (p.next b) buffer
      rw [show vtReader.out p b = [a] from hout, hout, List.foldl_cons, List.foldl_nil, exec_on, hinside, hrest,
        List.singleton_append, Effect.through_cons]
      split
      · next hin => exact and_iff_right hin
      · next hgoes => exact iff_of_false (fun h => hgoes h.1) nofun

theorem process_eq_on (s : Session g) {bs : List UInt8} {e : Effect g}
    (he : streamEffect g s.screen.toPen s.parser bs = some e) :
    (terminalProcessBytes s bs).screen = e.on s.screen.buffer := by
  rw [terminalProcessBytes_eq, ← foldl_through _ he, Effect.on_move]

/-- **A byte stream moves the cells up by whole rows and overwrites some of them**, unless it goes outside the buffer; and
neither whether it does, nor the move, nor what is written where depends on what the cells hold, nor do cursor,
attributes and parser. -/
theorem process_effect (s : Session g) (bs : List UInt8) :
    (Transducer.Throughout terminalProcessByte Session.ByteInside bs s ↔
      (streamEffect g s.screen.toPen s.parser bs).isSome = true) ∧
    ∀ e ∈ streamEffect g s.screen.toPen s.parser bs,
      let s' := terminalProcessBytes s bs
      s'.screen.toPen = e.pen ∧ s'.parser = vtReader.after s.parser bs ∧ g.cols ∣ e.patch.shift ∧
        ∀ i < g.rows * g.cols, s'.screen.buffer[i]? = (e.patch.written i).or s.screen.buffer[i + e.patch.shift]? := by
  constructor
  · have hinside := throughout_inside_iff bs (Effect.move s.screen.toPen) s.parser s.screen.buffer
    rw [Effect.on_move] at hinside
    exact hinside
  · intro e he s'
    have hon : s'.screen = e.on s.screen.buffer := process_eq_on s he
    refine ⟨congrArg Screen.toPen hon, parser_terminalProcessBytes s bs, e.whole, fun i hi => ?_⟩
    rw [hon]
    exact Patch.getElem?_apply _ _ hi

theorem lineEnd_inside : (streamEffect twoCells ⟨0, 0, ⟨0, 7, 0, 0⟩⟩ parserReset [65, 66]).isSome = true := by decide

/-- Two characters on a screen of two cells. -/
def lineEnd : Effect twoCells := (streamEffect twoCells ⟨0, 0, ⟨0, 7, 0, 0⟩⟩ parserReset [65, 66]).get lineEnd_inside

/-- The second one ends the line, and its newline moves both cells out. -/
example : lineEnd.patch.shift = 2 ∧ lineEnd.patch.written 0 = some ⟨32, 7, 0, 0⟩ ∧
    lineEnd.patch.written 1 = some ⟨32, 7, 0, 0⟩ := by decide

theorem cells_differ : (⟨32, 7, 0, 0⟩ : Cell) ≠ ⟨33, 7, 0, 0⟩ := by decide

/-- **A byte stream forgets the screen it finds exactly when it overwrites every cell of it.** -/
theorem forgets_screen_iff (g : Geometry) (pen : Pen) (parser : Parser) (bs : List UInt8) (e : Effect g)
    (he : streamEffect g pen parser bs = some e) :
    (∀ buffer buffer', (terminalProcessBytes (⟨⟨pen, buffer⟩, parser⟩ : Session g) bs).screen =
        (terminalProcessBytes (⟨⟨pen, buffer'⟩, parser⟩ : Session g) bs).screen) ↔
      ∀ i < g.rows * g.cols, (e.patch.written i).isSome = true := by
  have hon : ∀ buffer, (terminalProcessBytes (⟨⟨pen, buffer⟩, parser⟩ : Session g) bs).screen = e.on buffer :=
    fun buffer => process_eq_on ⟨⟨pen, buffer⟩, parser⟩ he
  rw [← Patch.forgets_iff cells_differ]
  simp only [hon, Effect.on, Screen.mk.injEq, true_and]

theorem forgets_screen_iff_lineEnd :
    (∀ buffer buffer', (terminalProcessBytes (⟨⟨⟨0, 0, ⟨0, 7, 0, 0⟩⟩, buffer⟩, parserReset⟩ : Session twoCells)
          [65, 66]).screen =
        (terminalProcessBytes (⟨⟨⟨0, 0, ⟨0, 7, 0, 0⟩⟩, buffer'⟩, parserReset⟩ : Session twoCells) [65, 66]).screen) ↔
      ∀ i < 1 * 2, (lineEnd.patch.written i).isSome = true :=
  forgets_screen_iff twoCells ⟨0, 0, ⟨0, 7, 0, 0⟩⟩ parserReset [65, 66] lineEnd (Option.some_get lineEnd_inside).symm

/-! ## A row -/

/-- The effect takes row `r` up to row `r'`, and where it writes over a text that begins there in column `k`, it writes the
text's own characters. -/
def Effect.Carries (e : Effect g) (r r' : Fin g.rows) (k : Nat) (text : List UInt8) : Prop :=
  r'.val * g.cols + e.patch.shift = r.val * g.cols ∧
    ∀ c : Fin g.cols, k ≤ c.val → ∀ a ∈ e.patch.written (r'.val * g.cols + c.val), ∀ ch ∈ text[c.val - k]?, a.ch = ch

/-- **Characters that are carried are as they were.** -/
theorem ch_of_carries {e : Effect g} {r r' : Fin g.rows} {k : Nat} {text : List UInt8} (h : e.Carries r r' k text)
    (buffer : Vector Cell (g.rows * g.cols)) (c : Fin g.cols) (hk : k ≤ c.val) {ch : UInt8} (hch : ch ∈ text[c.val - k]?)
    (hbefore : (RowMajor.cell buffer r c).ch = ch) : ((e.on buffer).cell r' c).ch = ch := by
  obtain ⟨hshift, hwrites⟩ := h
  have hlt := RowMajor.flat_lt r.isLt c.isLt
  have hplace : r'.val * g.cols + c.val + e.patch.shift = r.val * g.cols + c.val := by omega
  rw [RowMajor.cell_eq _ r c hlt] at hbefore
  unfold Screen.cell Effect.on
  dsimp only
  rw [RowMajor.cell_eq _ r' c (RowMajor.flat_lt r'.isLt c.isLt), Patch.getElem_apply]
  cases hwritten : e.patch.written (r'.val * g.cols + c.val) with
  | some a => exact hwrites c hk a hwritten ch hch
  | none =>
    rw [Option.getD_none, RowMajor.getD_of_lt _ _ _ (by rw [hplace]; exact hlt)]
    simp only [hplace]
    exact hbefore

end Ptywrap
