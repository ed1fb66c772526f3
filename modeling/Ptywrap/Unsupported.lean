import Ptywrap.Encode
import Ptywrap.Print
/-!
# Unsupported — control sequences the parser does not implement

A complete CSI sequence is parameter bytes, intermediate bytes and a final byte.  The parser ends a sequence at the
first byte that is neither a digit nor a `;`, so the bytes after that one, if it is not the final byte, are printed
(`printedTail`).  A sequence is ignored whole exactly when that text is empty or leaves the screen as it was
(`unsupported_ignored_iff`).
-/
namespace Ptywrap

open CInt (wrap32 intMax Fits)
open RowMajor (store scrollUp tape)

variable {g : Geometry}

structure CsiSequence where
  params : List UInt8
  inters : List UInt8
  final : UInt8
  params_range : ∀ b ∈ params, 0x30 ≤ b ∧ b ≤ 0x3F
  inters_range : ∀ b ∈ inters, 0x20 ≤ b ∧ b ≤ 0x2F
  final_range : 0x40 ≤ final ∧ final ≤ 0x7E

def CsiSequence.bytes (q : CsiSequence) : List UInt8 := 27 :: 91 :: (q.params ++ q.inters ++ [q.final])

/-- `m`, `A`, `B`, `C`, `D`, `H`, `f`, `J`, `K`. -/
def commandBytes : List UInt8 := [109, 65, 66, 67, 68, 72, 102, 74, 75]

/-- The sequence is a command of the library: decimal parameters, no intermediate byte, one of the final bytes. -/
def CsiSequence.Supported (q : CsiSequence) : Prop :=
  (∀ b ∈ q.params, isParamChar b = true) ∧ q.inters = [] ∧ q.final ∈ commandBytes

/-- The bytes of the sequence that the parser prints: those after the first that is neither a digit nor a `;`. -/
def CsiSequence.printedTail (q : CsiSequence) : List UInt8 :=
  ((q.params ++ q.inters ++ [q.final]).dropWhile isParamChar).tail

def Screen.pos (s : Screen g) : Nat := s.cursorRow.toNat * g.cols + s.cursorCol.toNat

/-- Printing `text` leaves the screen as it is: there is nothing to print, or the cursor is past the lower or the
right edge, or it is on the last row, the text is a whole number of lines, and every cell already holds what stands
`text.length` positions further on the tape. -/
def PrintsNothingNew (s : Screen g) (text : List UInt8) : Prop :=
  text = [] ∨ (g.rows : Int) ≤ s.cursorRow ∨ (g.cols : Int) ≤ s.cursorCol ∨
    (s.InGrid g ∧ s.cursorRow + 1 = g.rows ∧ g.cols ∣ text.length ∧
      ∀ k (hk : k < g.rows * g.cols),
        s.buffer[k] = tape s.buffer s.pos (text.map s.glyph) s.blank (k + text.length))

/-! ## Printing that changes nothing -/

theorem foldl_putChar_of_outside (s : Screen g) (h : (g.rows : Int) ≤ s.cursorRow ∨ (g.cols : Int) ≤ s.cursorCol) :
    ∀ text : List UInt8, text.foldl terminalPutChar s = s
  | [] => rfl
  | ch :: text => by
    rw [List.foldl_cons, terminalPutChar_of_outside s ch h]
    exact foldl_putChar_of_outside s h text

theorem lt_wrap32_succ {x : Int} (h : x < intMax) : x < wrap32 (x + 1) := by
  unfold intMax at h
  unfold wrap32
  omega

/-- Printing moves a cursor that is above or left of the screen: forward in the row, or down. -/
theorem putChar_advances (s : Screen g) (ch : UInt8) :
    ((g.rows : Int) ≤ s.cursorRow ∨ (g.cols : Int) ≤ s.cursorCol) ∧ terminalPutChar s ch = s ∨
    (s.cursorRow < g.rows ∧ s.cursorCol < g.cols) ∧
      (((terminalPutChar s ch).cursorRow = s.cursorRow ∧ s.cursorCol < (terminalPutChar s ch).cursorCol) ∨
       ((terminalPutChar s ch).cursorCol = 0 ∧
         (s.cursorRow < (terminalPutChar s ch).cursorRow ∨ (terminalPutChar s ch).cursorRow = (g.rows : Int) - 1))) := by
  by_cases hout : (g.rows : Int) ≤ s.cursorRow ∨ (g.cols : Int) ≤ s.cursorCol
  · exact .inl ⟨hout, terminalPutChar_of_outside s ch hout⟩
  refine .inr ⟨by omega, ?_⟩
  have hr := g.rows_le
  have hc := g.cols_le
  unfold terminalPutChar
  rw [if_neg hout]
  dsimp only
  by_cases hwrap : (g.cols : Int) ≤ wrap32 (s.cursorCol + 1)
  · rw [if_pos hwrap]
    refine .inr ?_
    unfold terminalNewline
    dsimp only
    split
    · exact ⟨rfl, .inr rfl⟩
    · exact ⟨rfl, .inl (lt_wrap32_succ (by omega))⟩
  · rw [if_neg hwrap]
    exact .inl ⟨rfl, lt_wrap32_succ (by omega)⟩

/-- **A cursor above or left of the screen never comes back to where it was.** -/
theorem cursor_ne_of_negative (row col : Int) (hneg : row < 0 ∨ col < 0) :
    ∀ (text : List UInt8) (s : Screen g),
      (0 ≤ col → s.cursorRow = row → col < s.cursorCol) ∧ (col < 0 → col < s.cursorCol) ∧
        (0 ≤ col → row ≤ s.cursorRow) →
      (text.foldl terminalPutChar s).cursorRow ≠ row ∨ (text.foldl terminalPutChar s).cursorCol ≠ col
  | [], s, ⟨h1, h2, _⟩ => by
    by_cases hcol : col < 0
    · have := h2 hcol
      exact .inr (by simp only [List.foldl_nil]; omega)
    · by_cases hrow : s.cursorRow = row
      · have := h1 (by omega) hrow
        exact .inr (by simp only [List.foldl_nil]; omega)
      · exact .inl hrow
  | ch :: text, s, ⟨h1, h2, h3⟩ => by
    rw [List.foldl_cons]
    have hpos := g.rows_pos
    rcases putChar_advances s ch with ⟨-, hsame⟩ | ⟨-, ⟨hrow, hcol⟩ | ⟨hcol, hrow⟩⟩
    · rw [hsame]
      exact cursor_ne_of_negative row col hneg text s ⟨h1, h2, h3⟩
    · refine cursor_ne_of_negative row col hneg text _ ⟨fun h e => ?_, fun h => ?_, fun h => ?_⟩
      · have := h1 h (by omega)
        omega
      · have := h2 h
        omega
      · have := h3 h
        omega
    · refine cursor_ne_of_negative row col hneg text _ ⟨fun h e => ?_, fun h => ?_, fun h => ?_⟩
      · have := h3 h
        omega
      · omega
      · have := h3 h
        omega

theorem foldl_putChar_ne_of_negative (s : Screen g) (hin : s.cursorRow < g.rows ∧ s.cursorCol < g.cols)
    (hneg : s.cursorRow < 0 ∨ s.cursorCol < 0) (ch : UInt8) (text : List UInt8) :
    (ch :: text).foldl terminalPutChar s ≠ s := by
  intro heq
  have hpos := g.rows_pos
  have hne := cursor_ne_of_negative s.cursorRow s.cursorCol hneg text (terminalPutChar s ch) (by
    rcases putChar_advances s ch with ⟨hout, -⟩ | ⟨-, ⟨hrow, hcol⟩ | ⟨hcol, hrow⟩⟩
    · omega
    · exact ⟨fun _ _ => hcol, fun _ => hcol, fun _ => by omega⟩
    · exact ⟨fun h e => by omega, fun h => by omega, fun h => by omega⟩)
  rw [List.foldl_cons] at heq
  rw [heq] at hne
  rcases hne with h | h
  · exact h rfl
  · exact h rfl

/-- **On the screen, printing a text gives the same screen back exactly when the text is whole lines on the last row
and every cell already holds what the window shows after them.** -/
theorem foldl_putChar_eq_iff (s : Screen g) (h : s.InGrid g) (ch : UInt8) (rest : List UInt8) :
    (ch :: rest).foldl terminalPutChar s = s ↔
      s.cursorRow + 1 = g.rows ∧ g.cols ∣ (ch :: rest).length ∧
        ∀ k (hk : k < g.rows * g.cols),
          s.buffer[k] = tape s.buffer s.pos ((ch :: rest).map s.glyph) s.blank (k + (ch :: rest).length) := by
  obtain ⟨r, c, hr, hc⟩ := h.exists_fin
  have hrlt := r.isLt
  have hclt := c.isLt
  have hcpos := g.cols_pos
  have hpos : s.pos = r.val * g.cols + c.val := by
    unfold Screen.pos
    rw [hr, hc]
    rfl
  obtain ⟨hattrs, hrow, hcol, hcells⟩ := printed_run s r c hr hc (ch :: rest)
  have hLpos : 0 < (ch :: rest).length := by simp
  rw [List.length_map] at hrow hcol hcells
  rw [hpos]
  generalize ch :: rest = text at *
  have hdiv : ∀ n, text.length = g.cols * n → (r.val * g.cols + c.val + text.length) / g.cols = r.val + n := by
    intro n hn
    rw [hn]
    exact RowMajor.flat_add_div hclt
  constructor
  · intro heq
    rw [heq] at hrow hcol hcells
    have hmod : (r.val * g.cols + c.val + text.length) % g.cols = c.val := by omega
    obtain ⟨n, hn⟩ := (RowMajor.flat_add_mod_iff hclt).1 hmod
    have hnpos : 0 < n := Nat.pos_of_ne_zero (fun h0 => by rw [h0] at hn; omega)
    have hK : scrolls g (r.val * g.cols + c.val + text.length) = r.val + n - (g.rows - 1) := by
      unfold scrolls
      rw [hdiv n hn]
    rw [hdiv n hn, hK] at hrow
    have hKn : r.val + n - (g.rows - 1) = n := by omega
    refine ⟨by omega, ⟨n, hn⟩, fun k hk => ?_⟩
    rw [hcells k hk, hK, hKn, Nat.mul_comm n, ← hn]
  · rintro ⟨hlast, ⟨n, hn⟩, hsame⟩
    have hmod := (RowMajor.flat_add_mod_iff (r := r.val) hclt).2 ⟨n, hn⟩
    have hK : scrolls g (r.val * g.cols + c.val + text.length) = n := by
      unfold scrolls
      rw [hdiv n hn]
      omega
    rw [hdiv n hn, hK] at hrow
    rw [hmod] at hcol
    refine Screen.ext_cell ?_ (fun r' c' => ?_)
    · have e1 : (text.foldl terminalPutChar s).cursorRow = s.cursorRow := by omega
      have e2 : (text.foldl terminalPutChar s).cursorCol = s.cursorCol := by omega
      generalize text.foldl terminalPutChar s = s' at *
      obtain ⟨⟨row', col', attrs'⟩, buf'⟩ := s'
      simp only at e1 e2 hattrs
      rw [e1, e2, hattrs]
    · have hlt := RowMajor.flat_lt r'.isLt c'.isLt
      unfold Screen.cell
      rw [RowMajor.cell_eq _ r' c' hlt, RowMajor.cell_eq _ r' c' hlt, hcells _ hlt, hK, Nat.mul_comm n,
        ← hn]
      exact (hsame _ hlt).symm

/-- **Printing changes nothing exactly when it prints nothing new.** -/
theorem foldl_putChar_eq_iff_printsNothingNew (s : Screen g) (text : List UInt8) :
    text.foldl terminalPutChar s = s ↔ PrintsNothingNew s text := by
  unfold PrintsNothingNew
  cases text with
  | nil => exact iff_of_true rfl (.inl rfl)
  | cons ch rest =>
    by_cases hout : (g.rows : Int) ≤ s.cursorRow ∨ (g.cols : Int) ≤ s.cursorCol
    · refine iff_of_true (foldl_putChar_of_outside s hout _) (.inr ?_)
      rcases hout with h | h
      · exact .inl h
      · exact .inr (.inl h)
    have hnil : ch :: rest ≠ [] := List.cons_ne_nil ch rest
    by_cases hin : s.InGrid g
    · rw [foldl_putChar_eq_iff s hin]
      constructor
      · intro h
        exact .inr (.inr (.inr ⟨hin, h⟩))
      · rintro (h | h | h | ⟨-, h⟩)
        · exact absurd h hnil
        · exact absurd (.inl h) hout
        · exact absurd (.inr h) hout
        · exact h
    · have hneg : s.cursorRow < 0 ∨ s.cursorCol < 0 := by
        unfold Pen.InGrid at hin
        omega
      refine iff_of_false (foldl_putChar_ne_of_negative s (by omega) hneg ch rest) ?_
      rintro (h | h | h | ⟨h, -⟩)
      · exact absurd h hnil
      · exact absurd (.inl h) hout
      · exact absurd (.inr h) hout
      · exact absurd h hin

/-! ## The sequence -/

theorem not_mem_commandBytes (b : UInt8) (h : b < 0x40) : b ∉ commandBytes := by
  unfold commandBytes
  intro hb
  simp only [List.mem_cons, List.not_mem_nil, or_false] at hb
  grind

/-- **What a CSI sequence does up to its first odd byte**: digits and `;` are collected, the first other byte `x` is
executed, and if it names no command the rest is printed. -/
theorem screen_csiSequence (s : Session g) (hs : s.parser.parseState = .normal) (pre : List UInt8) (x : UInt8)
    (tail : List UInt8) (hpre : ∀ b ∈ pre, isParamChar b = true) (hx : isParamChar x = false) (hcmd : x ∉ commandBytes)
    (htail : ∀ b ∈ tail, isPrintable b = true) :
    (terminalProcessBytes s (27 :: 91 :: (pre ++ x :: tail))).screen = tail.foldl terminalPutChar s.screen ∧
      (terminalProcessBytes s (27 :: 91 :: (pre ++ x :: tail))).parser.parseState = .normal := by
  obtain ⟨h1, h2⟩ := outputs_sequence s.parser hs pre x hpre hx
  obtain ⟨h3, h4⟩ := outputs_printables tail _ h2 htail
  have hbytes : (27 :: 91 :: (pre ++ x :: tail) : List UInt8) = 27 :: 91 :: (pre ++ [x]) ++ tail := by simp
  rw [terminalProcessBytes_eq, hbytes, Transducer.outputs_append, Transducer.after_append, h1, h3, h4]
  refine ⟨?_, h2⟩
  rw [List.singleton_append, List.foldl_cons, foldl_exec_putChar]
  unfold Action.exec
  dsimp only
  rw [parserExecuteCsi_of_unsupported _ x s.screen hcmd]

theorem dropWhile_of_split {α : Type} (p : α → Bool) (pre : List α) (x : α) (tail : List α)
    (hpre : ∀ b ∈ pre, p b = true) (hx : p x = false) : (pre ++ x :: tail).dropWhile p = x :: tail := by
  rw [List.dropWhile_append_of_pos hpre, List.dropWhile_cons_of_neg (by rw [hx]; exact Bool.false_ne_true)]

/-- A list either passes a test throughout or splits at its first failure. -/
theorem all_or_split {α : Type} (p : α → Bool) : ∀ l : List α,
    (∀ b ∈ l, p b = true) ∨ ∃ pre x tail, l = pre ++ x :: tail ∧ (∀ b ∈ pre, p b = true) ∧ p x = false
  | [] => .inl (fun b hb => by cases hb)
  | a :: l => by
    cases ha : p a with
    | false => exact .inr ⟨[], a, l, rfl, fun b hb => (by cases hb), ha⟩
    | true =>
      rcases all_or_split p l with h | ⟨pre, x, tail, rfl, hpre, hx⟩
      · refine .inl (fun b hb => ?_)
        rcases List.mem_cons.1 hb with rfl | hb
        · exact ha
        · exact h b hb
      · refine .inr ⟨a :: pre, x, tail, rfl, fun b hb => ?_, hx⟩
        rcases List.mem_cons.1 hb with rfl | hb
        · exact ha
        · exact hpre b hb

theorem CsiSequence.split (q : CsiSequence) (hq : ¬ q.Supported) :
    ∃ pre x, q.params ++ q.inters ++ [q.final] = pre ++ x :: q.printedTail ∧ (∀ b ∈ pre, isParamChar b = true) ∧
      isParamChar x = false ∧ x ∉ commandBytes := by
  have hfin := isParamChar_of_final q.final q.final_range.1
  rcases all_or_split isParamChar (q.params ++ q.inters) with hall | ⟨pre, x, tail, hsplit, hpre, hx⟩
  · -- only the final byte is left, and it names no command
    have htail : q.printedTail = [] := by
      unfold CsiSequence.printedTail
      rw [dropWhile_of_split isParamChar _ q.final [] hall hfin]
      rfl
    have hinters : q.inters = [] := by
      rw [List.eq_nil_iff_forall_not_mem]
      intro b hb
      have h1 := hall b (List.mem_append_right _ hb)
      have h2 := q.inters_range b hb
      unfold isParamChar isDigit at h1
      grind
    refine ⟨q.params ++ q.inters, q.final, by rw [htail], hall, hfin, fun hcmd => hq ⟨?_, hinters, hcmd⟩⟩
    exact fun b hb => hall b (List.mem_append_left _ hb)
  · have htail : q.printedTail = tail ++ [q.final] := by
      unfold CsiSequence.printedTail
      rw [hsplit, List.append_assoc, List.cons_append, dropWhile_of_split isParamChar pre x _ hpre hx]
      rfl
    refine ⟨pre, x, ?_, hpre, hx, not_mem_commandBytes x ?_⟩
    · rw [htail, hsplit, List.append_assoc, List.cons_append]
    · have hmem : x ∈ q.params ++ q.inters := by rw [hsplit]; simp
      rcases List.mem_append.1 hmem with h | h
      · exact UInt8.lt_of_le_of_lt (q.params_range x h).2 (by decide)
      · exact UInt8.lt_of_le_of_lt (q.inters_range x h).2 (by decide)

theorem CsiSequence.isPrintable_of_mem (q : CsiSequence) (b : UInt8) (hb : b ∈ q.params ++ q.inters ++ [q.final]) :
    isPrintable b = true := by
  rw [List.mem_append, List.mem_append, List.mem_singleton] at hb
  rcases hb with (hb | hb) | rfl
  · exact isPrintable_of_range (q.params_range b hb) (by decide) (by decide)
  · exact isPrintable_of_range (q.inters_range b hb) (by decide) (by decide)
  · exact isPrintable_of_range q.final_range (by decide) (by decide)

/-- **An unsupported sequence is ignored whole exactly when the part of it that is printed changes nothing.** -/
theorem unsupported_ignored_iff (s : Session g) (hs : s.parser.parseState = .normal) (q : CsiSequence)
    (hq : ¬ q.Supported) :
    ((terminalProcessBytes s q.bytes).screen = s.screen ∧
        (terminalProcessBytes s q.bytes).parser.parseState = .normal) ↔
      PrintsNothingNew s.screen q.printedTail := by
  obtain ⟨pre, x, hsplit, hpre, hx, hcmd⟩ := q.split hq
  have htail : ∀ b ∈ q.printedTail, isPrintable b = true := fun b hb =>
    q.isPrintable_of_mem b (by rw [hsplit]; simp [hb])
  obtain ⟨h1, h2⟩ := screen_csiSequence s hs pre x q.printedTail hpre hx hcmd htail
  unfold CsiSequence.bytes
  rw [hsplit, h1]
  exact (and_iff_left h2).trans (foldl_putChar_eq_iff_printsNothingNew s.screen q.printedTail)

/-- `ESC[5n` ends at its final byte. -/
theorem unsupported_ignored_deviceStatus :
    let s := terminalInit ⟨2, 4, by decide, by decide, by decide⟩
    let q : CsiSequence := ⟨[53], [], 110, by simp, by simp, by decide⟩
    ((terminalProcessBytes s q.bytes).screen = s.screen ∧
        (terminalProcessBytes s q.bytes).parser.parseState = .normal) ↔
      PrintsNothingNew s.screen q.printedTail :=
  unsupported_ignored_iff _ rfl _ (fun h => absurd h.2.2 (by decide))

/-- `ESC[?25h` prints `25h`. -/
theorem unsupported_printed :
    ¬ ∀ (g : Geometry) (s : Session g) (q : CsiSequence), s.parser.parseState = .normal → ¬ q.Supported →
      (terminalProcessBytes s q.bytes).screen = s.screen ∧
        (terminalProcessBytes s q.bytes).parser.parseState = .normal := by
  intro h
  have hsame := (h ⟨2, 4, by decide, by decide, by decide⟩ (terminalInit _)
    ⟨[63, 50, 53], [], 104, by simp, by simp, by decide⟩ rfl (fun h => absurd h.2.2 (by decide))).1
  have hcol := congrArg (fun s : Screen _ => s.cursorCol) hsame
  revert hcol
  decide

end Ptywrap
