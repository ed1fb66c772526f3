import Ptywrap.Api
import Ptywrap.Lines
/-!
# Repaint — a full screen written and read back

The repaint erases the display and writes every row from its first column.  The last character of the last row ends a
line like any other, so the screen has moved up by one row when the repaint is over: row `r` reads as string `r + 1`,
and the last row is blank (`repaint_rows`).
-/
namespace Ptywrap

variable {g : Geometry}

def repaintRows (r : Nat) : List (Line g) → List UInt8
  | [] => []
  | l :: lines => positionBytes (r + 1) 1 ++ l.text ++ repaintRows (r + 1) lines

/-- `ESC[2J`, then all rows. -/
def repaint (content : Vector (Line g) g.rows) : List UInt8 := [27, 91, 50, 74] ++ repaintRows 0 content.toList

theorem page_erase (s : Session g) (hs : s.parser.parseState = .normal) :
    Page (terminalProcessBytes s [27, 91, 50, 74]).screen [] [] ∧
      (terminalProcessBytes s [27, 91, 50, 74]).parser.parseState = .normal := by
  obtain ⟨h1, h2⟩ := screen_csiEncode s hs eraseCommand
  have hbytes := encode_eraseCommand
  have hargs : (argsOf (eraseCommand.numerals.map Decimal.value)).arg 0 0 = 2 := by decide
  rw [hbytes] at h1 h2
  refine ⟨?_, h2⟩
  have hcell := cell_executeEraseDisplay (argsOf (eraseCommand.numerals.map Decimal.value)) s.screen
  rw [show eraseCommand.final = 74 from rfl] at h1
  unfold parserExecuteCsi at h1
  simp +decide only [if_true, if_false] at h1
  rw [h1]
  unfold executeEraseDisplay at hcell ⊢
  simp only [if_pos hargs] at hcell ⊢
  exact page_of_blank _ rfl rfl (fun r c => congrArg Cell.ch (hcell r c))

/-- **One row**: where the row is the next one of the page, positioning on it moves nothing. -/
theorem page_repaintRow (s : Session g) (hs : s.parser.parseState = .normal) (done : List (List UInt8)) (l : Line g)
    (hfull : l.text.length = g.cols) (hrow : done.length < g.rows) (h : Page s.screen done []) :
    Page (terminalProcessBytes s (positionBytes (done.length + 1) 1 ++ l.text)).screen (done ++ [l.text]) [] ∧
      (terminalProcessBytes s (positionBytes (done.length + 1) 1 ++ l.text)).parser.parseState = .normal := by
  obtain ⟨h1, h2⟩ := screen_position s hs ⟨done.length, hrow⟩ ⟨0, g.cols_pos⟩
  have hsame : (terminalProcessBytes s (positionBytes (done.length + 1) 1)).screen = s.screen := by
    refine h1.trans ?_
    have hr : s.screen.cursorRow = (done.length : Int) := by
      rw [h.row]
      unfold pageCursor
      omega
    simp only [← hr]
    rw [show ((0 : Nat) : Int) = s.screen.cursorCol from h.col.symm]
  obtain ⟨h3, h4⟩ := screen_printables _ h2 l.text (fun b hb => (isPrintable_iff b).2 (l.printable b hb))
  have hline := page_line h l.text l.fits
  rw [if_neg (by omega)] at hline
  rw [terminalProcessBytes_append]
  refine ⟨?_, h4⟩
  rw [show positionBytes (done.length + 1) 1 = positionBytes (done.length + 1) (0 + 1) from rfl] at hsame ⊢
  rw [h3, hsame]
  exact hline

theorem page_repaintRows : ∀ (lines : List (Line g)) (s : Session g) (done : List (List UInt8)),
    s.parser.parseState = .normal → (∀ l ∈ lines, l.text.length = g.cols) → done.length + lines.length ≤ g.rows →
    Page s.screen done [] →
    Page (terminalProcessBytes s (repaintRows done.length lines)).screen (done ++ lines.map Line.text) []
  | [], _, _, _, _, _, h => by rwa [List.map_nil, List.append_nil]
  | l :: lines, s, done, hs, hfull, hlen, h => by
    rw [List.length_cons] at hlen
    obtain ⟨h1, h2⟩ := page_repaintRow s hs done l (hfull l List.mem_cons_self) (by omega) h
    have hdone : (done ++ [l.text]).length = done.length + 1 := by rw [List.length_append, List.length_singleton]
    have ih := page_repaintRows lines _ _ h2 (fun x hx => hfull x (List.mem_cons_of_mem l hx)) (by omega) h1
    rw [hdone, List.append_assoc, List.singleton_append] at ih
    unfold repaintRows
    rw [terminalProcessBytes_append, List.map_cons]
    exact ih

/-- **After the repaint row `r` shows string `r + 1`**, and the last row is blank. -/
theorem repaint_rows (s : Session g) (hs : s.parser.parseState = .normal) (content : Vector (Line g) g.rows)
    (hfull : ∀ r : Fin g.rows, content[r].text.length = g.cols) (r : Fin g.rows) (c : Fin g.cols) :
    ((terminalProcessBytes s (repaint content)).screen.cell r c).ch =
      if h : r.val + 1 < g.rows then content[r.val + 1].text.getD c.val 32 else 32 := by
  obtain ⟨h1, h2⟩ := page_erase s hs
  have hlines : ∀ l ∈ content.toList, l.text.length = g.cols := by
    intro l hl
    obtain ⟨i, hi, rfl⟩ := List.getElem_of_mem hl
    rw [Vector.length_toList] at hi
    exact hfull ⟨i, hi⟩
  have hpage := page_repaintRows content.toList _ [] h2 hlines (by simp) h1
  unfold repaint
  rw [terminalProcessBytes_append]
  refine (hpage.chars r c).trans ?_
  have hpos := g.rows_pos
  have hlen : (content.toList.map Line.text).length = g.rows := by simp
  rw [List.nil_append, pageRow_nil]
  unfold lastLines
  rw [hlen, show g.rows - (g.rows - 1) = 1 by omega]
  simp only [List.getD_eq_getElem?_getD, List.getElem?_drop, List.getElem?_map]
  rw [Nat.add_comm 1]
  split
  · rename_i hr
    simp [hr]
  · rename_i hr
    simp [Nat.not_lt.1 hr]

/-- Where every row equals the one below it and the last row is blank, all rows are. -/
theorem blank_of_shifted (f : Fin g.rows → Fin g.cols → UInt8)
    (h : ∀ r c, f r c = if hr : r.val + 1 < g.rows then f ⟨r.val + 1, hr⟩ c else 32) (c : Fin g.cols) :
    ∀ (n : Nat) (r : Fin g.rows), r.val + n + 1 = g.rows → f r c = 32
  | 0, r, hr => by
    rw [h, dif_neg (by omega)]
  | n + 1, r, hr => by
    rw [h, dif_pos (by omega)]
    exact blank_of_shifted f h c n ⟨r.val + 1, by omega⟩ (by simp only; omega)

/-- **Every row of a repaint reads back exactly when all of it is spaces.** -/
theorem repaint_readBack_iff (s : Session g) (hs : s.parser.parseState = .normal) (content : Vector (Line g) g.rows)
    (hfull : ∀ r : Fin g.rows, content[r].text.length = g.cols) (buf : List UInt8) (hbuf : buf.length = g.cols + 1) :
    (∀ r : Fin g.rows, ptywrapGetRowText (some (terminalProcessBytes s (repaint content))) r.val (some buf) (g.cols + 1) =
      ((g.cols : Int), some (content[r].text ++ [0]))) ↔
      ∀ r : Fin g.rows, ∀ b ∈ content[r].text, b = 32 := by
  have hread := fun r => getRowText_eq_iff (terminalProcessBytes s (repaint content)) r buf hbuf content[r].text (hfull r)
  simp only [hread, repaint_rows s hs content hfull]
  constructor
  · intro h r b hb
    obtain ⟨c, hc, rfl⟩ := List.getElem_of_mem hb
    have hr := r.isLt
    have hblank := blank_of_shifted (fun r c => content[r].text.getD c.val 32) (fun r c => (h r c).symm)
      ⟨c, by rw [← hfull r]; exact hc⟩ (g.rows - 1 - r.val) r (by omega)
    rwa [List.getD_eq_getElem _ _ hc] at hblank
  · intro h r c
    have hspace : ∀ r : Fin g.rows, content[r].text.getD c.val 32 = 32 := by
      intro r
      rw [List.getD_eq_getElem _ _ (by rw [hfull r]; exact c.isLt)]
      exact h r _ (List.getElem_mem _)
    rw [hspace r]
    split
    · rename_i hr
      exact hspace ⟨r.val + 1, hr⟩
    · rfl

/-- `ab` over `cd`. -/
theorem repaint_readBack_two :
    let g : Geometry := ⟨2, 2, by decide, by decide, by decide⟩
    let content : Vector (Line g) 2 := #v[⟨[97, 98], by decide, by simp⟩, ⟨[99, 100], by decide, by simp⟩]
    (∀ r : Fin 2, ptywrapGetRowText (some (terminalProcessBytes (terminalInit g) (repaint content))) r.val
        (some [0, 0, 0]) 3 = (2, some (content[r].text ++ [0]))) ↔
      ∀ r : Fin 2, ∀ b ∈ content[r].text, b = 32 :=
  repaint_readBack_iff (g := ⟨2, 2, by decide, by decide, by decide⟩) _ rfl _ (by decide) _ rfl

/-- The first row of it reads `cd`. -/
theorem repaint_shifted :
    ¬ ∀ (g : Geometry) (s : Session g) (content : Vector (Line g) g.rows) (buf : List UInt8),
      s.parser.parseState = .normal → (∀ r : Fin g.rows, content[r].text.length = g.cols) → buf.length = g.cols + 1 →
      ∀ r : Fin g.rows, ptywrapGetRowText (some (terminalProcessBytes s (repaint content))) r.val (some buf)
        (g.cols + 1) = ((g.cols : Int), some (content[r].text ++ [0])) := by
  intro h
  have hfirst := h ⟨2, 2, by decide, by decide, by decide⟩ (terminalInit _)
    #v[⟨[97, 98], by decide, by simp⟩, ⟨[99, 100], by decide, by simp⟩] [0, 0, 0] rfl (by decide) rfl ⟨0, by decide⟩
  revert hfirst
  decide

end Ptywrap
