import Ptywrap.Page
/-!
# Lines — output line by line

Each line is sent with a carriage return and a line feed.  A line of full width has left its row before they come, so
they leave a blank row behind it (`rowsOf`).  The screen holds one row a line exactly when no such blank row shows:
`OneRowALine` says when, `lines_oneRow_iff` that it is exactly then.
-/
namespace Ptywrap

variable {g : Geometry}

/-- A line of output that fits into a row. -/
structure Line (g : Geometry) where
  text : List UInt8
  fits : text.length ≤ g.cols
  printable : ∀ b ∈ text, 32 ≤ b ∧ b ≤ 126

def sendLines (lines : List (Line g)) : List UInt8 := lines.flatMap fun l => l.text ++ [13, 10]

/-- The last `rows - 1` of the lines, or all of them when there are fewer. -/
def lastLines (g : Geometry) (lines : List (List UInt8)) : List (List UInt8) := lines.drop (lines.length - (g.rows - 1))

/-- The screen holds the last `rows - 1` of the lines in order, one a row and padded with spaces, then blank rows, with
the cursor at the start of the row after them. -/
def OneRowEach (s : Screen g) (lines : List (List UInt8)) : Prop :=
  (∀ r c, (s.cell r c).ch = ((lastLines g lines).getD r.val []).getD c.val 32) ∧
    s.cursorRow = ((lastLines g lines).length : Int) ∧ s.cursorCol = 0

/-- The rows a line takes: one more than it fills when it has full width. -/
def rowsOf (cols : Nat) (text : List UInt8) : List (List UInt8) := if text.length = cols then [text, []] else [text]

/-- When the blank rows behind lines of full width do not show: there are fewer than `rows - 1` lines and none has full
width, or, counting from the last line, every line shown that is a line of full width or stands above one is all
spaces. -/
def OneRowALine (g : Geometry) (lines : List (List UInt8)) : Prop :=
  if lines.length < g.rows - 1 then ∀ l ∈ lines, l.length ≠ g.cols
  else ∀ i < g.rows - 1, (∃ j ≤ i, (lines.reverse.getD j []).length = g.cols) → ∀ b ∈ lines.reverse.getD i [], b = 32

/-! ## The run -/

theorem page_init (g : Geometry) : Page (terminalInit g).screen [] [] := by
  refine page_of_blank _ rfl rfl (fun r c => ?_)
  unfold Screen.cell terminalInit
  rw [RowMajor.cell_eq _ r c (RowMajor.flat_lt r.isLt c.isLt)]
  exact congrArg Cell.ch (Vector.getElem_replicate _)

/-- **One line and its end.** -/
theorem page_sendLine (s : Session g) (hs : s.parser.parseState = .normal) (done : List (List UInt8)) (l : Line g)
    (h : Page s.screen done []) :
    Page (terminalProcessBytes s (l.text ++ [13, 10])).screen (done ++ rowsOf g.cols l.text) [] ∧
      (terminalProcessBytes s (l.text ++ [13, 10])).parser.parseState = .normal := by
  obtain ⟨h1, h2⟩ := screen_printables s hs l.text (fun b hb => (isPrintable_iff b).2 (l.printable b hb))
  obtain ⟨h3, h4⟩ := screen_encodeAll (terminalProcessBytes s l.text) h2 [.cr, .lf]
  have hline := page_line h l.text l.fits
  have hfits := l.fits
  rw [terminalProcessBytes_append, show ([13, 10] : List UInt8) = encodeAll [.cr, .lf] from rfl, h3, h1]
  refine ⟨?_, h4⟩
  unfold rowsOf
  by_cases hfull : l.text.length = g.cols
  · rw [if_neg (by omega)] at hline
    rw [if_pos hfull, show done ++ [l.text, []] = done ++ [l.text] ++ [[]] by simp]
    exact page_newline hline.toPageRows.carriageReturn
  · rw [if_pos (by omega)] at hline
    rw [if_neg hfull]
    exact page_newline hline.toPageRows.carriageReturn

theorem page_sendLines : ∀ (lines : List (Line g)) (s : Session g) (done : List (List UInt8)),
    s.parser.parseState = .normal → Page s.screen done [] →
    Page (terminalProcessBytes s (sendLines lines)).screen
      (done ++ (lines.map Line.text).flatMap (rowsOf g.cols)) []
  | [], _, _, _, h => by rwa [List.map_nil, List.flatMap_nil, List.append_nil]
  | l :: lines, s, done, hs, h => by
    obtain ⟨h1, h2⟩ := page_sendLine s hs done l h
    have ih := page_sendLines lines _ _ h2 h1
    unfold sendLines at ih ⊢
    rw [List.flatMap_cons, terminalProcessBytes_append, List.map_cons, List.flatMap_cons, ← List.append_assoc]
    exact ih

theorem pageRow_nil (done : List (List UInt8)) (r : Nat) : pageRow g done [] r = (lastLines g done).getD r [] := by
  unfold pageRow lastLines
  rw [getD_snoc]
  simp only [List.getD_eq_getElem?_getD, List.getElem?_drop]
  split
  · rename_i h
    rw [List.getElem?_eq_none (by omega)]
    rfl
  · rfl

theorem Page.oneRowEach {s : Screen g} {done : List (List UInt8)} (h : Page s done []) : OneRowEach s done := by
  refine ⟨fun r c => ?_, ?_, h.col⟩
  · rw [← pageRow_nil]
    exact h.chars r c
  · rw [h.row]
    unfold pageCursor lastLines
    rw [List.length_drop]
    omega

/-! ## Counting from the last line -/

def backRows (cols : Nat) (text : List UInt8) : List (List UInt8) := (rowsOf cols text).reverse

/-- A line of full width stands among the lines up to index `i`. -/
def FullUpTo (cols : Nat) (back : List (List UInt8)) (i : Nat) : Prop := ∃ j ≤ i, (back.getD j []).length = cols

theorem FullUpTo.cons {cols : Nat} {l : List UInt8} {back : List (List UInt8)} {i : Nat} (h : FullUpTo cols back i) :
    FullUpTo cols (l :: back) (i + 1) := by
  obtain ⟨j, hj, hlen⟩ := h
  exact ⟨j + 1, by omega, hlen⟩

/-- **Row `i` from the end** is line `i` from the end, until a line of full width; from there on it is blank or a later
line that has such a line at or after it. -/
theorem getD_backRows {cols : Nat} (hpos : 0 < cols) : ∀ (back : List (List UInt8)) (i : Nat),
    (¬ FullUpTo cols back i ∧ (back.flatMap (backRows cols)).getD i [] = back.getD i []) ∨
    (FullUpTo cols back i ∧ ((back.flatMap (backRows cols)).getD i [] = [] ∨
      ∃ m < i, FullUpTo cols back m ∧ (back.flatMap (backRows cols)).getD i [] = back.getD m []))
  | [], i => by
    refine .inl ⟨?_, rfl⟩
    rintro ⟨j, -, hj⟩
    exact absurd hj (by simp; omega)
  | l :: back, i => by
    rw [List.flatMap_cons]
    by_cases hfull : l.length = cols
    · -- two rows: the blank one comes first from the end
      have hback : backRows cols l = [[], l] := by
        unfold backRows rowsOf
        rw [if_pos hfull]
        rfl
      have hup : ∀ m, FullUpTo cols (l :: back) m := fun m => ⟨0, Nat.zero_le m, hfull⟩
      rw [hback]
      refine .inr ⟨hup i, ?_⟩
      match i with
      | 0 => exact .inl rfl
      | 1 => exact .inr ⟨0, Nat.one_pos, hup 0, rfl⟩
      | i + 2 =>
        rcases getD_backRows hpos back i with ⟨-, h⟩ | ⟨-, h | ⟨m, hm, -, h⟩⟩
        · exact .inr ⟨i + 1, by omega, hup _, h⟩
        · exact .inl h
        · exact .inr ⟨m + 1, by omega, hup _, h⟩
    · have hback : backRows cols l = [l] := by
        unfold backRows rowsOf
        rw [if_neg hfull]
        rfl
      rw [hback]
      cases i with
      | zero =>
        refine .inl ⟨?_, rfl⟩
        rintro ⟨j, hj, hlen⟩
        rw [Nat.le_zero.1 hj] at hlen
        exact hfull hlen
      | succ i =>
        rcases getD_backRows hpos back i with ⟨hno, h⟩ | ⟨hup, h⟩
        · refine .inl ⟨?_, h⟩
          rintro ⟨j, hj, hlen⟩
          cases j with
          | zero => exact hfull hlen
          | succ j => exact hno ⟨j, by omega, hlen⟩
        · refine .inr ⟨hup.cons, ?_⟩
          rcases h with h | ⟨m, hm, hfm, h⟩
          · exact .inl h
          · exact .inr ⟨m + 1, by omega, hfm.cons, h⟩

def SameRow (cols : Nat) (l l' : List UInt8) : Prop := ∀ c < cols, l.getD c 32 = l'.getD c 32

theorem sameRow_nil_iff {cols : Nat} (l : List UInt8) (h : l.length ≤ cols) :
    SameRow cols l [] ↔ ∀ b ∈ l, b = 32 := by
  constructor
  · intro hsame b hb
    obtain ⟨c, hc, rfl⟩ := List.getElem_of_mem hb
    have := hsame c (by omega)
    rwa [List.getD_eq_getElem _ _ hc] at this
  · intro hblank c _
    rcases Nat.lt_or_ge c l.length with hc | hc
    · rw [List.getD_eq_getElem _ _ hc]
      exact hblank _ (List.getElem_mem hc)
    · rw [List.getD_eq_default _ _ hc]
      rfl

/-- **The rows shown look like the lines shown exactly when every line with a line of full width at or after it is all
spaces.** -/
theorem sameRow_backRows_iff {cols : Nat} (hpos : 0 < cols) (back : List (List UInt8))
    (hfits : ∀ i, (back.getD i []).length ≤ cols) (k : Nat) :
    (∀ i < k, SameRow cols ((back.flatMap (backRows cols)).getD i []) (back.getD i [])) ↔
      ∀ i < k, FullUpTo cols back i → ∀ b ∈ back.getD i [], b = 32 := by
  constructor
  · intro hsame i
    induction i using Nat.strongRecOn with
    | ind i ih =>
      intro hi hup
      rw [← sameRow_nil_iff _ (hfits i)]
      have hi' := hsame i hi
      rcases getD_backRows hpos back i with ⟨hno, -⟩ | ⟨-, h | ⟨m, hm, hfm, h⟩⟩
      · exact absurd hup hno
      · rw [h] at hi'
        exact fun c hc => (hi' c hc).symm
      · rw [h] at hi'
        have hblank := (sameRow_nil_iff _ (hfits m)).2 (ih m hm (by omega) hfm)
        exact fun c hc => (hi' c hc).symm.trans (hblank c hc)
  · intro hblank i hi
    rcases getD_backRows hpos back i with ⟨-, h⟩ | ⟨hup, h | ⟨m, hm, hfm, h⟩⟩
    · rw [h]
      exact fun _ _ => rfl
    · have := (sameRow_nil_iff _ (hfits i)).2 (hblank i hi hup)
      rw [h]
      exact fun c hc => (this c hc).symm
    · have h1 := (sameRow_nil_iff _ (hfits i)).2 (hblank i hi hup)
      have h2 := (sameRow_nil_iff _ (hfits m)).2 (hblank m (by omega) hfm)
      rw [h]
      exact fun c hc => (h2 c hc).trans (h1 c hc).symm

/-! ## Both counts together -/

theorem length_rowsOf (cols : Nat) (l : List UInt8) :
    (rowsOf cols l).length = if l.length = cols then 2 else 1 := by
  unfold rowsOf
  split <;> rfl

theorem length_flatMap_rowsOf (cols : Nat) : ∀ lines : List (List UInt8),
    lines.length ≤ (lines.flatMap (rowsOf cols)).length ∧
      ((lines.flatMap (rowsOf cols)).length = lines.length → ∀ l ∈ lines, l.length ≠ cols)
  | [] => ⟨Nat.le_refl 0, fun _ l hl => by cases hl⟩
  | l :: lines => by
    obtain ⟨ih1, ih2⟩ := length_flatMap_rowsOf cols lines
    rw [List.flatMap_cons, List.length_append, List.length_cons, length_rowsOf]
    by_cases hfull : l.length = cols
    · rw [if_pos hfull]
      exact ⟨by omega, fun h => by omega⟩
    · rw [if_neg hfull]
      refine ⟨by omega, fun h x hx => ?_⟩
      rcases List.mem_cons.1 hx with rfl | hx
      · exact hfull
      · exact ih2 (by omega) x hx

theorem flatMap_rowsOf_of_none (cols : Nat) : ∀ lines : List (List UInt8), (∀ l ∈ lines, l.length ≠ cols) →
    lines.flatMap (rowsOf cols) = lines
  | [], _ => rfl
  | l :: lines, h => by
    have hl : rowsOf cols l = [l] := by
      unfold rowsOf
      rw [if_neg (h l List.mem_cons_self)]
    rw [List.flatMap_cons, hl, flatMap_rowsOf_of_none cols lines (fun x hx => h x (List.mem_cons_of_mem l hx))]
    rfl

theorem getD_lastLines (lines : List (List UInt8)) (hlen : g.rows - 1 ≤ lines.length) (i : Nat) (hi : i < g.rows - 1) :
    (lastLines g lines).getD (g.rows - 1 - 1 - i) [] = lines.reverse.getD i [] := by
  unfold lastLines
  rw [List.getD_reverse i (by omega)]
  simp only [List.getD_eq_getElem?_getD, List.getElem?_drop]
  congr 2
  omega

theorem length_getD_le (lines : List (List UInt8)) {n : Nat} (h : ∀ l ∈ lines, l.length ≤ n) (i : Nat) :
    (lines.getD i []).length ≤ n := by
  rcases Nat.lt_or_ge i lines.length with hi | hi
  · rw [List.getD_eq_getElem _ _ hi]
    exact h _ (List.getElem_mem hi)
  · rw [List.getD_eq_default _ _ hi]
    exact Nat.zero_le n

theorem length_lastLines (lines : List (List UInt8)) :
    (lastLines g lines).length = min lines.length (g.rows - 1) := by
  unfold lastLines
  rw [List.length_drop]
  omega

/-- With `rows - 1` lines or more, the rows shown are compared from the end. -/
theorem lastLines_same_iff (lines lines' : List (List UInt8)) (hlen : g.rows - 1 ≤ lines.length)
    (hlen' : g.rows - 1 ≤ lines'.length) :
    (∀ (r : Fin g.rows) (c : Fin g.cols),
      ((lastLines g lines).getD r.val []).getD c.val 32 = ((lastLines g lines').getD r.val []).getD c.val 32) ↔
      ∀ i < g.rows - 1, SameRow g.cols (lines.reverse.getD i []) (lines'.reverse.getD i []) := by
  constructor
  · intro h i hi c hc
    rw [← getD_lastLines lines hlen i hi, ← getD_lastLines lines' hlen' i hi]
    exact h ⟨g.rows - 1 - 1 - i, by omega⟩ ⟨c, hc⟩
  · intro h r c
    have hr := r.isLt
    rcases Nat.lt_or_ge r.val (g.rows - 1) with hlt | hge
    · have hi : g.rows - 1 - 1 - r.val < g.rows - 1 := by omega
      have hback : r.val = g.rows - 1 - 1 - (g.rows - 1 - 1 - r.val) := by omega
      rw [hback, getD_lastLines lines hlen _ hi, getD_lastLines lines' hlen' _ hi]
      exact h _ hi c.val c.isLt
    · rw [List.getD_eq_default (lastLines g lines) [] (by rw [length_lastLines]; omega),
        List.getD_eq_default (lastLines g lines') [] (by rw [length_lastLines]; omega)]

/-- **The rows sent show one row a line exactly when `OneRowALine` says so.** -/
theorem oneRowEach_rowsOf_iff {s : Screen g} (lines : List (List UInt8)) (hfits : ∀ l ∈ lines, l.length ≤ g.cols)
    (h : OneRowEach s (lines.flatMap (rowsOf g.cols))) : OneRowEach s lines ↔ OneRowALine g lines := by
  obtain ⟨hchars, hrow, hcol⟩ := h
  obtain ⟨hle, hnone⟩ := length_flatMap_rowsOf g.cols lines
  unfold OneRowALine
  by_cases hfew : lines.length < g.rows - 1
  · rw [if_pos hfew]
    constructor
    · rintro ⟨-, hrow', -⟩
      rw [hrow, length_lastLines, length_lastLines] at hrow'
      exact hnone (by omega)
    · intro hno
      rw [flatMap_rowsOf_of_none g.cols lines hno] at hchars hrow
      exact ⟨hchars, hrow, hcol⟩
  · rw [if_neg hfew]
    have hrev : (lines.flatMap (rowsOf g.cols)).reverse = lines.reverse.flatMap (backRows g.cols) := by
      rw [List.reverse_flatMap]
      rfl
    have hmany : g.rows - 1 ≤ lines.length := Nat.not_lt.1 hfew
    have hsame := lastLines_same_iff (lines.flatMap (rowsOf g.cols)) lines (Nat.le_trans hmany hle) hmany
    rw [hrev, sameRow_backRows_iff g.cols_pos lines.reverse
      (length_getD_le lines.reverse (fun l hl => hfits l (List.mem_reverse.1 hl)))] at hsame
    refine Iff.trans ?_ hsame
    constructor
    · rintro ⟨hchars', -, -⟩ r c
      exact (hchars r c).symm.trans (hchars' r c)
    · intro hrows
      refine ⟨fun r c => (hchars r c).trans (hrows r c), ?_, hcol⟩
      rw [hrow, length_lastLines, length_lastLines]
      omega

/-- **Each line that fits takes one row, the cursor after the last, exactly when no blank row behind a line of full
width shows.** -/
theorem lines_oneRow_iff (g : Geometry) (lines : List (Line g)) :
    OneRowEach (terminalProcessBytes (terminalInit g) (sendLines lines)).screen (lines.map Line.text) ↔
      OneRowALine g (lines.map Line.text) := by
  have hpage := page_sendLines lines (terminalInit g) [] rfl (page_init g)
  rw [List.nil_append] at hpage
  refine oneRowEach_rowsOf_iff _ (fun l hl => ?_) hpage.oneRowEach
  obtain ⟨x, -, rfl⟩ := List.mem_map.1 hl
  exact x.fits

/-- `abc` on three columns leaves a blank row behind it. -/
theorem lines_blankRow :
    ¬ ∀ (g : Geometry) (lines : List (Line g)),
      OneRowEach (terminalProcessBytes (terminalInit g) (sendLines lines)).screen (lines.map Line.text) := by
  intro h
  have hrow := (h ⟨4, 3, by decide, by decide, by decide⟩ [⟨[97, 98, 99], by decide, by simp⟩]).2.1
  revert hrow
  decide

end Ptywrap
