import Ptywrap.Reader
/-!
# Bounds — what the threads touch (`reader.c`, `api.c`)

A call reads the cells of `Call.reads` and writes the elements of `Call.fills`, in the memory it was given; no step of
its section looks at another cell or changes another element (`within_steps`).  Past the checks they are in range for the
calls of `Call.Sound` and for no others (`inRange_iff_sound`).  So while what arrives leaves the cursor on the screen, no
thread reaches outside the buffer or the memory of its call, however the threads interleave (`touched_run`).
-/
namespace Ptywrap

open CInt (wrap32)

variable {g : Geometry}

/-- The buffer indices that a call's section reads. -/
def Call.reads (g : Geometry) : Call → List Int
  | getCell row col _ => [cellIndex g.cols row col]
  | getRow row _ => (List.range g.cols).map fun i : Nat => wrap32 (row * g.cols) + (i : Int)
  | getCursor _ _ => []
  | getRowText row _ buflen => (List.range (charsToCopy g buflen)).map fun i : Nat => wrap32 (row * g.cols) + (i : Int)
  | screenshotMarkdown startRow endRow => screenshotReads g (screenshotRange g startRow (apiEndRow g endRow))

/-- The elements of the caller's memory that the section writes; a screenshot has none of the caller's. -/
def Call.fills (g : Geometry) : Call → List Nat
  | getCell _ _ _ => [0]
  | getRow _ _ => List.range g.cols
  | getCursor _ _ => [0, 1]
  | getRowText _ _ buflen => List.range (charsToCopy g buflen + 1)
  | screenshotMarkdown _ _ => []

/-- How many elements that memory has. -/
def Call.room : Call → Nat
  | getCell _ _ _ => 1
  | getRow _ cells => cells.length
  | getCursor _ _ => 2
  | getRowText _ buf _ => buf.length
  | screenshotMarkdown _ _ => 0

/-- The step looks at these cells and the pen only, and changes these elements only; text it may append. -/
structure Within (reads : List Int) (fills : List Nat) (f : Step g) : Prop where
  sees : ∀ s t : Session g, s.screen.toPen = t.screen.toPen → (∀ i ∈ reads, s.screen.read i = t.screen.read i) →
    ∀ out, (f s out).2 = (f t out).2
  cells : ∀ s out j, j ∉ fills → (f s out).2.cells[j]? = out.cells[j]?
  ints : ∀ s out j, j ∉ fills → (f s out).2.ints[j]? = out.ints[j]?
  text : ∀ s out j, j ∉ fills → j < out.text.length → (f s out).2.text[j]? = out.text[j]?

/-! ## One step -/

section Steps

variable {reads : List Int} {fills : List Nat}

theorem getElem?_set_of_not_mem {α : Type} {k : Nat} (hk : k ∈ fills) (xs : List α) (a : α) {j : Nat} (hj : j ∉ fills) :
    (xs.set k a)[j]? = xs[j]? := by
  apply List.getElem?_set_ne
  rintro rfl
  exact hj hk

theorem within_setCell {i : Int} {k : Nat} (hi : i ∈ reads) (hk : k ∈ fills) :
    Within (g := g) reads fills (readOnly fun s out => { out with cells := out.cells.set k (s.read i) }) where
  sees := fun s t _ hread out => by
    dsimp only [readOnly]
    rw [hread i hi]
  cells := fun _ out _ hj => getElem?_set_of_not_mem hk out.cells _ hj
  ints := fun _ _ _ _ => rfl
  text := fun _ _ _ _ _ => rfl

theorem within_setInt {f : Pen → Int} {k : Nat} (hk : k ∈ fills) :
    Within (g := g) reads fills (readOnly fun s out => { out with ints := out.ints.set k (f s.toPen) }) where
  sees := fun s t hpen _ out => by
    dsimp only [readOnly]
    rw [hpen]
  cells := fun _ _ _ _ => rfl
  ints := fun _ out _ hj => getElem?_set_of_not_mem hk out.ints _ hj
  text := fun _ _ _ _ _ => rfl

theorem within_setChar {i : Int} {k : Nat} (hi : i ∈ reads) (hk : k ∈ fills) :
    Within (g := g) reads fills (readOnly fun s out => { out with text := out.text.set k (s.read i).ch }) where
  sees := fun s t _ hread out => by
    dsimp only [readOnly]
    rw [hread i hi]
  cells := fun _ _ _ _ => rfl
  ints := fun _ _ _ _ => rfl
  text := fun _ out _ hj _ => getElem?_set_of_not_mem hk out.text _ hj

theorem within_setNul {k : Nat} (hk : k ∈ fills) :
    Within (g := g) reads fills (readOnly fun _ out => { out with text := out.text.set k 0 }) where
  sees := fun _ _ _ _ _ => rfl
  cells := fun _ _ _ _ => rfl
  ints := fun _ _ _ _ => rfl
  text := fun _ out _ hj _ => getElem?_set_of_not_mem hk out.text _ hj

theorem within_append {f : Screen g → Output → Output}
    (hsees : ∀ s t : Screen g, s.toPen = t.toPen → (∀ i ∈ reads, s.read i = t.read i) → ∀ out, f s out = f t out)
    (hcells : ∀ s out, (f s out).cells = out.cells) (hints : ∀ s out, (f s out).ints = out.ints)
    (htext : ∀ s out, out.text <+: (f s out).text) : Within reads fills (readOnly f) where
  sees := fun s t hpen hread out => hsees s.screen t.screen hpen hread out
  cells := fun s out j _ => congrArg (·[j]?) (hcells s.screen out)
  ints := fun s out j _ => congrArg (·[j]?) (hints s.screen out)
  text := fun s out j _ hlt => by
    obtain ⟨rest, hrest⟩ := htext s.screen out
    show (f s.screen out).text[j]? = _
    rw [← hrest, List.getElem?_append_left hlt]

theorem within_lineSteps {row : Int} (hrow : ∀ i ∈ rowReads g row, i ∈ reads) {f : Step g} (hf : f ∈ lineSteps g row) :
    Within reads fills f := by
  unfold lineSteps at hf
  rw [List.mem_append, List.mem_cons, List.mem_map, List.mem_singleton] at hf
  rcases hf with (rfl | ⟨i, hi, rfl⟩) | rfl
  · exact within_append (fun _ _ _ _ _ => rfl) (fun _ _ => rfl) (fun _ _ => rfl) fun _ _ => List.prefix_refl _
  · refine within_append (fun s t _ hread out => ?_) (fun _ _ => rfl) (fun _ _ => rfl) fun _ _ => List.prefix_append _ _
    rw [hread i (hrow i hi)]
  · exact within_append (fun _ _ _ _ _ => rfl) (fun _ _ => rfl) (fun _ _ => rfl) fun _ _ => List.prefix_append _ _

theorem within_documentSteps {rng : RowRange} (hreads : ∀ i ∈ screenshotReads g rng, i ∈ reads) {f : Step g}
    (hf : f ∈ documentSteps g rng) : Within reads fills f := by
  unfold documentSteps at hf
  rw [List.mem_cons, List.mem_append, List.mem_flatMap, List.mem_cons, List.mem_singleton] at hf
  rcases hf with rfl | ⟨row, hrow, hf⟩ | rfl | rfl
  · exact within_append (fun _ _ _ _ _ => rfl) (fun _ _ => rfl) (fun _ _ => rfl) fun _ _ => List.prefix_append _ _
  · exact within_lineSteps (fun i hi => hreads i (List.mem_flatMap.2 ⟨row, hrow, hi⟩)) hf
  · exact within_append (fun _ _ _ _ _ => rfl) (fun _ _ => rfl) (fun _ _ => rfl) fun _ _ => List.prefix_append _ _
  · refine within_append (fun s t hpen _ out => ?_) (fun _ _ => rfl) (fun _ _ => rfl) fun _ _ => List.prefix_append _ _
    unfold footer
    rw [hpen]

end Steps

/-- **A section keeps to the cells and the elements of its call.** -/
theorem within_steps (c : Call) {f : Step g} (hf : f ∈ c.steps g) : Within (c.reads g) (c.fills g) f := by
  cases c with
  | getCell row col cell =>
    obtain rfl := List.mem_singleton.1 hf
    exact within_setCell List.mem_cons_self List.mem_cons_self
  | getRow row cells =>
    obtain ⟨i, hi, rfl⟩ := List.mem_map.1 hf
    exact within_setCell (List.mem_map_of_mem hi) hi
  | getCursor row col =>
    rcases List.mem_cons.1 hf with rfl | hf
    · exact within_setInt (f := Pen.cursorRow) List.mem_cons_self
    · obtain rfl := List.mem_singleton.1 hf
      exact within_setInt (f := Pen.cursorCol) (List.mem_cons_of_mem 0 List.mem_cons_self)
  | getRowText row buf buflen =>
    rcases List.mem_append.1 hf with hf | hf
    · obtain ⟨i, hi, rfl⟩ := List.mem_map.1 hf
      exact within_setChar (List.mem_map_of_mem hi) (List.mem_range.2 (Nat.lt_succ_of_lt (List.mem_range.1 hi)))
    · obtain rfl := List.mem_singleton.1 hf
      exact within_setNul (List.mem_range.2 (Nat.lt_succ_self _))
  | screenshotMarkdown startRow endRow => exact within_documentSteps (fun _ hi => hi) hf

/-! ## In range -/

theorem rowStart_inRange {row : Int} (hrow : 0 ≤ row ∧ row < g.rows) {n i : Nat} (hn : n ≤ g.cols) (hi : i < n) :
    0 ≤ wrap32 (row * g.cols) + (i : Int) ∧ wrap32 (row * g.cols) + (i : Int) < ((g.rows * g.cols : Nat) : Int) := by
  obtain ⟨r, rfl⟩ := CInt.exists_fin hrow.1 hrow.2
  rw [wrap32_rowStart, ← Int.natCast_add]
  exact ⟨Int.natCast_nonneg _, Int.ofNat_lt.2 (RowMajor.flat_lt r.isLt (Nat.lt_of_lt_of_le hi hn))⟩

theorem charsToCopy_le (g : Geometry) (buflen : Nat) : charsToCopy g buflen ≤ g.cols := by
  unfold charsToCopy
  split <;> omega

/-- What a call may read and write. -/
structure Call.InRange (g : Geometry) (c : Call) : Prop where
  reads : ∀ i ∈ c.reads g, 0 ≤ i ∧ i < ((g.rows * g.cols : Nat) : Int)
  fills : ∀ j ∈ c.fills g, j < c.room

theorem reads_inRange {c : Call} (hpasses : c.passes g = true) (hsound : c.Sound g) (i : Int) (hi : i ∈ c.reads g) :
    0 ≤ i ∧ i < ((g.rows * g.cols : Nat) : Int) := by
  cases c with
  | getCell row col cell =>
    have hin := of_decide_eq_true hpasses
    obtain rfl := List.mem_singleton.1 hi
    exact cellIndex_inRange (by omega) (by omega)
  | getRow row cells =>
    have hin := of_decide_eq_true hpasses
    obtain ⟨k, hk, rfl⟩ := List.mem_map.1 hi
    exact rowStart_inRange (by omega) (Nat.le_refl _) (List.mem_range.1 hk)
  | getCursor row col => cases hi
  | getRowText row buf buflen =>
    have hin := of_decide_eq_true hpasses
    obtain ⟨k, hk, rfl⟩ := List.mem_map.1 hi
    exact rowStart_inRange (by omega) (charsToCopy_le g buflen) (List.mem_range.1 hk)
  | screenshotMarkdown startRow endRow =>
    obtain ⟨h0, -, hlast⟩ := screenshotRange_cases g startRow (apiEndRow g endRow)
    exact screenshotReads_inRange h0 (hlast.2 hsound) i hi

theorem fills_inRange {c : Call} (hsound : c.Sound g) (j : Nat) (hj : j ∈ c.fills g) : j < c.room := by
  cases c with
  | getCell row col cell => exact Nat.lt_one_iff.2 (List.mem_singleton.1 hj)
  | getRow row cells => exact Nat.lt_of_lt_of_le (List.mem_range.1 hj) hsound
  | getCursor row col =>
    rw [Call.fills, List.mem_cons, List.mem_singleton] at hj
    rw [Call.room]
    omega
  | getRowText row buf buflen => exact Nat.lt_of_lt_of_le (List.mem_range.1 hj) hsound
  | screenshotMarkdown startRow endRow => cases hj

/-- A screenshot that starts below the last row reads the row behind it. -/
theorem outside_of_screenshot {startRow endRow : Int} (h : (g.rows : Int) ≤ startRow) :
    ((g.rows * g.cols : Nat) : Int) ∈ screenshotReads g (screenshotRange g startRow (apiEndRow g endRow)) := by
  have hrows := g.rows_pos
  have hindex : cellIndex g.cols g.rows 0 = ((g.rows * g.cols : Nat) : Int) := by
    have hfits := g.fits
    unfold cellIndex
    rw [CInt.wrap32_add_left, Int.add_zero, CInt.wrap32_of_fits, Int.natCast_mul]
    rw [CInt.fits_iff, ← Int.natCast_mul]
    unfold CInt.intMax at hfits
    omega
  unfold screenshotReads
  refine List.mem_flatMap.2 ⟨(g.rows : Int), ?_, List.mem_map.2 ⟨0, ?_, hindex⟩⟩
  · have hfirst : (screenshotRange g startRow (apiEndRow g endRow)).first ≤ (g.rows : Int) ∧
        (screenshotRange g startRow (apiEndRow g endRow)).last = startRow := by
      have hend : (if apiEndRow g endRow < 0 ∨ (g.rows : Int) ≤ apiEndRow g endRow then (g.rows : Int) - 1
          else apiEndRow g endRow) < g.rows := by
        split <;> omega
      have hstart : ¬ startRow < 0 := by omega
      unfold screenshotRange
      dsimp only
      rw [if_neg hstart, if_pos (by omega)]
      exact ⟨Int.le_of_lt hend, rfl⟩
    rw [RowMajor.mem_intRange, hfirst.2]
    exact ⟨hfirst.1, by omega⟩
  · rw [RowMajor.mem_intRange]
    have hcols := g.cols_pos
    omega

/-- **Past its checks a call stays in range exactly if the caller answers for it.** -/
theorem inRange_iff_sound {c : Call} (hpasses : c.passes g = true) : c.InRange g ↔ c.Sound g := by
  refine ⟨fun h => ?_, fun hsound => ⟨reads_inRange hpasses hsound, fills_inRange hsound⟩⟩
  have hcols := g.cols_pos
  cases c with
  | getCell row col cell => trivial
  | getRow row cells =>
    have hlast := h.fills (g.cols - 1) (List.mem_range.2 (by omega))
    rw [Call.room] at hlast
    show g.cols ≤ cells.length
    omega
  | getCursor row col => trivial
  | getRowText row buf buflen => exact h.fills _ (List.mem_range.2 (Nat.lt_succ_self _))
  | screenshotMarkdown startRow endRow =>
    by_contra hnot
    have hout := h.reads _ (outside_of_screenshot (Int.not_lt.1 hnot))
    omega

/-! ## Every run -/

variable {nonblock : Bool} {s : Threads g} {es : List ThreadEvent}

/-- **No thread reaches outside**: while what arrives leaves the cursor on the screen, the next byte of a chunk touches
cells of the buffer only, and whoever holds the lock for a call has only steps left that read cells of the buffer and
write elements of the memory the call was given.  Those are the calls that stay in range at all. -/
theorem touched_run (h : (threads g nonblock).Run (Threads.init g) es s) (hin : Contained g s.arrived) :
    (∀ b, s.monitor.shared.ByteInside b) ∧
      (∀ held c, s.monitor.held = some held → held.job = .call c →
        (∀ f ∈ held.rest, Within (c.reads g) (c.fills g) f) ∧ c.InRange g) ∧
      ∀ c : Call, c.passes g = true → (c.InRange g ↔ c.Sound g) := by
  have hok := ok_run h
  refine ⟨byteInside_of_inGrid (inGrid_shared hok hin), fun held c hheld hjob => ?_, fun c => inRange_iff_sound⟩
  obtain ⟨-, taken, hsteps, -⟩ := hok.serial.taken held hheld
  have hmay := hok.requested.held held hheld
  rw [hjob] at hmay hsteps
  obtain ⟨hpasses, hsound⟩ : c.passes g = true ∧ c.Sound g := by
    cases howner : held.owner with
    | reader => rw [howner] at hmay; cases hmay
    | caller i => rw [howner] at hmay; exact hmay
  refine ⟨fun f hf => within_steps c ?_, (inRange_iff_sound hpasses).2 hsound⟩
  rw [show c.steps g = taken ++ held.rest from hsteps]
  exact List.mem_append_right _ hf

/-- `AB` has arrived, the reader has processed the `A`, and a caller holds the lock for the row. -/
def rowRead : List ThreadEvent :=
  [.work .reader, .release .reader, .call 0 (.getRow 0 [default, default]), .acquire (.caller 0), .work (.caller 0)]

theorem run_rowRead : (threads twoCells true).Run (Threads.init twoCells) (chunkRead ++ rowRead)
    ((chunkRead ++ rowRead).foldl Threads.next (Threads.init twoCells)) :=
  run_chunkRead.append <|
    .cons (enabled_of_live rfl (canTake_of_onLock rfl ⟨_, rfl, rfl, nofun⟩ trivial) fun _ => inside_chunkRead) <|
    .cons (enabled_of_live rfl (canTake_of_onLock rfl ⟨_, rfl, rfl, rfl⟩ trivial) nofun) <|
    .cons (enabled_of_live rfl (canTake_of_onLock rfl (Monitor.not_inside_of_free rfl rfl) ⟨rfl, Nat.le_refl 2⟩) nofun) <|
    .cons (enabled_of_live rfl (canTake_of_onLock rfl ⟨rfl, nofun⟩ trivial) nofun) <|
    .cons (enabled_of_live rfl (canTake_of_onLock rfl ⟨_, rfl, rfl, nofun⟩ trivial) nofun) <| .nil _

theorem touched_run_rowRead :
    let s := (chunkRead ++ rowRead).foldl Threads.next (Threads.init twoCells)
    (∀ b, s.monitor.shared.ByteInside b) ∧
      (∀ held c, s.monitor.held = some held → held.job = .call c →
        (∀ f ∈ held.rest, Within (c.reads twoCells) (c.fills twoCells) f) ∧ c.InRange twoCells) ∧
      ∀ c : Call, c.passes twoCells = true → (c.InRange twoCells ↔ c.Sound twoCells) :=
  touched_run run_rowRead contained_two

end Ptywrap
