import Mathlib.Algebra.Order.BigOperators.Group.List
import Ptywrap.Builder
/-!
# Growth — the memory of a screenshot (`screenshot.c`)

`screenshot_to_markdown` starts with 4096 bytes and doubles.  Its document fixes how often: as many times as the text
and its terminator need, and a screen of any size needs no more than 26 (`doublings_document_le`).  It returns a document
exactly when the `malloc` and these reallocations succeed (`shot_growth`).
-/
namespace Ptywrap

open Realloc (run peak textOf doublings)

variable {g : Geometry}

/-! ## The length of the document -/

theorem hintLength_le (cell : Cell) : hintLength cell ≤ 64 := by
  have hfg := length_ansiToColorName_le cell.fgColor
  have hbg := length_ansiToColorName_le cell.bgColor
  unfold hintLength
  split_ifs <;> omega

theorem charLength_le (ch : UInt8) : charLength ch ≤ 2 := by
  unfold charLength
  split <;> decide

/-- The hints of a run are no longer than those of a run of one cell. -/
theorem runLength_le : ∀ cells : List Cell, runLength cells ≤ 68 * cells.length
  | [] => Nat.le_refl 0
  | cell :: cells => by
    have hhint := hintLength_le cell
    have hchars : ((cell :: cells).map fun c => charLength c.ch).sum ≤ (cells.length + 1) * 2 := by
      refine (List.sum_le_card_nsmul _ 2 fun n hn => ?_).trans_eq (by rw [List.length_map]; rfl)
      obtain ⟨c, -, rfl⟩ := List.mem_map.1 hn
      exact charLength_le c.ch
    rw [runLength, List.length_cons]
    split <;> omega

theorem rowLength_le (cells : List Cell) : rowLength cells ≤ 68 * cells.length + 1 := by
  have hsum : ∀ runs : List (List Cell), (runs.map runLength).sum ≤ 68 * runs.flatten.length := by
    intro runs
    induction runs with
    | nil => exact Nat.le_refl 0
    | cons r runs ih =>
      have hrun := runLength_le r
      rw [List.map_cons, List.sum_cons, List.flatten_cons, List.length_append]
      omega
  have hruns := hsum (cells.splitBy Cell.sameStyle)
  rw [List.flatten_splitBy] at hruns
  exact Nat.succ_le_succ hruns

/-- **The body's length is bounded by the cells of the range.** -/
theorem bodyLength_le (s : Screen g) (rng : RowRange) :
    bodyLength s rng ≤ 8 + (rng.last + 1 - rng.first).toNat * (69 * g.cols) := by
  have hrow : ∀ row : Int, rowLength ((rowReads g row).map s.read) ≤ 69 * g.cols := by
    intro row
    have h := rowLength_le ((rowReads g row).map s.read)
    have hcols := g.cols_pos
    rw [List.length_map, length_rowReads] at h
    omega
  have hrows : ((RowMajor.intRange rng.first (rng.last + 1)).map fun row => rowLength ((rowReads g row).map s.read)).sum ≤
      (rng.last + 1 - rng.first).toNat * (69 * g.cols) := by
    refine (List.sum_le_card_nsmul _ (69 * g.cols) fun n hn => ?_).trans_eq ?_
    · obtain ⟨row, -, rfl⟩ := List.mem_map.1 hn
      exact hrow row
    · rw [List.length_map, RowMajor.intRange, List.length_map, List.length_range]
      rfl
  exact Nat.add_le_add_left hrows 8

theorem length_document (s : Screen g) (rng : RowRange) :
    (document s rng).length = bodyLength s rng + (footerText s rng).length := by
  rw [← textOf_calls, textOf_append, List.length_append, length_textOf_body, textOf_string]

/-- **A document is shorter than 2^38 bytes**, on a screen of any size. -/
theorem length_document_lt (s : Screen g) (a b : Fin g.rows) :
    (document s (screenshotRange g a.val b.val)).length + 1 < 2 ^ 38 := by
  have hbody := bodyLength_le s (screenshotRange g a.val b.val)
  have hfooter : (footerText s (screenshotRange g a.val b.val)).length ≤ 255 := List.length_take_le 255 _
  have hcells : (max a.val b.val + 1 - min a.val b.val) * (69 * g.cols) ≤ 69 * (g.rows * g.cols) := by
    have hcount : max a.val b.val + 1 - min a.val b.val ≤ g.rows := by omega
    calc (max a.val b.val + 1 - min a.val b.val) * (69 * g.cols)
        ≤ g.rows * (69 * g.cols) := Nat.mul_le_mul_right _ hcount
      _ = 69 * (g.rows * g.cols) := Nat.mul_left_comm _ _ _
  have hfits := g.fits
  unfold CInt.intMax at hfits
  rw [length_document]
  rw [screenshotRange_of_fin] at *
  have hcount : (((max a.val b.val : Nat) : Int) + 1 - ((min a.val b.val : Nat) : Int)).toNat =
      max a.val b.val + 1 - min a.val b.val := by omega
  dsimp only at hbody
  rw [hcount] at hbody
  generalize (max a.val b.val + 1 - min a.val b.val) * (69 * g.cols) = n at hbody hcells
  omega

theorem doublings_document_le (s : Screen g) (a b : Fin g.rows) :
    doublings 4096 ((document s (screenshotRange g a.val b.val)).length + 1) ≤ 26 := by
  by_contra h
  have hle := (Realloc.lt_doublings_iff (by decide) 26 _).1 (Nat.lt_of_not_le h)
  exact absurd (length_document_lt s a b) (Nat.not_lt_of_le hle)

/-! ## The peak of the calls -/

theorem le_length_footerText (s : Screen g) (rng : RowRange) : 4 ≤ (footerText s rng).length := by
  have hwords : (ascii "\n*Terminal size: ").length = 17 := by decide
  unfold footerText footer
  simp only [List.length_take, List.length_append, hwords]
  omega

/-- **The calls ask for the document and its terminator.** -/
theorem peak_calls (s : Screen g) (rng : RowRange) :
    peak 0 ((bodyAppends s rng).map Append.piece ++ [(Append.string (footerText s rng)).piece]) =
      (document s rng).length + 1 := by
  have hfooter := le_length_footerText s rng
  have hsmall : ∀ p ∈ (bodyAppends s rng).map Append.piece,
      p.need ≤ p.text.length + (Append.string (footerText s rng)).piece.need := by
    intro p hp
    obtain ⟨a, ha, rfl⟩ := List.mem_map.1 hp
    have hneed : a.piece.need ≤ a.piece.text.length + 5 := by
      rcases List.mem_append.1 ha with ha | ha
      · exact (small_rowsAppends s rng a ha).2
      · rw [List.mem_singleton.1 ha]
        exact (small_string (by decide)).2
    exact Nat.le_trans hneed (Nat.add_le_add_left (Nat.succ_le_succ hfooter) _)
  have htext := textOf_calls s rng
  rw [List.map_append, List.map_singleton] at htext
  rw [Realloc.peak_concat rfl _ 0 hsmall, htext, Nat.zero_add]

/-! ## The block -/

/-- The footer is the last call, so a document means that every allocation was granted. -/
theorem granted_of_output {ok : Nat → Bool} (s : Screen g) (startRow endRow : Int) {shot : Shot}
    (hshot : Alloc.screenshotToMarkdown ok s startRow endRow = .ok shot) (hout : shot.output ≠ none) :
    ok 0 = true ∧ ∀ i, 4096 * 2 ^ i ≤ (document s (screenshotRange g startRow endRow)).length + 1 →
      ok (i + 1) = true := by
  cases h : ok 0 with
  | false =>
    unfold Alloc.screenshotToMarkdown at hshot
    dsimp only at hshot
    rw [h, if_neg Bool.false_ne_true] at hshot
    cases hshot
    exact absurd rfl hout
  | true =>
    obtain ⟨b, hb, heq⟩ := screenshotToMarkdown_of_malloc h s startRow endRow
    have hpos : b.pos = 0 := hb.pos
    refine ⟨rfl, fun i hi => ?_⟩
    rw [heq] at hshot
    cases hrun : run (fun i => ok (i + 1)) 0 ((bodyAppends s (screenshotRange g startRow endRow)).map Append.piece ++
        [(Append.string (footerText s (screenshotRange g startRow endRow))).piece]) b with
    | error fault =>
      rw [hrun] at hshot
      cases hshot
    | ok b' =>
      rw [hrun] at hshot
      cases hshot
      refine Realloc.granted_of_run hb (within_bodyAppends s _) (footer_within s _) hrun hout i ?_
      rw [hpos, peak_calls]
      exact hi

theorem need_of_calls (s : Screen g) (rng : RowRange) :
    ∀ p ∈ (bodyAppends s rng).map Append.piece ++ [(Append.string (footerText s rng)).piece], p.text.length < p.need := by
  intro p hp
  rcases List.mem_append.1 hp with hp | hp
  · exact (within_bodyAppends s rng p hp).1
  · rw [List.mem_singleton.1 hp]
    exact (footer_within s rng).1

/-- **With its allocations granted** the document stands in a block doubled as often as it needs. -/
theorem shot_of_granted {ok : Nat → Bool} (h : ok 0 = true) (s : Screen g) (startRow endRow : Int)
    (hok : ∀ i, 4096 * 2 ^ i ≤ (document s (screenshotRange g startRow endRow)).length + 1 → ok (i + 1) = true) :
    ∃ rest, Alloc.screenshotToMarkdown ok s startRow endRow =
        .ok ⟨some ((document s (screenshotRange g startRow endRow) ++ [0]).map some ++ rest),
          doublings 4096 ((document s (screenshotRange g startRow endRow)).length + 1) + 1, false⟩ ∧
      (document s (screenshotRange g startRow endRow)).length + 1 + rest.length =
        4096 * 2 ^ doublings 4096 ((document s (screenshotRange g startRow endRow)).length + 1) := by
  have hpeak := peak_calls s (screenshotRange g startRow endRow)
  have htext := textOf_calls s (screenshotRange g startRow endRow)
  rw [List.map_append, List.map_singleton] at htext
  obtain ⟨b, rest, hrun, hcalls, hblock, hlen⟩ := @Realloc.run_fresh UInt8 (fun i => ok (i + 1)) 0 4095 _
    (need_of_calls s (screenshotRange g startRow endRow)) (by rw [hpeak]; exact hok)
  rw [hpeak] at hcalls
  rw [htext] at hblock hlen
  refine ⟨rest, ?_, ?_⟩
  · rw [screenshotToMarkdown_run h, hrun]
    show Except.ok (Shot.mk b.block (b.calls + 1) false) = _
    rw [hblock, hcalls]
  · rw [hlen, hcalls]

/-- **How much a screenshot allocates.**  Its first `doublings` reallocations and `malloc` decide whether there is a
document; it makes no other, and the block is the least of its kind that holds the text and its terminator, of `2 ^ 38`
bytes at most. -/
theorem shot_growth (ok : Nat → Bool) (s : Screen g) (a b : Fin g.rows) :
    let text := document s (screenshotRange g a.val b.val)
    let k := doublings 4096 (text.length + 1)
    k ≤ 26 ∧
      ((∃ shot, Alloc.screenshotToMarkdown ok s a.val b.val = .ok shot ∧ shot.output ≠ none) ↔ ∀ i ≤ k, ok i = true) ∧
      ((∀ i ≤ k, ok i = true) ↔ ∃ rest, text.length + 1 + rest.length = 4096 * 2 ^ k ∧
        Alloc.screenshotToMarkdown ok s a.val b.val = .ok ⟨some ((text ++ [0]).map some ++ rest), k + 1, false⟩) := by
  intro text k
  have hneeded : (∀ i ≤ k, ok i = true) ↔
      ok 0 = true ∧ ∀ i, 4096 * 2 ^ i ≤ text.length + 1 → ok (i + 1) = true := by
    constructor
    · intro h
      exact ⟨h 0 (Nat.zero_le k), fun i hi => h (i + 1) ((Realloc.lt_doublings_iff (by decide) i _).2 hi)⟩
    · rintro ⟨h0, h⟩ (_ | i) hi
      · exact h0
      · exact h i ((Realloc.lt_doublings_iff (by decide) i _).1 hi)
  have hgranted : ∀ {shot : Shot}, Alloc.screenshotToMarkdown ok s a.val b.val = .ok shot → shot.output ≠ none →
      ∀ i ≤ k, ok i = true := fun hshot hout => hneeded.2 (granted_of_output s a.val b.val hshot hout)
  have hfilled : (∀ i ≤ k, ok i = true) → ∃ rest, text.length + 1 + rest.length = 4096 * 2 ^ k ∧
      Alloc.screenshotToMarkdown ok s a.val b.val = .ok ⟨some ((text ++ [0]).map some ++ rest), k + 1, false⟩ := by
    intro h
    obtain ⟨h0, hok⟩ := hneeded.1 h
    obtain ⟨rest, hshot, hlen⟩ := shot_of_granted h0 s a.val b.val hok
    exact ⟨rest, hlen, hshot⟩
  refine ⟨doublings_document_le s a b, ⟨?_, fun h => ?_⟩, hfilled, ?_⟩
  · rintro ⟨shot, hshot, hout⟩
    exact hgranted hshot hout
  · obtain ⟨rest, -, hshot⟩ := hfilled h
    exact ⟨_, hshot, Option.some_ne_none _⟩
  · rintro ⟨rest, -, hshot⟩
    exact hgranted hshot (Option.some_ne_none _)

end Ptywrap
