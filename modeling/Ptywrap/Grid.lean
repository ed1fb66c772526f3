import Ptywrap.Api
import Ptywrap.Handle
/-!
# Grid — the size announced and the cells allocated

`terminal_init` takes the product of rows and columns in `int` before it asks for that many cells.  The buffer fits the
size exactly when the product is an `int` (`gridMatches_iff`): that is when the size is a `Geometry`.
-/
namespace Ptywrap

open CInt (wrap32 intMax Fits)

/-- `length` cells are one for each position of the screen, and every position has its own index: as
`ptywrap_get_cell` and `terminal_put_char` compute it, and as the start of a row and a column add up. -/
def GridMatches (sess : Handle) (length : Nat) : Prop :=
  (length : Int) = sess.rows * sess.cols ∧
    ∀ row col : Int, 0 ≤ row → row < sess.rows → 0 ≤ col → col < sess.cols →
      cellIndex sess.cols row col = row * sess.cols + col ∧
        wrap32 (row * sess.cols) + col = row * sess.cols + col ∧ row * sess.cols + col < length

theorem announcedRows_range {rows : Int} (h : Fits rows) : 0 < announcedRows rows ∧ announcedRows rows ≤ intMax := by
  rw [CInt.fits_iff] at h
  unfold announcedRows intMax
  split <;> omega

theorem announcedCols_range {cols : Int} (h : Fits cols) : 0 < announcedCols cols ∧ announcedCols cols ≤ intMax := by
  rw [CInt.fits_iff] at h
  unfold announcedCols intMax
  split <;> omega

/-- **The grid of a geometry matches.** -/
theorem gridMatches_geometry (g : Geometry) (sess : Handle) (hrows : sess.rows = (g.rows : Int))
    (hcols : sess.cols = (g.cols : Int)) : GridMatches sess (g.rows * g.cols) := by
  unfold GridMatches
  rw [hrows, hcols]
  refine ⟨Int.natCast_mul _ _, fun row col h1 h2 h3 h4 => ?_⟩
  obtain ⟨r, rfl⟩ := CInt.exists_fin h1 h2
  obtain ⟨c, rfl⟩ := CInt.exists_fin h3 h4
  have hlt := RowMajor.flat_lt r.isLt c.isLt
  rw [cellIndex_of_inGrid g r c rfl rfl, wrap32_rowStart, ← Int.natCast_mul, ← Int.natCast_add]
  exact ⟨rfl, rfl, Int.ofNat_lt.2 hlt⟩

/-- **An announced size matches the cells that are allocated for it exactly when it is a geometry.** -/
theorem gridMatches_bufferSize_iff (sess : Handle) (hrows : 0 < sess.rows ∧ sess.rows ≤ intMax)
    (hcols : 0 < sess.cols ∧ sess.cols ≤ intMax) :
    GridMatches sess (bufferSize sess.rows sess.cols) ↔ sess.rows * sess.cols ≤ intMax := by
  obtain ⟨rows, hr⟩ := Int.eq_ofNat_of_zero_le (Int.le_of_lt hrows.1)
  obtain ⟨cols, hc⟩ := Int.eq_ofNat_of_zero_le (Int.le_of_lt hcols.1)
  rw [hr] at hrows
  rw [hc] at hcols
  have hsize := bufferSize_eq_iff hrows.2 hcols.2
  constructor
  · rintro ⟨hlen, -⟩
    rw [hr, hc, ← Int.natCast_mul] at hlen ⊢
    exact hsize.1 (Int.ofNat_inj.1 hlen)
  · intro hfits
    have hfits' := hfits
    rw [hr, hc, ← Int.natCast_mul] at hfits'
    have hmatch := gridMatches_geometry ⟨rows, cols, by omega, by omega, hfits'⟩ sess hr hc
    rw [hr, hc, hsize.2 hfits']
    exact hmatch

/-- **Whenever `terminal_init` succeeds the buffer matches the announced size, exactly if no cells are given or the size
has as many cells as an `int` can count.** -/
theorem gridMatches_iff (os : Outcomes) (w : World) (h : Handle) (rows cols : Int) (hrows : Fits rows)
    (hcols : Fits cols) :
    let announced := { h with rows := announcedRows rows, cols := announcedCols cols }
    (∀ sess w', announced.terminalInit os w = (ptywrapOk, sess, w') →
        ∃ b, sess.buffer = some b ∧ GridMatches sess b.length) ↔
      os.callocBuffer = false ∨ announcedRows rows * announcedCols cols ≤ intMax := by
  intro announced
  have hgrid := gridMatches_bufferSize_iff announced (announcedRows_range hrows) (announcedCols_range hcols)
  unfold Handle.terminalInit
  cases hcalloc : os.callocBuffer with
  | false =>
    rw [if_pos rfl]
    refine iff_of_true (fun sess w' heq => ?_) (.inl rfl)
    exact absurd (Prod.mk.inj heq).1 (by decide)
  | true =>
    rw [if_neg (by decide)]
    simp only [Bool.true_eq_false, false_or]
    constructor
    · intro hok
      obtain ⟨b, hb, hmatch⟩ := hok _ _ rfl
      obtain rfl := Option.some.inj hb
      exact hgrid.1 hmatch
    · rintro hfits sess w' heq
      obtain ⟨-, heq⟩ := Prod.mk.inj heq
      obtain ⟨rfl, -⟩ := Prod.mk.inj heq
      exact ⟨_, rfl, hgrid.2 hfits⟩

def emptyHandle : Handle := ⟨0, -1, none, -1, none, 0, 0, none, 0, false⟩

theorem gridMatches_iff_default :
    let w : World := ⟨0, 0, fun _ => .absent⟩
    let announced := { emptyHandle with rows := announcedRows 0, cols := announcedCols 80 }
    (∀ sess w', announced.terminalInit (allSucceed 7) w = (ptywrapOk, sess, w') →
        ∃ b, sess.buffer = some b ∧ GridMatches sess b.length) ↔
      (allSucceed 7).callocBuffer = false ∨ announcedRows 0 * announcedCols 80 ≤ intMax :=
  gridMatches_iff (allSucceed 7) ⟨0, 0, fun _ => .absent⟩ emptyHandle 0 80 (by decide) (by decide)

/-- 65536 rows of 65537 columns get 65536 cells. -/
theorem grid_not_matched :
    ¬ ∀ (os : Outcomes) (w : World) (h : Handle) (rows cols : Int), Fits rows → Fits cols →
      let announced := { h with rows := announcedRows rows, cols := announcedCols cols }
      ∀ sess w', announced.terminalInit os w = (ptywrapOk, sess, w') →
        ∃ b, sess.buffer = some b ∧ GridMatches sess b.length := by
  intro h
  obtain ⟨b, hb, hlen, -⟩ := h (allSucceed 7) ⟨0, 0, fun _ => .absent⟩ emptyHandle 65536 65537 (by decide) (by decide) _ _
    rfl
  obtain rfl := Option.some.inj hb
  revert hlen
  decide

end Ptywrap
