import Ptywrap.RowMajor
/-!
# Patch — a move and an overwriting

What a program does to an array that it only writes to: the array moves up by `shift` places, and some places are
overwritten, at least all those the move leaves empty.  Patches compose (`apply_comp`); one forgets the array exactly when it
overwrites every place (`forgets_iff`).
-/

structure Patch (n : Nat) (α : Type) where
  shift : Nat
  written : Nat → Option α
  covers : ∀ i < n, n ≤ i + shift → (written i).isSome = true

namespace Patch

open RowMajor (storeAll scrollUp getElem_storeAll getElem_scrollUp)

variable {n : Nat} {α : Type}

def apply (p : Patch n α) (v : Vector α n) : Vector α n :=
  Vector.ofFn fun i : Fin n => (p.written i.val).getD (v.getD (i.val + p.shift) (v.get i))

theorem getElem_apply (p : Patch n α) (v : Vector α n) (i : Nat) (hi : i < n) :
    (p.apply v)[i] = (p.written i).getD (v.getD (i + p.shift) v[i]) := Vector.getElem_ofFn _

theorem lt_of_not_written {p : Patch n α} {i : Nat} (hi : i < n) (h : p.written i = none) : i + p.shift < n := by
  by_cases hlt : i + p.shift < n
  · exact hlt
  · have hsome := p.covers i hi (Nat.le_of_not_lt hlt)
    rw [h] at hsome
    cases hsome

/-- **A place holds what is written over it, or what was `shift` places further.** -/
theorem getElem?_apply (p : Patch n α) (v : Vector α n) {i : Nat} (hi : i < n) :
    (p.apply v)[i]? = (p.written i).or v[i + p.shift]? := by
  rw [Vector.getElem?_eq_getElem hi, getElem_apply]
  cases hwritten : p.written i with
  | some a => rfl
  | none =>
    have hlt := lt_of_not_written hi hwritten
    rw [Option.getD_none, Option.none_or, RowMajor.getD_of_lt _ _ _ hlt, Vector.getElem?_eq_getElem hlt]

/-! ## One after the other -/

/-- Nothing moves and nothing is overwritten. -/
def refl (n : Nat) (α : Type) : Patch n α where
  shift := 0
  written := fun _ => none
  covers := fun _ hi hle => absurd hle (Nat.not_le.2 hi)

@[simp] theorem apply_refl (v : Vector α n) : (refl n α).apply v = v := by
  apply Vector.ext
  intro i hi
  rw [getElem_apply]
  exact RowMajor.getD_of_lt v i _ hi

/-- First `p`, then `q`. -/
def comp (q p : Patch n α) : Patch n α where
  shift := q.shift + p.shift
  written := fun i => (q.written i).or (p.written (i + q.shift))
  covers := fun i hi hle => by
    rw [Option.isSome_or]
    cases hwritten : q.written i with
    | some a => rfl
    | none => exact p.covers _ (lt_of_not_written hi hwritten) (by omega)

/-- **Patches compose.** -/
theorem apply_comp (q p : Patch n α) (v : Vector α n) : (q.comp p).apply v = q.apply (p.apply v) := by
  apply Vector.ext
  intro i hi
  rw [getElem_apply, getElem_apply]
  show ((q.written i).or (p.written (i + q.shift))).getD (v.getD (i + (q.shift + p.shift)) v[i]) = _
  cases hwritten : q.written i with
  | some a => rfl
  | none =>
    have hlt := lt_of_not_written hi hwritten
    rw [Option.none_or, Option.getD_none, RowMajor.getD_of_lt _ _ _ hlt, getElem_apply, Nat.add_assoc]
    cases hwritten' : p.written (i + q.shift) with
    | some a => rfl
    | none =>
      have hlt' := lt_of_not_written hlt hwritten'
      rw [Nat.add_assoc] at hlt'
      rw [Option.getD_none, Option.getD_none, RowMajor.getD_of_lt _ _ _ hlt', RowMajor.getD_of_lt _ _ _ hlt']

/-! ## Two kinds -/

/-- One value at some places. -/
def overwrite (n : Nat) (is : List Int) (a : α) : Patch n α where
  shift := 0
  written := fun i => if (i : Int) ∈ is then some a else none
  covers := fun _ hi hle => absurd hle (Nat.not_le.2 hi)

theorem apply_overwrite (is : List Int) (a : α) (v : Vector α n) : (overwrite n is a).apply v = storeAll v is a := by
  apply Vector.ext
  intro i hi
  rw [getElem_apply, getElem_storeAll]
  show (if (i : Int) ∈ is then some a else none).getD (v.getD (i + 0) v[i]) = _
  split
  · rfl
  · exact RowMajor.getD_of_lt v i _ hi

/-- A move by `k` places, and one value behind it. -/
def scroll (n k : Nat) (a : α) : Patch n α where
  shift := k
  written := fun i => if n ≤ i + k then some a else none
  covers := fun i _ hle => by rw [if_pos hle]; rfl

theorem getElem_scroll (k : Nat) (a : α) (v : Vector α n) (i : Nat) (hi : i < n) :
    ((scroll n k a).apply v)[i] = v.getD (i + k) a := by
  rw [getElem_apply]
  show (if n ≤ i + k then some a else none).getD (v.getD (i + k) v[i]) = _
  by_cases hle : n ≤ i + k
  · rw [if_pos hle, Option.getD_some, RowMajor.getD_of_ge v _ a hle]
  · have hlt := Nat.lt_of_not_le hle
    rw [if_neg hle, Option.getD_none, RowMajor.getD_of_lt _ _ _ hlt, RowMajor.getD_of_lt _ _ _ hlt]

/-- **A grid's move by one row is the move by as many places as a row has.** -/
theorem apply_scroll {m k : Nat} (hm : 0 < m) (a : α) (v : Vector α (m * k)) :
    (scroll (m * k) k a).apply v = scrollUp v a := by
  apply Vector.ext
  intro i hi
  rw [getElem_scroll, getElem_scrollUp v a hm]

/-! ## What is left of the array -/

/-- **A patch forgets the array exactly when it overwrites every place.** -/
theorem forgets_iff {a b : α} (hab : a ≠ b) (p : Patch n α) :
    (∀ v w : Vector α n, p.apply v = p.apply w) ↔ ∀ i < n, (p.written i).isSome = true := by
  constructor
  · intro h i hi
    cases hwritten : p.written i with
    | some x => rfl
    | none =>
      have hlt := lt_of_not_written hi hwritten
      have hplace : ∀ x : α, (p.apply (Vector.replicate n x))[i] = x := by
        intro x
        rw [getElem_apply, hwritten, Option.getD_none, RowMajor.getD_of_lt _ _ _ hlt, Vector.getElem_replicate]
      have heq := hplace a
      simp only [h (Vector.replicate n a) (Vector.replicate n b)] at heq
      exact absurd (heq.symm.trans (hplace b)) hab
  · intro h v w
    apply Vector.ext
    intro i hi
    obtain ⟨x, hx⟩ := Option.isSome_iff_exists.1 (h i hi)
    rw [getElem_apply, getElem_apply, hx]
    rfl

end Patch
