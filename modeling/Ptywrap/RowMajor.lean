import Mathlib.Data.List.OfFn
import Mathlib.Tactic.Ring
/-!
# RowMajor — fixed-size arrays written through `int` indices, and their row-major view

`store` writes one element at an `Int` index and has no effect outside the array, `storeAll` is a loop of such writes
of one value, `blockMove` is `memmove`.  Each has one entrywise law (`getElem_store`, `getElem_storeAll`,
`getElem_blockMove`).  An array of `m * n` elements is also a grid of `m` rows and `n` columns (`cell`), equal to
another when all cells are (`ext_cell`); `scrollUp` is the grid's move by one row.  What two arrays agree on, element by
element, they still agree on after the same operation on both (`Agree`); what holds of every element still holds once only such
elements are written (`All`).  A grid shown in the corner of a larger one is still shown there after the same operation
on both (`Corner`).
-/
namespace RowMajor

variable {α β : Type}

/-! ## Writing through an `Int` index -/

def store {N : Nat} (v : Vector α N) (i : Int) (a : α) : Vector α N :=
  if 0 ≤ i then v.setIfInBounds i.toNat a else v

def storeAll {N : Nat} (v : Vector α N) (is : List Int) (a : α) : Vector α N :=
  is.foldl (fun w i => store w i a) v

/-- The indices a loop `for (i = lo; i < hi; i++)` goes through. -/
def intRange (lo hi : Int) : List Int := (List.range (hi - lo).toNat).map (fun k : Nat => lo + (k : Int))

/-- `memmove(v + dst, v + src, len)`: the source block is read before any of it is overwritten. -/
def blockMove {N : Nat} (v : Vector α N) (dst src len : Nat) : Vector α N :=
  Vector.ofFn fun k : Fin N => if dst ≤ k.val ∧ k.val < dst + len then v.getD (src + (k.val - dst)) v[k] else v[k]

theorem getElem_store {N : Nat} (v : Vector α N) (i : Int) (a : α) (k : Nat) (hk : k < N) :
    (store v i a)[k] = if i = (k : Int) then a else v[k] := by
  unfold store
  split
  · rename_i h
    rw [Vector.getElem_setIfInBounds hk]
    by_cases hik : i = (k : Int)
    · rw [if_pos (by omega), if_pos hik]
    · rw [if_neg (by omega), if_neg hik]
  · rename_i h
    exact (if_neg (by omega)).symm

theorem getElem_storeAll {N : Nat} (a : α) : ∀ (is : List Int) (v : Vector α N) (k : Nat) (hk : k < N),
    (storeAll v is a)[k] = if (k : Int) ∈ is then a else v[k]
  | [], v, k, hk => by simp [storeAll]
  | i :: is, v, k, hk => by
    have ih := getElem_storeAll a is (store v i a) k hk
    unfold storeAll at ih ⊢
    rw [List.foldl_cons, ih, getElem_store]
    by_cases hm : (k : Int) ∈ is
    · simp [hm]
    · by_cases hik : i = (k : Int)
      · simp [hik]
      · simp [hm, hik, Ne.symm hik]

theorem mem_intRange (lo hi i : Int) : i ∈ intRange lo hi ↔ lo ≤ i ∧ i < hi := by
  unfold intRange
  rw [List.mem_map]
  constructor
  · rintro ⟨k, hk, rfl⟩
    rw [List.mem_range] at hk
    omega
  · rintro ⟨h1, h2⟩
    exact ⟨(i - lo).toNat, List.mem_range.2 (by omega), by omega⟩

theorem intRange_of_le {lo hi : Int} (h : hi ≤ lo) : intRange lo hi = [] := by
  unfold intRange
  rw [show (hi - lo).toNat = 0 by omega]
  rfl

theorem intRange_of_lt {lo hi : Int} (h : lo < hi) : intRange lo hi = lo :: intRange (lo + 1) hi := by
  unfold intRange
  rw [show (hi - lo).toNat = (hi - (lo + 1)).toNat + 1 by omega, List.range_succ_eq_map, List.map_cons, List.map_map]
  congr 1
  · exact Int.add_zero lo
  · refine List.map_congr_left fun k _ => ?_
    simp only [Function.comp_apply]
    omega

theorem getElem_storeAll_intRange {N : Nat} (v : Vector α N) (lo hi : Int) (a : α) (k : Nat) (hk : k < N) :
    (storeAll v (intRange lo hi) a)[k] = if lo ≤ (k : Int) ∧ (k : Int) < hi then a else v[k] := by
  rw [getElem_storeAll]
  simp only [mem_intRange]

theorem getElem_blockMove {N : Nat} (v : Vector α N) (dst src len k : Nat) (hk : k < N) :
    (blockMove v dst src len)[k] =
      if dst ≤ k ∧ k < dst + len then v.getD (src + (k - dst)) v[k] else v[k] := by
  unfold blockMove
  rw [Vector.getElem_ofFn]
  rfl

theorem getD_of_lt {N : Nat} (v : Vector α N) (k : Nat) (d : α) (h : k < N) : v.getD k d = v[k] := by
  simp [Vector.getD, h]

theorem getD_of_ge {N : Nat} (v : Vector α N) (k : Nat) (d : α) (h : N ≤ k) : v.getD k d = d := by
  simp [Vector.getD, Nat.not_lt.2 h]

/-! ## Agreement on a part of each element -/

/-- The arrays agree, element by element, on what `f` sees of it. -/
def Agree {N : Nat} (f : α → β) (v w : Vector α N) : Prop := ∀ k (hk : k < N), f v[k] = f w[k]

theorem Agree.store {N : Nat} {f : α → β} {v w : Vector α N} (h : Agree f v w) (i : Int) {a b : α}
    (hab : f a = f b) : Agree f (store v i a) (store w i b) := by
  intro k hk
  rw [getElem_store, getElem_store]
  split
  · exact hab
  · exact h k hk

theorem Agree.storeAll {N : Nat} {f : α → β} {v w : Vector α N} (h : Agree f v w) (is : List Int) {a b : α}
    (hab : f a = f b) : Agree f (storeAll v is a) (storeAll w is b) := by
  intro k hk
  rw [getElem_storeAll, getElem_storeAll]
  split
  · exact hab
  · exact h k hk

theorem Agree.blockMove {N : Nat} {f : α → β} {v w : Vector α N} (h : Agree f v w) (dst src len : Nat) :
    Agree f (blockMove v dst src len) (blockMove w dst src len) := by
  intro k hk
  rw [getElem_blockMove, getElem_blockMove]
  split
  · by_cases hin : src + (k - dst) < N
    · rw [getD_of_lt _ _ _ hin, getD_of_lt _ _ _ hin]
      exact h _ hin
    · rw [getD_of_ge _ _ _ (by omega), getD_of_ge _ _ _ (by omega)]
      exact h k hk
  · exact h k hk

/-! ## A property of every element -/

def All {N : Nat} (P : α → Prop) (v : Vector α N) : Prop := ∀ k (hk : k < N), P v[k]

theorem All.replicate {N : Nat} {P : α → Prop} {a : α} (ha : P a) : All P (Vector.replicate N a) := by
  intro k hk
  rw [Vector.getElem_replicate]
  exact ha

theorem All.store {N : Nat} {P : α → Prop} {v : Vector α N} (h : All P v) (i : Int) {a : α} (ha : P a) :
    All P (store v i a) := by
  intro k hk
  rw [getElem_store]
  split
  · exact ha
  · exact h k hk

theorem All.storeAll {N : Nat} {P : α → Prop} {v : Vector α N} (h : All P v) (is : List Int) {a : α} (ha : P a) :
    All P (storeAll v is a) := by
  intro k hk
  rw [getElem_storeAll]
  split
  · exact ha
  · exact h k hk

theorem All.blockMove {N : Nat} {P : α → Prop} {v : Vector α N} (h : All P v) (dst src len : Nat) :
    All P (blockMove v dst src len) := by
  intro k hk
  rw [getElem_blockMove]
  split
  · by_cases hin : src + (k - dst) < N
    · rw [getD_of_lt _ _ _ hin]
      exact h _ hin
    · rw [getD_of_ge _ _ _ (by omega)]
      exact h k hk
  · exact h k hk

/-! ## Rows and columns -/

variable {m n : Nat}

theorem flat_lt {r c : Nat} (hr : r < m) (hc : c < n) : r * n + c < m * n := by
  calc r * n + c < r * n + n := by omega
    _ = (r + 1) * n := by ring
    _ ≤ m * n := Nat.mul_le_mul_right n hr

theorem flat_div {r c : Nat} (hc : c < n) : (r * n + c) / n = r := by
  rw [Nat.mul_comm, Nat.mul_add_div (by omega), Nat.div_eq_of_lt hc, Nat.add_zero]

theorem flat_mod {r c : Nat} (hc : c < n) : (r * n + c) % n = c := by
  rw [Nat.mul_comm, Nat.mul_add_mod, Nat.mod_eq_of_lt hc]

/-- Whole rows further on: the row moves, the column stays. -/
theorem flat_add_div {r c k : Nat} (hc : c < n) : (r * n + c + n * k) / n = r + k := by
  rw [show r * n + c + n * k = (r + k) * n + c by ring]
  exact flat_div hc

theorem flat_add_mod_iff {r c k : Nat} (hc : c < n) : (r * n + c + k) % n = c ↔ n ∣ k := by
  constructor
  · intro h
    rw [Nat.add_assoc, Nat.mul_comm, Nat.mul_add_mod] at h
    have hsub := Nat.sub_mod_eq_zero_of_mod_eq (h.trans (Nat.mod_eq_of_lt hc).symm)
    rw [Nat.add_sub_cancel_left] at hsub
    exact Nat.dvd_of_mod_eq_zero hsub
  · rintro ⟨d, rfl⟩
    rw [show r * n + c + n * d = (r + d) * n + c by ring]
    exact flat_mod hc

theorem flat_inj {r r' c c' : Nat} (hc : c < n) (hc' : c' < n) : r * n + c = r' * n + c' ↔ r = r' ∧ c = c' := by
  constructor
  · intro h
    have hdiv := congrArg (· / n) h
    have hmod := congrArg (· % n) h
    simp only [flat_div hc, flat_div hc', flat_mod hc, flat_mod hc'] at hdiv hmod
    exact ⟨hdiv, hmod⟩
  · rintro ⟨rfl, rfl⟩
    rfl

def cell (v : Vector α (m * n)) (r : Fin m) (c : Fin n) : α :=
  have := flat_lt r.isLt c.isLt
  v[r.val * n + c.val]

theorem cell_eq (v : Vector α (m * n)) (r : Fin m) (c : Fin n) (h : r.val * n + c.val < m * n) :
    cell v r c = v[r.val * n + c.val] := rfl

def rowOf (v : Vector α (m * n)) (r : Fin m) : Vector α n := Vector.ofFn (cell v r)

theorem cell_eq_getElem (v : Vector α (m * n)) (r : Fin m) (c : Fin n) (k : Nat) (hk : k < m * n)
    (h : k = r.val * n + c.val) : cell v r c = v[k] := by
  subst h; rfl

theorem exists_flat (k : Nat) (hk : k < m * n) : ∃ (r : Fin m) (c : Fin n), k = r.val * n + c.val := by
  have hn : 0 < n := Nat.pos_of_ne_zero (fun h => by subst h; simp at hk)
  refine ⟨⟨k / n, (Nat.div_lt_iff_lt_mul hn).2 hk⟩, ⟨k % n, Nat.mod_lt k hn⟩, ?_⟩
  exact (Nat.div_add_mod' k n).symm

/-- **A grid is its cells.** -/
theorem ext_cell {v w : Vector α (m * n)} (h : ∀ r c, cell v r c = cell w r c) : v = w := by
  apply Vector.ext
  intro k hk
  obtain ⟨r, c, hrc⟩ := exists_flat k hk
  rw [← cell_eq_getElem v r c k hk hrc, ← cell_eq_getElem w r c k hk hrc]
  exact h r c

theorem cell_store (v : Vector α (m * n)) (i : Int) (a : α) (r : Fin m) (c : Fin n) :
    cell (store v i a) r c = if i = ((r.val * n + c.val : Nat) : Int) then a else cell v r c :=
  getElem_store v i a _ _

theorem cell_store_flat (v : Vector α (m * n)) (r' : Fin m) (c' : Fin n) (a : α) (r : Fin m) (c : Fin n) :
    cell (store v ((r'.val * n + c'.val : Nat) : Int) a) r c = if r = r' ∧ c = c' then a else cell v r c := by
  rw [cell_store]
  simp only [Int.ofNat_inj, flat_inj c'.isLt c.isLt]
  by_cases h : r = r' ∧ c = c'
  · rw [if_pos h, if_pos ⟨congrArg Fin.val h.1.symm, congrArg Fin.val h.2.symm⟩]
  · rw [if_neg h, if_neg (fun hv => h ⟨Fin.ext hv.1.symm, Fin.ext hv.2.symm⟩)]

theorem rowOf_eq_iff (v w : Vector α (m * n)) (r r' : Fin m) :
    rowOf v r = rowOf w r' ↔ ∀ c, cell v r c = cell w r' c := by
  unfold rowOf
  constructor
  · intro h c
    have := congrArg (fun x : Vector α n => x[c.val]) h
    simpa using this
  · intro h
    rw [funext h]

theorem toList_eq_flatten_rowOf (v : Vector α (m * n)) :
    v.toList = ((List.ofFn (rowOf v)).map Vector.toList).flatten := by
  have hv : v = Vector.ofFn fun i : Fin (m * n) => v[i] := by
    apply Vector.ext
    intro i hi
    rw [Vector.getElem_ofFn]
    rfl
  conv => lhs; rw [hv]
  rw [Vector.toList_ofFn, List.ofFn_mul, List.map_ofFn]
  congr 2
  funext r
  unfold rowOf
  rw [Function.comp_apply, Vector.toList_ofFn]
  rfl

/-! ## Moving the grid up by one row -/

/-- The grid moved up by one row, its last row filled with `b`: the move a `memmove` over the following rows and a
loop over the last one make. -/
def scrollUp (v : Vector α (m * n)) (b : α) : Vector α (m * n) :=
  storeAll (blockMove v 0 n ((m - 1) * n)) (intRange (((m - 1) * n : Nat) : Int) (((m - 1) * n + n : Nat) : Int)) b

theorem getElem_scrollUp (v : Vector α (m * n)) (b : α) (hm : 0 < m) (k : Nat) (hk : k < m * n) :
    (scrollUp v b)[k] = v.getD (k + n) b := by
  have hmn : (m - 1) * n + n = m * n := by
    rw [← Nat.succ_mul, Nat.succ_eq_add_one, Nat.sub_add_cancel hm]
  unfold scrollUp
  rw [getElem_storeAll_intRange, getElem_blockMove]
  by_cases h : k < (m - 1) * n
  · have hkn : k + n < m * n := by omega
    rw [if_neg (by omega), if_pos (by omega), getD_of_lt v _ _ (by omega), getD_of_lt v _ _ hkn]
    congr 1
    omega
  · rw [if_pos (by omega), getD_of_ge v _ _ (by omega)]

/-- **Row `r` of the moved grid is the old row `r + 1`; the last row is blank.** -/
theorem cell_scrollUp (v : Vector α (m * n)) (b : α) (r : Fin m) (c : Fin n) :
    cell (scrollUp v b) r c = if h : r.val + 1 < m then cell v ⟨r.val + 1, h⟩ c else b := by
  rw [cell_eq _ r c (flat_lt r.isLt c.isLt), getElem_scrollUp v b (by have := r.isLt; omega)]
  have hflat : r.val * n + c.val + n = (r.val + 1) * n + c.val := by rw [Nat.succ_mul]; omega
  rw [hflat]
  split
  · rename_i h
    exact getD_of_lt v _ _ (flat_lt h c.isLt)
  · rename_i h
    refine getD_of_ge v _ _ ?_
    have := Nat.mul_le_mul_right n (show m ≤ r.val + 1 by omega)
    omega

/-! ## The endless tape behind a scrolling array -/

/-- The array, continued by `d` without end, with `xs` written over it from position `q` on. -/
def tape {N : Nat} (v : Vector α N) (q : Nat) (xs : List α) (d : α) (a : Nat) : α :=
  if q ≤ a ∧ a < q + xs.length then xs.getD (a - q) d else v.getD a d

theorem tape_nil {N : Nat} (v : Vector α N) (q : Nat) (d : α) (a : Nat) : tape v q [] d a = v.getD a d := by
  unfold tape
  rw [List.length_nil, if_neg (by omega)]

theorem tape_snoc {N : Nat} (v : Vector α N) (q : Nat) (xs : List α) (x d : α) (a : Nat) :
    tape v q (xs ++ [x]) d a = if a = q + xs.length then x else tape v q xs d a := by
  unfold tape
  rw [List.length_append, List.length_singleton]
  by_cases ha : a = q + xs.length
  · subst ha
    rw [if_pos (by omega), if_pos rfl]
    simp [List.getD]
  · rw [if_neg ha]
    by_cases hin : q ≤ a ∧ a < q + xs.length
    · rw [if_pos (by omega), if_pos hin]
      simp [List.getD, List.getElem?_append_left (show a - q < xs.length by omega)]
    · rw [if_neg (by omega), if_neg hin]

theorem tape_of_ge {N : Nat} (v : Vector α N) (q : Nat) (xs : List α) (d : α) (a : Nat) (h1 : q + xs.length ≤ a)
    (h2 : N ≤ a) : tape v q xs d a = d := by
  unfold tape
  rw [if_neg (by omega), getD_of_ge v a d h2]

/-- **A store at the tape's end** adds its next cell, wherever on it the array stands. -/
theorem window_store {N : Nat} {v w : Vector α N} {q base pos : Nat} {xs : List α} {d : α}
    (hw : ∀ k (hk : k < N), w[k] = tape v q xs d (k + base)) (hpos : pos + base = q + xs.length) (x : α) (k : Nat)
    (hk : k < N) : (store w (pos : Int) x)[k] = tape v q (xs ++ [x]) d (k + base) := by
  rw [getElem_store, tape_snoc]
  by_cases hkp : k + base = q + xs.length
  · rw [if_pos (by omega), if_pos hkp]
  · rw [if_neg (by omega), if_neg hkp]
    exact hw k hk

/-- **Scrolling moves the array on by a row**, where the tape has no cell beyond it yet. -/
theorem window_scrollUp {v w : Vector α (m * n)} {q base : Nat} {xs : List α} {d : α}
    (hw : ∀ k (hk : k < m * n), w[k] = tape v q xs d (k + base)) (hm : 0 < m) (hend : q + xs.length ≤ m * n + base)
    (k : Nat) (hk : k < m * n) : (scrollUp w d)[k] = tape v q xs d (k + (base + n)) := by
  rw [getElem_scrollUp w d hm k hk, Nat.add_comm base, ← Nat.add_assoc]
  by_cases hin : k + n < m * n
  · rw [getD_of_lt _ _ _ hin]
    exact hw _ hin
  · rw [getD_of_ge _ _ _ (by omega), tape_of_ge _ _ _ _ _ (by omega) (by omega)]

/-! ## A grid in the corner of a larger one -/

section Corner

variable {m' n' : Nat}

/-- The larger grid shows the smaller one in its upper left corner. -/
def Corner (hm : m ≤ m') (hn : n ≤ n') (v : Vector α (m * n)) (w : Vector α (m' * n')) : Prop :=
  ∀ r c, cell v r c = cell w (r.castLE hm) (c.castLE hn)

variable {hm : m ≤ m'} {hn : n ≤ n'} {v : Vector α (m * n)} {w : Vector α (m' * n')}

theorem Corner.store (h : Corner hm hn v w) (r : Fin m) (c : Fin n) (a : α) :
    Corner hm hn (store v ((r.val * n + c.val : Nat) : Int) a) (store w ((r.val * n' + c.val : Nat) : Int) a) := by
  intro r' c'
  have hlarge := cell_store_flat w (r.castLE hm) (c.castLE hn) a (r'.castLE hm) (c'.castLE hn)
  simp only [Fin.castLE_inj] at hlarge
  rw [cell_store_flat]
  refine Eq.trans ?_ hlarge.symm
  rw [h r' c']

/-- Grids of the same height are moved up together. -/
theorem Corner.scrollUp (h : Corner hm hn v w) (heq : m = m') (b : α) : Corner hm hn (scrollUp v b) (scrollUp w b) := by
  intro r c
  rw [cell_scrollUp, cell_scrollUp]
  subst heq
  by_cases hr : r.val + 1 < m
  · rw [dif_pos hr, dif_pos (show (r.castLE hm).val + 1 < m from hr)]
    exact h ⟨r.val + 1, hr⟩ c
  · rw [dif_neg hr, dif_neg (show ¬ (r.castLE hm).val + 1 < m from hr)]

end Corner

end RowMajor
