import Mathlib.Data.List.Chain
import Mathlib.Data.List.Infix
/-!
# Occurrence — where a run of three equal elements occurs in a list

A list is `Guarded` against `x` when it does not begin with `x` and no two neighbours in it are both `x`; guarded
pieces can be put one after another (`Guarded.append`).  Two fences of three `x`, a guarded text between them and
nothing of `x` behind them: then the fences are the only runs of three (`at_fenced_iff`).
-/
namespace Occurrence

variable {α : Type}

/-- `pat` occurs in `l` at position `i`. -/
def At (pat l : List α) (i : Nat) : Prop := pat <+: l.drop i

def Apart (x : α) (l : List α) : Prop := l.IsChain fun a b => ¬ (a = x ∧ b = x)

structure Guarded (x : α) (l : List α) : Prop where
  head : l.head? ≠ some x
  apart : Apart x l

/-! ## Guarded pieces -/

theorem guarded_nil (x : α) : Guarded x ([] : List α) := ⟨by simp, List.isChain_nil⟩

theorem Apart.of_not_mem {x : α} {l : List α} (h : x ∉ l) : Apart x l :=
  List.Pairwise.isChain (List.pairwise_of_forall_mem_list fun _ ha _ _ e => h (e.1 ▸ ha))

theorem guarded_of_not_mem {x : α} {l : List α} (h : x ∉ l) : Guarded x l :=
  ⟨fun e => h (List.mem_of_head? e), Apart.of_not_mem h⟩

/-- **Guarded pieces make a guarded text**: the second does not begin with `x`, so no pair arises where they meet. -/
theorem Guarded.append {x : α} {l m : List α} (hl : Guarded x l) (hm : Guarded x m) : Guarded x (l ++ m) := by
  refine ⟨?_, List.isChain_append.2 ⟨hl.apart, hm.apart, fun a _ b hb e => hm.head ?_⟩⟩
  · cases l with
    | nil => exact hm.head
    | cons a l => exact hl.head
  · rw [← e.2]
    exact hb

theorem guarded_flatten {x : α} : ∀ {ls : List (List α)}, (∀ l ∈ ls, Guarded x l) → Guarded x ls.flatten
  | [], _ => guarded_nil x
  | l :: ls, h => by
    rw [List.flatten_cons]
    exact (h l List.mem_cons_self).append (guarded_flatten fun m hm => h m (List.mem_cons_of_mem l hm))

theorem Guarded.initial {x : α} {l m : List α} (h : Guarded x m) (hpre : l <+: m) : Guarded x l := by
  obtain ⟨rest, rfl⟩ := hpre
  refine ⟨fun hhead => h.head ?_, h.apart.left_of_append⟩
  rw [List.head?_append, hhead]
  rfl

theorem not_guarded_snoc {x : α} {l : List α} (h : l.getLast? = some x) : ¬ Guarded x (l ++ [x]) := by
  intro hguard
  exact (List.isChain_append.1 hguard.apart).2.2 x h x rfl ⟨rfl, rfl⟩

/-- A text and an `x` behind it are guarded, unless the text is empty. -/
theorem guarded_line {x : α} {text : List α} (hne : text ≠ []) (hx : x ∉ text) : Guarded x (text ++ [x]) := by
  have htext := guarded_of_not_mem hx
  refine ⟨?_, List.isChain_append.2 ⟨htext.apart, List.isChain_singleton x, fun a ha b _ h => ?_⟩⟩
  · rw [List.head?_append_of_ne_nil _ hne]
    exact htext.head
  · exact hx (h.1 ▸ List.mem_of_getLast? ha)

/-! ## Occurrences -/

theorem at_three_iff (x : α) (l : List α) (i : Nat) :
    At [x, x, x] l i ↔ l[i]? = some x ∧ l[i + 1]? = some x ∧ l[i + 2]? = some x := by
  have hdrop : ∀ k, l[i + k]? = (l.drop i)[k]? := fun k => by rw [List.getElem?_drop]
  unfold At
  rw [show l[i]? = (l.drop i)[0]? from hdrop 0, hdrop 1, hdrop 2]
  match l.drop i with
  | [] => simp
  | [a] => simp
  | [a, b] => simp
  | a :: b :: c :: rest => simp [List.cons_prefix_cons, eq_comm]

theorem apart_getElem? {x : α} {l : List α} (h : Apart x l) (i : Nat) : ¬ (l[i]? = some x ∧ l[i + 1]? = some x) := by
  rintro ⟨h1, h2⟩
  obtain ⟨hi, h1⟩ := List.getElem?_eq_some_iff.1 h1
  obtain ⟨hi', h2⟩ := List.getElem?_eq_some_iff.1 h2
  exact List.isChain_iff_getElem.1 h i hi' ⟨h1, h2⟩

/-- **Fences around a guarded text are the only runs of three.** -/
theorem at_fenced_iff {x : α} {gap rest : List α} (hgap : Guarded x gap) (hne : gap ≠ []) (hlast : gap.getLast? ≠ some x)
    (hrest : x ∉ rest) (i : Nat) :
    At [x, x, x] ([x, x, x] ++ (gap ++ ([x, x, x] ++ rest))) i ↔ i = 0 ∨ i = 3 + gap.length := by
  have hpos : 0 < gap.length := List.length_pos_iff.2 hne
  generalize hw : [x, x, x] ++ (gap ++ ([x, x, x] ++ rest)) = whole
  -- the elements of each part, at their positions in the whole
  have hopen : ∀ k, whole[3 + k]? = (gap ++ ([x, x, x] ++ rest))[k]? := fun k => by
    rw [← hw, List.getElem?_append_right (by simp)]
    simp
  have hmid : ∀ k, k < gap.length → whole[3 + k]? = gap[k]? := fun k hk => by
    rw [hopen, List.getElem?_append_left hk]
  have hclose : ∀ k, whole[3 + (gap.length + k)]? = ([x, x, x] ++ rest)[k]? := fun k => by
    rw [hopen, List.getElem?_append_right (Nat.le_add_right _ _), Nat.add_sub_cancel_left]
  have hback : ∀ k, whole[3 + (gap.length + (3 + k))]? = rest[k]? := fun k => by
    rw [hclose, List.getElem?_append_right (by simp)]
    simp
  have hhead : whole[3 + 0]? ≠ some x := by
    rw [hmid 0 hpos, ← List.head?_eq_getElem?]
    exact hgap.head
  have hend : whole[3 + (gap.length - 1)]? ≠ some x := by
    rw [hmid _ (by omega), ← List.getLast?_eq_getElem?]
    exact hlast
  have hnone : ∀ k, whole[3 + (gap.length + (3 + k))]? ≠ some x := fun k e => by
    rw [hback] at e
    exact hrest (List.mem_of_getElem? e)
  rw [at_three_iff]
  constructor
  · rintro ⟨h0, h1, h2⟩
    rcases Nat.lt_or_ge i 3 with hi | hi
    · -- the first element of the text ends the opening fence
      rcases (show i = 0 ∨ i = 1 ∨ i = 2 by omega) with rfl | rfl | rfl
      · exact .inl rfl
      · exact absurd h2 hhead
      · exact absurd h1 hhead
    obtain ⟨k, rfl⟩ := Nat.exists_eq_add_of_le hi
    rcases Nat.lt_or_ge k gap.length with hk | hk
    · rcases Nat.lt_or_ge (k + 1) gap.length with hk' | hk'
      · rw [hmid k hk] at h0
        rw [Nat.add_assoc, hmid (k + 1) hk'] at h1
        exact absurd ⟨h0, h1⟩ (apart_getElem? hgap.apart k)
      · rw [show k = gap.length - 1 by omega] at h0
        exact absurd h0 hend
    obtain ⟨d, rfl⟩ := Nat.exists_eq_add_of_le hk
    rcases (show d = 0 ∨ d = 1 ∨ d = 2 ∨ 3 ≤ d by omega) with rfl | rfl | rfl | hd
    · exact .inr rfl
    · exact absurd h2 (hnone 0)
    · exact absurd h1 (hnone 0)
    · obtain ⟨e, rfl⟩ := Nat.exists_eq_add_of_le hd
      exact absurd h0 (hnone e)
  · rintro (rfl | rfl)
    · rw [← hw]
      exact ⟨rfl, rfl, rfl⟩
    · exact ⟨hclose 0, hclose 1, hclose 2⟩

end Occurrence
