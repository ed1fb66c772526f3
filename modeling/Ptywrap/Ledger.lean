import Mathlib.Algebra.BigOperators.Group.Multiset.Basic
import Mathlib.Data.List.Perm.Basic
/-!
# Ledger — owners, what they own and the names they go by

`Balanced`: what is held is what the owners in a list own, taken together.  `Covered`: every name in use is some owner's.
Both are kept by a new owner who brings what it owns, and by one who leaves with it; without owners nothing is held and
no name is used.
-/
namespace Ledger

variable {σ ρ κ : Type}

def Balanced (owned : σ → Multiset ρ) (owners : List σ) (held : Multiset ρ) : Prop := held = (owners.map owned).sum

def Covered (name : σ → κ) (owners : List σ) (used : κ → Prop) : Prop := ∀ k, used k → ∃ o ∈ owners, name o = k

theorem balanced_nil_iff (owned : σ → Multiset ρ) (held : Multiset ρ) : Balanced owned [] held ↔ held = 0 := Iff.rfl

theorem Balanced.enter {owned : σ → Multiset ρ} {owners : List σ} {held : Multiset ρ} (h : Balanced owned owners held)
    (o : σ) : Balanced owned (owners ++ [o]) (owned o + held) := by
  unfold Balanced at h ⊢
  rw [List.map_append, List.sum_append, List.map_singleton, List.sum_singleton, ← h, add_comm]

/-- **An owner's things are among those held, and without them the rest is balanced.** -/
theorem Balanced.leave {owned : σ → Multiset ρ} {owners : List σ} {held : Multiset ρ} (h : Balanced owned owners held)
    {i : Nat} {o : σ} (hi : owners[i]? = some o) :
    ∃ rest, held = owned o + rest ∧ Balanced owned (owners.eraseIdx i) rest := by
  obtain ⟨hlt, rfl⟩ := List.getElem?_eq_some_iff.1 hi
  have hperm := (List.getElem_cons_eraseIdx_perm hlt).map owned
  refine ⟨_, ?_, rfl⟩
  unfold Balanced at h
  rw [h, ← hperm.sum_eq, List.map_cons, List.sum_cons]

theorem covered_nil_iff (name : σ → κ) (used : κ → Prop) : Covered name [] used ↔ ∀ k, ¬ used k := by
  unfold Covered
  simp only [List.not_mem_nil, false_and, exists_false, imp_false]

theorem Covered.mono {name : σ → κ} {owners : List σ} {used used' : κ → Prop} (h : Covered name owners used)
    (hused : ∀ k, used' k → used k) : Covered name owners used' := fun k hk => h k (hused k hk)

/-- **One more name stays covered exactly when it is some owner's.** -/
theorem covered_insert_iff {name : σ → κ} {owners : List σ} {used used' : κ → Prop} (h : Covered name owners used) (k : κ)
    (hused : ∀ k', used' k' ↔ k' = k ∨ used k') : Covered name owners used' ↔ ∃ o ∈ owners, name o = k := by
  constructor
  · intro h'
    exact h' k ((hused k).2 (.inl rfl))
  · intro hk k' hk'
    rcases (hused k').1 hk' with rfl | hk'
    · exact hk
    · exact h k' hk'

/-- **The names stay covered without an owner exactly when its own is unused or another's too.** -/
theorem covered_eraseIdx_iff {name : σ → κ} {owners : List σ} {used : κ → Prop} (h : Covered name owners used) {i : Nat}
    {o : σ} (hi : owners[i]? = some o) :
    Covered name (owners.eraseIdx i) used ↔ ¬ used (name o) ∨ ∃ o' ∈ owners.eraseIdx i, name o' = name o := by
  obtain ⟨hlt, rfl⟩ := List.getElem?_eq_some_iff.1 hi
  have hperm := List.getElem_cons_eraseIdx_perm hlt
  constructor
  · intro h'
    by_cases hused : used (name owners[i])
    · exact .inr (h' _ hused)
    · exact .inl hused
  · intro hname k hk
    obtain ⟨o', ho', rfl⟩ := h k hk
    rcases List.mem_cons.1 (hperm.mem_iff.2 ho') with rfl | ho'
    · exact hname.resolve_left fun hunused => hunused hk
    · exact ⟨o', ho', rfl⟩

end Ledger
