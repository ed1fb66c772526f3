import Mathlib.Data.List.Basic
/-!
# Machine — events with guards

A machine takes an event only where its guard holds.  What holds in every state that a run reaches is an invariant kept
by each event that is taken (`Run.invariant`); one that only some events keep is an invariant of the machine restricted to
them (`restrict`).  How many events of one kind a run takes is bounded by a rank that each
of them lowers and no other raises (`Run.countP_le`); a rank that some allowed event lowers everywhere short of a goal
leads there (`exists_run`).
-/

structure Machine (σ ε : Type) where
  enabled : σ → ε → Prop
  next : σ → ε → σ

namespace Machine

variable {σ ε : Type} {M : Machine σ ε}

/-- The machine goes from the first state to the second by the events of the list. -/
inductive Run (M : Machine σ ε) : σ → List ε → σ → Prop where
  | nil (s : σ) : Run M s [] s
  | cons {s t : σ} {e : ε} {es : List ε} (h : M.enabled s e) (hrest : Run M (M.next s e) es t) : Run M s (e :: es) t

/-- The machine with some of its events only. -/
def restrict (M : Machine σ ε) (P : ε → Prop) : Machine σ ε := ⟨fun s e => M.enabled s e ∧ P e, M.next⟩

/-- Every event that is taken in a state of `I` leads to one. -/
def Keeps (M : Machine σ ε) (I : σ → Prop) : Prop := ∀ s e, I s → M.enabled s e → I (M.next s e)

theorem Run.append {s t u : σ} {es es' : List ε} (h : M.Run s es t) (h' : M.Run t es' u) : M.Run s (es ++ es') u := by
  induction h with
  | nil s => exact h'
  | cons he _ ih => exact .cons he (ih h')

/-- **An invariant kept by each event holds in every state that is reached.** -/
theorem Run.invariant {I : σ → Prop} (hI : M.Keeps I) {s t : σ} {es : List ε} (h : M.Run s es t) (hs : I s) : I t := by
  induction h with
  | nil s => exact hs
  | cons he _ ih => exact ih (hI _ _ hs he)

/-- **A relation that every event extends relates the ends of a run.** -/
theorem Run.relates {I : σ → Prop} (hI : M.Keeps I) {R : σ → σ → Prop} (hrefl : ∀ s, R s s)
    (htrans : ∀ s t u, R s t → R t u → R s u) (hstep : ∀ s e, I s → M.enabled s e → R s (M.next s e)) {s t : σ}
    {es : List ε} (h : M.Run s es t) (hs : I s) : R s t := by
  induction h with
  | nil s => exact hrefl s
  | cons he _ ih => exact htrans _ _ _ (hstep _ _ hs he) (ih (hI _ _ hs he))

/-- **A rank that the events of one kind lower and the others do not raise bounds how many of that kind are taken.** -/
theorem Run.countP_le {I : σ → Prop} (hI : M.Keeps I) (own : ε → Bool) (rank : σ → Nat)
    (hown : ∀ s e, I s → M.enabled s e → own e = true → rank (M.next s e) < rank s)
    (hother : ∀ s e, I s → M.enabled s e → own e = false → rank (M.next s e) ≤ rank s) {s t : σ} {es : List ε}
    (h : M.Run s es t) (hs : I s) : es.countP own + rank t ≤ rank s := by
  induction h with
  | nil s => exact Nat.le_of_eq (Nat.zero_add _)
  | @cons s t e es he _ ih =>
    have hrest := ih (hI s e hs he)
    cases ho : own e with
    | true =>
      have hlow := hown s e hs he ho
      rw [List.countP_cons_of_pos (by simp [ho])]
      omega
    | false =>
      have hlow := hother s e hs he ho
      rw [List.countP_cons_of_neg (by simp [ho])]
      omega

/-- **Where some allowed event lowers a rank everywhere short of the goal, a run of allowed events reaches it.** -/
theorem exists_run {I goal : σ → Prop} (allowed : ε → Prop) (rank : σ → Nat)
    (hstep : ∀ s, I s → ¬ goal s → ∃ e, allowed e ∧ M.enabled s e ∧ I (M.next s e) ∧ rank (M.next s e) < rank s) :
    ∀ n s, rank s ≤ n → I s → ∃ es t, M.Run s es t ∧ (∀ e ∈ es, allowed e) ∧ I t ∧ goal t := by
  intro n
  induction n with
  | zero =>
    intro s hn hs
    by_cases hgoal : goal s
    · exact ⟨[], s, .nil s, nofun, hs, hgoal⟩
    · obtain ⟨e, -, -, -, hrank⟩ := hstep s hs hgoal
      omega
  | succ n ih =>
    intro s hn hs
    by_cases hgoal : goal s
    · exact ⟨[], s, .nil s, nofun, hs, hgoal⟩
    · obtain ⟨e, hallowed, he, hnext, hrank⟩ := hstep s hs hgoal
      obtain ⟨es, t, hrun, hes, ht⟩ := ih (M.next s e) (by omega) hnext
      exact ⟨e :: es, t, .cons he hrun, List.forall_mem_cons.2 ⟨hallowed, hes⟩, ht⟩

end Machine
