/-!
# Transducer — a deterministic reader whose outputs drive another state

A reader consumes inputs one at a time and emits a list of outputs for each.  Executing the outputs on a second state
gives a machine on pairs (`drive`); its run is the reader's run and the execution of everything the reader emitted
(`runDrive_eq`), so a fact about a run over inputs is a fact about a list of outputs.  `exec_sim` carries a relation
between two executed states along one output list, `forall_prefix` an invariant along the prefixes of the input.
-/

structure Transducer (σ ι ο : Type) where
  next : σ → ι → σ
  out : σ → ι → List ο

namespace Transducer

variable {σ ι ο τ τ' : Type} (T : Transducer σ ι ο)

def after (s : σ) (is : List ι) : σ := is.foldl T.next s

/-- Everything the reader emits on an input list. -/
def outputs (s : σ) : List ι → List ο
  | [] => []
  | i :: is => T.out s i ++ outputs (T.next s i) is

def drive (exec : τ → ο → τ) (p : τ × σ) (i : ι) : τ × σ := ((T.out p.2 i).foldl exec p.1, T.next p.2 i)

@[simp] theorem after_nil (s : σ) : T.after s [] = s := rfl

@[simp] theorem after_cons (s : σ) (i : ι) (is : List ι) : T.after s (i :: is) = T.after (T.next s i) is := rfl

theorem after_append (s : σ) (is js : List ι) : T.after s (is ++ js) = T.after (T.after s is) js := by
  unfold after; exact List.foldl_append

@[simp] theorem outputs_nil (s : σ) : T.outputs s [] = [] := rfl

@[simp] theorem outputs_cons (s : σ) (i : ι) (is : List ι) :
    T.outputs s (i :: is) = T.out s i ++ T.outputs (T.next s i) is := rfl

theorem outputs_append : ∀ (s : σ) (is js : List ι),
    T.outputs s (is ++ js) = T.outputs s is ++ T.outputs (T.after s is) js
  | _, [], _ => rfl
  | s, i :: is, js => by
    rw [List.cons_append, outputs_cons, outputs_append (T.next s i) is js, outputs_cons, after_cons, List.append_assoc]

/-- **The run of the machine on pairs is the reader's run and the execution of what it emitted.** -/
theorem runDrive_eq (exec : τ → ο → τ) : ∀ (is : List ι) (t : τ) (s : σ),
    is.foldl (T.drive exec) (t, s) = ((T.outputs s is).foldl exec t, T.after s is)
  | [], _, _ => rfl
  | i :: is, t, s => by
    rw [List.foldl_cons, drive, runDrive_eq exec is, outputs_cons, List.foldl_append, after_cons]

/-- **A relation kept by every output is kept by an output list.** -/
theorem exec_sim (R : τ → τ' → Prop) (exec : τ → ο → τ) (exec' : τ' → ο → τ')
    (hstep : ∀ t t' o, R t t' → R (exec t o) (exec' t' o)) :
    ∀ (os : List ο) (t : τ) (t' : τ'), R t t' → R (os.foldl exec t) (os.foldl exec' t')
  | [], _, _, h => h
  | o :: os, t, t', h => exec_sim R exec exec' hstep os _ _ (hstep t t' o h)

/-- **An invariant kept by each step that is taken holds after every prefix of the run.** -/
theorem forall_prefix (step : τ → ι → τ) (I : τ → Prop) (t : τ) (is : List ι) (h0 : I t)
    (hstep : ∀ pre i, pre ++ [i] <+: is → I (pre.foldl step t) → I (step (pre.foldl step t) i)) :
    ∀ pre, pre <+: is → I (pre.foldl step t) := by
  intro pre
  induction hn : pre.length generalizing pre with
  | zero =>
    intro _
    rw [List.length_eq_zero_iff.1 hn]
    exact h0
  | succ n ih =>
    intro hpre
    rcases List.eq_nil_or_concat pre with hnil | ⟨l, i, hl⟩
    · subst hnil; cases hn
    · rw [List.concat_eq_append] at hl
      subst hl
      rw [List.foldl_append, List.foldl_cons, List.foldl_nil]
      refine hstep l i hpre (ih l ?_ ((List.prefix_append l [i]).trans hpre))
      rw [List.length_append, List.length_singleton] at hn
      omega

theorem snoc_prefix_cons_iff (pre : List ι) (j i : ι) (is : List ι) :
    pre ++ [j] <+: i :: is ↔ (pre = [] ∧ j = i) ∨ ∃ pre', pre = i :: pre' ∧ pre' ++ [j] <+: is := by
  cases pre with
  | nil =>
    simp only [List.nil_append, List.cons_prefix_cons, List.nil_prefix, and_true, true_and, reduceCtorEq, false_and,
      exists_false, or_false]
  | cons k pre =>
    simp only [List.cons_append, List.cons_prefix_cons, reduceCtorEq, false_and, false_or, List.cons.injEq]
    constructor
    · rintro ⟨rfl, hpre⟩
      exact ⟨pre, ⟨rfl, rfl⟩, hpre⟩
    · rintro ⟨pre', ⟨rfl, rfl⟩, hpre⟩
      exact ⟨rfl, hpre⟩

theorem holds_before (step : τ → ι → τ) (I J : τ → Prop) (hJ : ∀ t i, J t → J (step t i))
    (hlost : ∀ t i, J t → I (step t i) → I t) : ∀ (is : List ι) (t : τ), J t → I (is.foldl step t) → I t
  | [], _, _, h => h
  | i :: is, t, ht, h => hlost t i ht (holds_before step I J hJ hlost is (step t i) (hJ t i ht) h)

/-- **An invariant that is never regained once lost holds after a run exactly when every step keeps it**, where `J` is
what holds throughout. -/
theorem invariant_iff (step : τ → ι → τ) (I J : τ → Prop) (K : τ → ι → Prop) (hJ : ∀ t i, J t → J (step t i))
    (hstep : ∀ t i, J t → I t → (I (step t i) ↔ K t i)) (hlost : ∀ t i, J t → I (step t i) → I t) :
    ∀ (is : List ι) (t : τ), J t → I t →
      (I (is.foldl step t) ↔ ∀ pre i, pre ++ [i] <+: is → K (pre.foldl step t) i)
  | [], t, _, h => by
    refine iff_of_true h fun pre i hpre => ?_
    have hlen := hpre.length_le
    rw [List.length_append, List.length_singleton, List.length_nil] at hlen
    omega
  | i :: is, t, ht, h => by
    have hcons : (∀ pre j, pre ++ [j] <+: i :: is → K (pre.foldl step t) j) ↔
        K t i ∧ ∀ pre j, pre ++ [j] <+: is → K (pre.foldl step (step t i)) j := by
      constructor
      · intro hall
        exact ⟨hall [] i (by simp), fun pre j hpre => hall (i :: pre) j (by simpa using hpre)⟩
      · rintro ⟨hhead, htail⟩ pre j hpre
        rcases (snoc_prefix_cons_iff pre j i is).1 hpre with ⟨rfl, rfl⟩ | ⟨pre', rfl, hpre'⟩
        · exact hhead
        · exact htail pre' j hpre'
    rw [hcons, List.foldl_cons]
    by_cases hI : I (step t i)
    · rw [and_iff_right ((hstep t i ht h).1 hI)]
      exact invariant_iff step I J K hJ hstep hlost is (step t i) (hJ t i ht) hI
    · refine iff_of_false (fun hrun => hI ?_) (fun hK => hI ((hstep t i ht h).2 hK.1))
      exact holds_before step I J hJ hlost is (step t i) (hJ t i ht) hrun

/-- `P` holds of every step of the run. -/
def Throughout (step : τ → ι → τ) (P : τ → ι → Prop) : List ι → τ → Prop
  | [], _ => True
  | i :: is, t => P t i ∧ Throughout step P is (step t i)

theorem invariant_of_throughout {step : τ → ι → τ} {P : τ → ι → Prop} (I : τ → Prop)
    (hstep : ∀ t i, I t → P t i → I (step t i)) : ∀ (is : List ι) (t : τ), I t → Throughout step P is t →
      I (is.foldl step t)
  | [], _, h, _ => h
  | i :: is, t, h, hP => invariant_of_throughout I hstep is (step t i) (hstep t i h hP.1) hP.2

theorem throughout_append {step : τ → ι → τ} {P : τ → ι → Prop} : ∀ (is js : List ι) (t : τ),
    Throughout step P (is ++ js) t ↔ Throughout step P is t ∧ Throughout step P js (is.foldl step t)
  | [], _, _ => (and_iff_right trivial).symm
  | i :: is, js, t => by
    rw [List.cons_append, List.foldl_cons]
    exact (and_congr_right fun _ => throughout_append is js (step t i)).trans and_assoc.symm

end Transducer
