import Mathlib.Data.List.Basic
/-!
# Delimited — words that can be told apart

A word begins with one letter, ends with another and has the second one nowhere inside.  A text of such words is cut
into them in one way only, also where more text follows that does not begin as a word does (`flatten_inj`).  A text of
lines is cut into them in one way too, where a line of another kind ends it (`lines_inj`), and a run of letters of one
kind ends where another letter comes (`span_inj`).
-/
namespace Delimited

variable {α : Type*} {a z : α}

def Word (a z : α) (w : List α) : Prop := ∃ body : List α, w = a :: (body ++ [z]) ∧ z ∉ body

/-- **The first end letter ends the body.** -/
theorem body_inj : ∀ {u v x y : List α}, z ∉ u → z ∉ v → u ++ z :: x = v ++ z :: y → u = v ∧ x = y
  | [], [], _, _, _, _, h => ⟨rfl, (List.cons.inj h).2⟩
  | [], b :: v, _, _, _, hv, h => by
    have hb : z = b := (List.cons.inj h).1
    exact absurd (hb ▸ List.mem_cons_self) hv
  | b :: u, [], _, _, hu, _, h => by
    have hb : b = z := (List.cons.inj h).1
    exact absurd (hb ▸ List.mem_cons_self) hu
  | b :: u, c :: v, _, _, hu, hv, h => by
    rw [List.mem_cons, not_or] at hu hv
    obtain ⟨rfl, htail⟩ := List.cons.inj h
    obtain ⟨rfl, rfl⟩ := body_inj hu.2 hv.2 htail
    exact ⟨rfl, rfl⟩

theorem Word.append_inj {w w' x y : List α} (hw : Word a z w) (hw' : Word a z w') (h : w ++ x = w' ++ y) :
    w = w' ∧ x = y := by
  obtain ⟨u, rfl, hu⟩ := hw
  obtain ⟨v, rfl, hv⟩ := hw'
  simp only [List.cons_append, List.append_assoc, List.cons.injEq] at h
  obtain ⟨rfl, rfl⟩ := body_inj hu hv h.2
  exact ⟨rfl, rfl⟩

theorem Word.head?_append {w : List α} (hw : Word a z w) (x : List α) : (w ++ x).head? = some a := by
  obtain ⟨u, rfl, -⟩ := hw
  rfl

/-- **A text of words is cut in one way**, whatever follows it unless that begins as a word does. -/
theorem flatten_inj : ∀ {ws ws' : List (List α)} {x y : List α}, (∀ w ∈ ws, Word a z w) → (∀ w ∈ ws', Word a z w) →
    x.head? ≠ some a → y.head? ≠ some a → ws.flatten ++ x = ws'.flatten ++ y → ws = ws' ∧ x = y
  | [], [], _, _, _, _, _, _, h => ⟨rfl, h⟩
  | [], w' :: ws', x, y, _, hws', hx, _, h => by
    have hhead := (hws' w' List.mem_cons_self).head?_append (ws'.flatten ++ y)
    rw [List.flatten_nil, List.nil_append, List.flatten_cons, List.append_assoc] at h
    rw [h] at hx
    exact absurd hhead hx
  | w :: ws, [], x, y, hws, _, _, hy, h => by
    have hhead := (hws w List.mem_cons_self).head?_append (ws.flatten ++ x)
    rw [List.flatten_nil, List.nil_append, List.flatten_cons, List.append_assoc] at h
    rw [← h] at hy
    exact absurd hhead hy
  | w :: ws, w' :: ws', x, y, hws, hws', hx, hy, h => by
    simp only [List.flatten_cons, List.append_assoc] at h
    obtain ⟨rfl, hrest⟩ := (hws w List.mem_cons_self).append_inj (hws' w' List.mem_cons_self) h
    obtain ⟨rfl, rfl⟩ := flatten_inj (fun v hv => hws v (List.mem_cons_of_mem w hv))
      (fun v hv => hws' v (List.mem_cons_of_mem w hv)) hx hy hrest
    exact ⟨rfl, rfl⟩

/-- **The lines before a closing one are told apart**: each ends with the first end letter after it begins. -/
theorem lines_inj {P : List α → Prop} {u : List α} (hu : z ∉ u) (hclosing : ¬ P u) : ∀ {ws ws' : List (List α)}
    {x y : List α}, (∀ w ∈ ws, ∃ body, w = body ++ [z] ∧ z ∉ body ∧ P body) →
    (∀ w ∈ ws', ∃ body, w = body ++ [z] ∧ z ∉ body ∧ P body) →
    ws.flatten ++ (u ++ z :: x) = ws'.flatten ++ (u ++ z :: y) → ws = ws' ∧ x = y
  | [], [], _, _, _, _, h => ⟨rfl, (body_inj hu hu h).2⟩
  | [], w' :: ws', _, _, _, hws', h => by
    obtain ⟨body, rfl, hbody, hline⟩ := hws' w' List.mem_cons_self
    rw [List.flatten_cons, List.append_assoc, List.append_assoc, List.singleton_append] at h
    exact absurd ((body_inj hu hbody h).1 ▸ hline) hclosing
  | w :: ws, [], _, _, hws, _, h => by
    obtain ⟨body, rfl, hbody, hline⟩ := hws w List.mem_cons_self
    rw [List.flatten_cons, List.append_assoc, List.append_assoc, List.singleton_append] at h
    exact absurd ((body_inj hbody hu h).1 ▸ hline) hclosing
  | w :: ws, w' :: ws', _, _, hws, hws', h => by
    obtain ⟨body, rfl, hbody, -⟩ := hws w List.mem_cons_self
    obtain ⟨body', rfl, hbody', -⟩ := hws' w' List.mem_cons_self
    simp only [List.flatten_cons, List.append_assoc, List.singleton_append] at h
    obtain ⟨rfl, hrest⟩ := body_inj hbody hbody' h
    obtain ⟨rfl, rfl⟩ := lines_inj hu hclosing (fun v hv => hws v (List.mem_cons_of_mem _ hv))
      (fun v hv => hws' v (List.mem_cons_of_mem _ hv)) hrest
    exact ⟨rfl, rfl⟩

theorem span_inj {p : α → Bool} : ∀ {u v x y : List α}, (∀ b ∈ u, p b = true) → (∀ b ∈ v, p b = true) →
    x.head?.any p = false → y.head?.any p = false → u ++ x = v ++ y → u = v ∧ x = y
  | [], [], _, _, _, _, _, _, h => ⟨rfl, h⟩
  | [], b :: v, x, y, _, hv, hx, _, h => by
    rw [List.nil_append] at h
    rw [h, List.cons_append, List.head?_cons, Option.any_some, hv b List.mem_cons_self] at hx
    cases hx
  | b :: u, [], x, y, hu, _, _, hy, h => by
    rw [List.nil_append] at h
    rw [← h, List.cons_append, List.head?_cons, Option.any_some, hu b List.mem_cons_self] at hy
    cases hy
  | b :: u, c :: v, _, _, hu, hv, hx, hy, h => by
    obtain ⟨rfl, htail⟩ := List.cons.inj h
    obtain ⟨rfl, rfl⟩ := span_inj (fun d hd => hu d (List.mem_cons_of_mem b hd))
      (fun d hd => hv d (List.mem_cons_of_mem b hd)) hx hy htail
    exact ⟨rfl, rfl⟩

end Delimited
