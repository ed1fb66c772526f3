import Mathlib.Data.List.Flatten
import Ptywrap.Encode
import Ptywrap.SgrFields
/-!
# SgrLists — SGR parameter lists put together

A list that the scan reads to its end, no colour group being cut short by it, does the same in front of more parameters
(`executeSgr_append`).  An indexed colour takes its operands with it; a direct colour is not known, so that its operands
are parameters like any other (`executeSgr_groups`).
-/
namespace Ptywrap

theorem values_intArgs (vs : List Int) (hlen : vs.length ≤ 16) : (intArgs vs).values = vs := by
  unfold CsiArgs.values
  apply List.ext_getElem
  · simp [intArgs]
  · intro i h1 h2
    rw [List.getElem_map, List.getElem_range]
    unfold intArgs CsiArgs.param slots
    dsimp only
    rw [RowMajor.getD_of_lt _ i 0 (Nat.lt_of_lt_of_le h2 hlen), Vector.getElem_ofFn]
    exact (List.getElem_eq_getD 0).symm

theorem executeSgr_intArgs (vs : List Int) (a : Cell) (hne : vs ≠ []) (hlen : vs.length ≤ 16) :
    executeSgr (intArgs vs) a = scan vs a := by
  rw [executeSgr_eq_scan _ _ (fun h => hne (List.length_eq_zero_iff.1 h)), values_intArgs vs hlen]

/-! ## The seam of two lists -/

/-- The scan comes to no `38` or `48` with fewer than two values after it. -/
def closed : List Int → Bool
  | [] => true
  | [x] => decide (¬ (x = 38 ∨ x = 48))
  | [x, y] => decide (¬ (x = 38 ∨ x = 48)) && decide (¬ (y = 38 ∨ y = 48))
  | x :: y :: n :: rest => if (x = 38 ∨ x = 48) ∧ y = 5 then closed rest else closed (y :: n :: rest)

/-- **A closed list is scanned up to its end, whatever follows.** -/
theorem scan_append (p q : List Int) (a : Cell) (h : closed p = true) : scan (p ++ q) a = scan q (scan p a) := by
  induction p, a using scan.induct with
  | case1 a => rfl
  | case2 x a =>
    unfold closed at h
    exact scan_cons x q a fun hx => absurd hx (of_decide_eq_true h)
  | case3 x y a =>
    unfold closed at h
    rw [Bool.and_eq_true, decide_eq_true_eq, decide_eq_true_eq] at h
    rw [List.cons_append, scan_cons x _ a fun hx => absurd hx h.1]
    exact scan_cons y q _ fun hy => absurd hy h.2
  | case4 x y n rest a hgroup ih =>
    rw [closed, if_pos hgroup] at h
    rw [scan, if_pos hgroup, ← ih h, List.cons_append, List.cons_append, List.cons_append, scan, if_pos hgroup]
  | case5 x y n rest a hgroup ih =>
    rw [closed, if_neg hgroup] at h
    rw [scan, if_neg hgroup, ← ih h, List.cons_append, List.cons_append, List.cons_append, scan, if_neg hgroup]

/-- **SGR lists compose at a closed seam.** -/
theorem executeSgr_append (p q : List Int) (a : Cell) (hp : p ≠ []) (hclosed : closed p = true) (hq : q ≠ [])
    (hlen : p.length + q.length ≤ 16) :
    executeSgr (intArgs (p ++ q)) a = executeSgr (intArgs q) (executeSgr (intArgs p) a) := by
  rw [executeSgr_intArgs (p ++ q) a (List.append_ne_nil_of_left_ne_nil hp q) (by rwa [List.length_append]),
    executeSgr_intArgs p a hp (by omega), executeSgr_intArgs q _ hq (by omega)]
  exact scan_append p q a hclosed

/-- `38;5;38` in front of `48;5;1;4`. -/
theorem executeSgr_append_groups :
    executeSgr (intArgs ([38, 5, 38] ++ [48, 5, 1, 4])) ⟨0, 7, 0, 0⟩ =
      executeSgr (intArgs [48, 5, 1, 4]) (executeSgr (intArgs [38, 5, 38]) ⟨0, 7, 0, 0⟩) :=
  executeSgr_append [38, 5, 38] [48, 5, 1, 4] ⟨0, 7, 0, 0⟩ (by decide) (by decide) (by decide) (by decide)

/-! ## Colour groups -/

inductive Ground where
  | fg
  | bg
deriving DecidableEq

def Ground.introducer : Ground → Int
  | .fg => 38
  | .bg => 48

def Ground.field : Ground → SgrField
  | .fg => .fg
  | .bg => .bg

/-- What an SGR list is written from. -/
inductive SgrItem where
  | code (x : Int) (h : ¬ (x = 38 ∨ x = 48))
  | indexed (gr : Ground) (n : Fin 256)
  | direct (gr : Ground) (r g b : Fin 256)

namespace SgrItem

def values : SgrItem → List Int
  | code x _ => [x]
  | indexed gr n => [gr.introducer, 5, (n.val : Int)]
  | direct gr r g b => [gr.introducer, 2, (r.val : Int), (g.val : Int), (b.val : Int)]

def operands : SgrItem → List Int
  | direct _ r g b => [(r.val : Int), (g.val : Int), (b.val : Int)]
  | _ => []

def isCode : SgrItem → Bool
  | code _ _ => true
  | _ => false

def isGroup (gr : Ground) : SgrItem → Bool
  | code _ _ => false
  | indexed gr' _ => gr = gr'
  | direct gr' _ _ _ => gr = gr'

/-- The item with a direct colour's introducer taken away. -/
def scanned : SgrItem → List Int
  | direct _ r g b => [(r.val : Int), (g.val : Int), (b.val : Int)]
  | item => item.values

/-- What the scan of an item does. -/
def effect (a : Cell) : SgrItem → Cell
  | code x _ => rendition x a
  | indexed gr n => Ptywrap.indexed gr.introducer (n.val : Int) a
  | direct _ r g b => rendition (b.val : Int) (rendition (g.val : Int) (rendition (r.val : Int) a))

end SgrItem

/-- The values `execute_sgr` has a branch for. -/
def isSgrCode (x : Int) : Bool := decide (x ∈ [0, 1, 4, 5, 7, 22, 24, 25, 27]) || decide (30 ≤ x ∧ x ≤ 49)

/-- What remains of a list, executed; when nothing does, the attributes stay as they are. -/
def executeRemaining (items : List SgrItem) (a : Cell) : Cell :=
  if items.isEmpty then a else executeSgr (intArgs (items.flatMap SgrItem.values)) a

/-- Bold, underline, blink and reverse. -/
def renditionBits (a : Cell) : UInt8 := a.attrs &&& (attrBold ||| attrUnderline ||| attrBlink ||| attrReverse)

/-- The groups are not read as renditions: the four bits are those the list without them gives, and a group leaves the
other ground alone. -/
def GroupsApart (items : List SgrItem) (a : Cell) : Prop :=
  let after := executeSgr (intArgs (items.flatMap SgrItem.values)) a
  renditionBits after = renditionBits (executeRemaining (items.filter SgrItem.isCode) a) ∧
  after.bgColor = (executeRemaining (items.filter fun i => !i.isGroup .fg) a).bgColor ∧
  after.fgColor = (executeRemaining (items.filter fun i => !i.isGroup .bg) a).fgColor

theorem introducer_iff (gr : Ground) : gr.introducer = 38 ∨ gr.introducer = 48 := by
  cases gr with
  | fg => exact .inl rfl
  | bg => exact .inr rfl

theorem rendition_introducer (gr : Ground) (a : Cell) : rendition gr.introducer a = a := by
  cases gr <;> rfl

theorem rendition_of_not_code {x : Int} (h : isSgrCode x = false) (a : Cell) : rendition x a = a := by
  unfold isSgrCode at h
  simp only [List.mem_cons, List.not_mem_nil, or_false, Bool.or_eq_false_iff, decide_eq_false_iff_not, not_or] at h
  obtain ⟨⟨h0, h1, h4, h5, h7, h22, h24, h25, h27⟩, hcolour⟩ := h
  unfold rendition
  rw [if_neg h0, if_neg h1, if_neg h4, if_neg h5, if_neg h7, if_neg h22, if_neg h24, if_neg h25, if_neg h27,
    if_neg (by omega), if_neg (by omega), if_neg (by omega), if_neg (by omega)]

/-- **The scan comes to the end of each item**, when no operand of a direct colour starts a group itself. -/
theorem scan_item (item : SgrItem) (rest : List Int) (a : Cell)
    (h : ∀ x ∈ item.operands, ¬ (x = 38 ∨ x = 48)) :
    scan (item.values ++ rest) a = scan rest (item.effect a) ∧ scan (item.scanned ++ rest) a = scan rest (item.effect a) := by
  have hplain : ∀ (x : Int) (l : List Int) (b : Cell), ¬ (x = 38 ∨ x = 48) → scan (x :: l) b = scan l (rendition x b) :=
    fun x l b hx => scan_cons x l b fun hx' => absurd hx' hx
  cases item with
  | code x hx => exact ⟨hplain x rest a hx, hplain x rest a hx⟩
  | indexed gr n => exact ⟨scan_indexed _ _ rest a (introducer_iff gr), scan_indexed _ _ rest a (introducer_iff gr)⟩
  | direct gr r g b =>
    unfold SgrItem.operands at h
    simp only [List.forall_mem_cons] at h
    obtain ⟨hr, hg, hb, -⟩ := h
    have hoperands : ∀ c, scan ([(r.val : Int), (g.val : Int), (b.val : Int)] ++ rest) c =
        scan rest (rendition b.val (rendition g.val (rendition r.val c))) := fun c => by
      rw [List.cons_append, List.cons_append, List.cons_append, List.nil_append, hplain _ _ _ hr, hplain _ _ _ hg,
        hplain _ _ _ hb]
    refine ⟨?_, hoperands a⟩
    -- the introducer and the `2` are no codes
    have hlead : scan ((SgrItem.direct gr r g b).values ++ rest) a =
        scan ([(r.val : Int), (g.val : Int), (b.val : Int)] ++ rest) (rendition 2 (rendition gr.introducer a)) := by
      unfold SgrItem.values
      rw [List.cons_append, scan_cons _ _ _ fun _ n tail he => by simp at he, List.cons_append, hplain 2 _ _ (by decide)]
    rw [hlead, rendition_introducer, rendition_of_not_code (by decide), hoperands]
    rfl

theorem scan_items : ∀ (items : List SgrItem) (a : Cell),
    (∀ item ∈ items, ∀ x ∈ item.operands, ¬ (x = 38 ∨ x = 48)) →
    scan (items.flatMap SgrItem.values) a = items.foldl SgrItem.effect a ∧
      scan (items.flatMap SgrItem.scanned) a = items.foldl SgrItem.effect a
  | [], _, _ => ⟨rfl, rfl⟩
  | item :: items, a, h => by
    obtain ⟨h1, h2⟩ := scan_item item (items.flatMap SgrItem.values) a (h item List.mem_cons_self)
    obtain ⟨-, h3⟩ := scan_item item (items.flatMap SgrItem.scanned) a (h item List.mem_cons_self)
    obtain ⟨ih1, ih2⟩ := scan_items items (item.effect a) fun i hi => h i (List.mem_cons_of_mem item hi)
    simp only [List.flatMap_cons, h1, h3, ih1, ih2]
    exact ⟨rfl, rfl⟩

theorem field_effect_congr (item : SgrItem) (f : SgrField) {a b : Cell} (h : a.field f = b.field f) :
    (item.effect a).field f = (item.effect b).field f := by
  cases item with
  | code x _ => exact (field_rendition x a f).trans (by rw [h]; exact (field_rendition x b f).symm)
  | indexed gr n => exact (field_indexed _ _ a f).trans (by rw [h]; exact (field_indexed _ _ b f).symm)
  | direct gr r g b' =>
    unfold SgrItem.effect
    simp only [field_rendition, h]

/-- **Items that leave a field alone can be dropped**, as far as that field goes. -/
theorem foldl_effect_filter (f : SgrField) (keep : SgrItem → Bool) : ∀ (items : List SgrItem) (a b : Cell),
    (∀ item ∈ items, keep item = false → ∀ c, (item.effect c).field f = c.field f) → a.field f = b.field f →
    (items.foldl SgrItem.effect a).field f = ((items.filter keep).foldl SgrItem.effect b).field f
  | [], _, _, _, h => h
  | item :: items, a, b, hdrop, h => by
    have hrest : ∀ i ∈ items, keep i = false → ∀ c, (i.effect c).field f = c.field f :=
      fun i hi => hdrop i (List.mem_cons_of_mem item hi)
    rw [List.foldl_cons, List.filter_cons]
    split
    · rw [List.foldl_cons]
      exact foldl_effect_filter f keep items _ _ hrest (field_effect_congr item f h)
    · rename_i hkeep
      have hsame := hdrop item List.mem_cons_self (by simpa using hkeep) a
      exact foldl_effect_filter f keep items _ _ hrest (hsame.trans h)

theorem effect_direct_of_not_code (gr : Ground) (r g b : Fin 256) (a : Cell)
    (h : ∀ x ∈ (SgrItem.direct gr r g b).operands, isSgrCode x = false) : (SgrItem.direct gr r g b).effect a = a := by
  unfold SgrItem.operands at h
  simp only [List.forall_mem_cons] at h
  obtain ⟨hr, hg, hb, -⟩ := h
  unfold SgrItem.effect
  dsimp only
  rw [rendition_of_not_code hr, rendition_of_not_code hg, rendition_of_not_code hb]

/-- A group whose operands are no codes gives nothing to a field that is not its ground. -/
theorem field_effect_group (item : SgrItem) (f : SgrField) (hcode : item.isCode = false)
    (h : ∀ x ∈ item.operands, isSgrCode x = false) (hf : ∀ gr, item.isGroup gr = true → f ≠ gr.field) (a : Cell) :
    (item.effect a).field f = a.field f := by
  cases item with
  | code x _ => cases hcode
  | indexed gr n =>
    refine (field_indexed gr.introducer n.val a f).trans ?_
    unfold indexedSets
    rw [if_neg]
    · rfl
    · have := hf gr (decide_eq_true rfl)
      cases gr <;> exact this
  | direct gr r g b => rw [effect_direct_of_not_code gr r g b a h]

theorem SgrItem.flatMap_ne_nil {f : SgrItem → List Int} (hf : ∀ item, f item ≠ []) {items : List SgrItem}
    (h : items ≠ []) : items.flatMap f ≠ [] := by
  intro hnil
  obtain ⟨item, hitem⟩ := List.exists_mem_of_ne_nil items h
  exact hf item (List.flatMap_eq_nil_iff.1 hnil item hitem)

theorem SgrItem.values_ne_nil (item : SgrItem) : item.values ≠ [] := by
  cases item <;> exact List.cons_ne_nil _ _

theorem SgrItem.scanned_ne_nil (item : SgrItem) : item.scanned ≠ [] := by
  cases item <;> exact List.cons_ne_nil _ _

theorem executeRemaining_eq (items : List SgrItem) (a : Cell) (hlen : (items.flatMap SgrItem.values).length ≤ 16)
    (h : ∀ item ∈ items, ∀ x ∈ item.operands, ¬ (x = 38 ∨ x = 48)) :
    executeRemaining items a = items.foldl SgrItem.effect a := by
  unfold executeRemaining
  cases items with
  | nil => rfl
  | cons item items =>
    have hne := SgrItem.flatMap_ne_nil SgrItem.values_ne_nil (List.cons_ne_nil item items)
    rw [List.isEmpty_cons, if_neg Bool.false_ne_true, executeSgr_intArgs _ a hne hlen]
    exact (scan_items _ a h).1

/-- **Dropping items that leave a field alone leaves it as it is.** -/
theorem field_executeRemaining_filter (items : List SgrItem) (a : Cell) (f : SgrField) (keep : SgrItem → Bool)
    (hlen : (items.flatMap SgrItem.values).length ≤ 16)
    (h : ∀ item ∈ items, ∀ x ∈ item.operands, isSgrCode x = false)
    (hdrop : ∀ item, keep item = false → item.isCode = false ∧ ∀ gr, item.isGroup gr = true → f ≠ gr.field) :
    (executeRemaining items a).field f = (executeRemaining (items.filter keep) a).field f := by
  have hintro : ∀ x, isSgrCode x = false → ¬ (x = 38 ∨ x = 48) := by
    rintro x hx (rfl | rfl) <;> revert hx <;> decide
  have hsub : (items.filter keep).Sublist items := List.filter_sublist
  rw [executeRemaining_eq items a hlen fun i hi x hx => hintro x (h i hi x hx),
    executeRemaining_eq _ a (Nat.le_trans (hsub.flatMap _).length_le hlen)
      fun i hi x hx => hintro x (h i (hsub.mem hi) x hx)]
  exact foldl_effect_filter f keep items a a
    (fun item hi hkeep c => field_effect_group item f (hdrop item hkeep).1 (h item hi) (hdrop item hkeep).2 c) rfl

/-- **With no code among the operands** the groups and the codes keep out of each other's fields. -/
theorem groupsApart_of_no_code (items : List SgrItem) (a : Cell) (hne : items ≠ [])
    (hlen : (items.flatMap SgrItem.values).length ≤ 16)
    (h : ∀ item ∈ items, ∀ x ∈ item.operands, isSgrCode x = false) : GroupsApart items a := by
  have hafter : executeSgr (intArgs (items.flatMap SgrItem.values)) a = executeRemaining items a := by
    unfold executeRemaining
    rw [if_neg (by simpa using hne)]
  have hgroup : ∀ (gr : Ground) (item : SgrItem), (!item.isGroup gr) = false →
      item.isCode = false ∧ ∀ gr', item.isGroup gr' = true → gr' = gr := by
    intro gr item hitem
    cases item with
    | code x _ => cases hitem
    | indexed gr' n => simp_all [SgrItem.isGroup, SgrItem.isCode]
    | direct gr' r g b => simp_all [SgrItem.isGroup, SgrItem.isCode]
  unfold GroupsApart
  rw [hafter]
  refine ⟨?_, ?_, ?_⟩
  · have hattrs := Cell.attrs_eq_of_flags fun i => field_executeRemaining_filter items a (.flag i) SgrItem.isCode hlen h
      fun item hi => ⟨hi, fun gr _ he => by cases gr <;> cases he⟩
    unfold renditionBits
    rw [hattrs]
  · refine UInt8.toNat_inj.1 (field_executeRemaining_filter items a .bg _ hlen h fun item hi => ?_)
    refine ⟨(hgroup .fg item hi).1, fun gr hgr he => ?_⟩
    rw [(hgroup .fg item hi).2 gr hgr] at he
    cases he
  · refine UInt8.toNat_inj.1 (field_executeRemaining_filter items a .fg _ hlen h fun item hi => ?_)
    refine ⟨(hgroup .bg item hi).1, fun gr hgr he => ?_⟩
    rw [(hgroup .bg item hi).2 gr hgr] at he
    cases he

/-- **With no introducer among the operands** a direct colour's are scanned as parameters of their own. -/
theorem executeSgr_scanned (items : List SgrItem) (a : Cell) (hne : items ≠ [])
    (hlen : (items.flatMap SgrItem.values).length ≤ 16)
    (h : ∀ item ∈ items, ∀ x ∈ item.operands, ¬ (x = 38 ∨ x = 48)) :
    executeSgr (intArgs (items.flatMap SgrItem.values)) a =
      executeSgr (intArgs (items.flatMap SgrItem.scanned)) a := by
  obtain ⟨h1, h2⟩ := scan_items items a h
  have hvalues := SgrItem.flatMap_ne_nil SgrItem.values_ne_nil hne
  have hscanned := SgrItem.flatMap_ne_nil SgrItem.scanned_ne_nil hne
  have hshort : (items.flatMap SgrItem.scanned).length ≤ (items.flatMap SgrItem.values).length := by
    refine (List.Sublist.flatMap_right items fun item _ => ?_).length_le
    cases item with
    | code x _ => exact List.Sublist.refl _
    | indexed gr n => exact List.Sublist.refl _
    | direct gr r g b => exact ((List.Sublist.refl _).cons 2).cons gr.introducer
  rw [executeSgr_intArgs _ a hvalues hlen, executeSgr_intArgs _ a hscanned (Nat.le_trans hshort hlen), h1, h2]

/-- **Colour groups are not read as renditions** as long as no operand of a direct colour is a code.  The direct colours
are not known: their operands are scanned like parameters of their own. -/
theorem executeSgr_groups (items : List SgrItem) (a : Cell) (hne : items ≠ [])
    (hlen : (items.flatMap SgrItem.values).length ≤ 16) :
    ((∀ item ∈ items, ∀ x ∈ item.operands, isSgrCode x = false) → GroupsApart items a) ∧
    ((∀ item ∈ items, ∀ x ∈ item.operands, ¬ (x = 38 ∨ x = 48)) →
      executeSgr (intArgs (items.flatMap SgrItem.values)) a =
        executeSgr (intArgs (items.flatMap SgrItem.scanned)) a) :=
  ⟨groupsApart_of_no_code items a hne hlen, executeSgr_scanned items a hne hlen⟩

/-- `1;48;2;200;100;20;38;5;4`, where the direct colour does nothing, and `38;2;1;4;7`, where it does. -/
theorem executeSgr_groups_mixed :
    GroupsApart [.code 1 (by decide), .direct .bg 200 100 20, .indexed .fg 4] ⟨0, 7, 0, 0⟩ ∧
      executeSgr (intArgs ([SgrItem.direct .fg 1 4 7].flatMap SgrItem.values)) ⟨0, 7, 0, 0⟩ =
        executeSgr (intArgs ([SgrItem.direct .fg 1 4 7].flatMap SgrItem.scanned)) ⟨0, 7, 0, 0⟩ :=
  ⟨(executeSgr_groups _ _ (List.cons_ne_nil _ _) (by decide)).1 (by decide),
    (executeSgr_groups _ _ (List.cons_ne_nil _ _) (by decide)).2 (by decide)⟩

/-- `38;2;10;20;1` turns bold on. -/
theorem executeSgr_groups_direct :
    ¬ ∀ (items : List SgrItem) (a : Cell), items ≠ [] → (items.flatMap SgrItem.values).length ≤ 16 →
      GroupsApart items a := by
  intro h
  have hbits := (h [.direct .fg 10 20 1] ⟨0, 7, 0, 0⟩ (List.cons_ne_nil _ _) (by decide)).1
  revert hbits
  decide

end Ptywrap
