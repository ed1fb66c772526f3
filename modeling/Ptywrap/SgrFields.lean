import Ptywrap.Sgr
/-!
# SgrFields — what a parameter list sets, field by field

The current attributes are two colours and eight bits, and a parameter gives each of these fields a value or leaves it
alone, whatever the others are (`field_rendition`).  So a field ends with the value it was given last, and one that was
given none keeps its own (`field_scan`).
-/
namespace Ptywrap

inductive SgrField where
  | fg
  | bg
  | flag (i : Fin 8)
deriving DecidableEq

def Cell.field (a : Cell) : SgrField → Nat
  | .fg => a.fgColor.toNat
  | .bg => a.bgColor.toNat
  | .flag i => (a.attrs.toBitVec[i.val]).toNat

/-- The code that turns a bit of `attrs` on; the upper four have none. -/
def flagOn (i : Fin 8) : Option Int := [1, 4, 7, 5][i.val]?

def flagOff (i : Fin 8) : Option Int := [22, 24, 27, 25][i.val]?

/-- The value a code gives to a field. -/
def sgrSets (x : Int) : SgrField → Option Nat
  | .fg => if x = 0 ∨ x = 39 then some 7 else if 30 ≤ x ∧ x ≤ 37 then some (x - 30).toNat else none
  | .bg => if x = 0 ∨ x = 49 then some 0 else if 40 ≤ x ∧ x ≤ 47 then some (x - 40).toNat else none
  | .flag i => if x = 0 ∨ flagOff i = some x then some 0 else if flagOn i = some x then some 1 else none

/-- The value an indexed colour gives to a field. -/
def indexedSets (x n : Int) (f : SgrField) : Option Nat :=
  if f = (if x = 38 then .fg else .bg) then some (UInt8.ofInt n).toNat else none

/-- The value a parameter list gives to a field last. -/
def settled (f : SgrField) : List Int → Option Nat
  | [] => none
  | [x] => sgrSets x f
  | [x, y] => (sgrSets y f).or (sgrSets x f)
  | x :: y :: n :: rest =>
    if (x = 38 ∨ x = 48) ∧ y = 5 then (settled f rest).or (indexedSets x n f)
    else (settled f (y :: n :: rest)).or (sgrSets x f)

theorem Cell.attrs_eq_of_flags {a b : Cell} (h : ∀ i, a.field (.flag i) = b.field (.flag i)) : a.attrs = b.attrs := by
  apply UInt8.eq_of_toBitVec_eq
  apply BitVec.eq_of_getElem_eq
  intro i hi
  have hbit := h ⟨i, hi⟩
  unfold Cell.field at hbit
  cases ha : a.attrs.toBitVec[i] <;> cases hb : b.attrs.toBitVec[i] <;> simp [ha, hb] at hbit ⊢

theorem Cell.ext_field {a b : Cell} (hch : a.ch = b.ch) (h : ∀ f, a.field f = b.field f) : a = b := by
  have hattrs := Cell.attrs_eq_of_flags fun i => h (.flag i)
  obtain ⟨ch, fg, bg, attrs⟩ := a
  obtain ⟨ch', fg', bg', attrs'⟩ := b
  obtain rfl : ch = ch' := hch
  obtain rfl : fg = fg' := UInt8.toNat_inj.1 (h .fg)
  obtain rfl : bg = bg' := UInt8.toNat_inj.1 (h .bg)
  obtain rfl : attrs = attrs' := hattrs
  rfl

/-! ## One parameter -/

theorem toNat_ofInt {x : Int} (h0 : 0 ≤ x) (h : x < 256) : (UInt8.ofInt x).toNat = x.toNat := by
  unfold UInt8.ofInt
  rw [UInt8.toNat_ofNat']
  omega

/-- The codes that turn bits of `attrs` on: `m` is the mask of those that `x` turns on. -/
theorem field_on (x : Int) (m : UInt8) (a : Cell) (f : SgrField)
    (hon : ∀ i : Fin 8, m.toBitVec[i.val] = decide (flagOn i = some x)) (hoff : ∀ i, ¬ (x = 0 ∨ flagOff i = some x))
    (hfg : sgrSets x .fg = none) (hbg : sgrSets x .bg = none) :
    ({ a with attrs := a.attrs ||| m } : Cell).field f = (sgrSets x f).getD (a.field f) := by
  cases f with
  | fg => rw [hfg]; rfl
  | bg => rw [hbg]; rfl
  | flag i =>
    unfold Cell.field sgrSets
    dsimp only
    rw [UInt8.toBitVec_or, BitVec.getElem_or, hon i, if_neg (hoff i)]
    by_cases h : flagOn i = some x
    · rw [if_pos h, decide_eq_true h, Bool.or_true]
      rfl
    · rw [if_neg h, decide_eq_false h, Bool.or_false]
      rfl

/-- The codes that turn bits of `attrs` off. -/
theorem field_off (x : Int) (m : UInt8) (a : Cell) (f : SgrField)
    (hoff : ∀ i : Fin 8, m.toBitVec[i.val] = decide (x = 0 ∨ flagOff i = some x)) (hon : ∀ i, flagOn i ≠ some x)
    (hfg : sgrSets x .fg = none) (hbg : sgrSets x .bg = none) :
    ({ a with attrs := a.attrs &&& ~~~m } : Cell).field f = (sgrSets x f).getD (a.field f) := by
  cases f with
  | fg => rw [hfg]; rfl
  | bg => rw [hbg]; rfl
  | flag i =>
    unfold Cell.field sgrSets
    dsimp only
    rw [UInt8.toBitVec_and, UInt8.toBitVec_not, BitVec.getElem_and, BitVec.getElem_not, hoff i, if_neg (hon i)]
    by_cases h : x = 0 ∨ flagOff i = some x
    · rw [if_pos h, decide_eq_true h, Bool.not_true, Bool.and_false]
      rfl
    · rw [if_neg h, decide_eq_false h, Bool.not_false, Bool.and_true]
      rfl

theorem flagOn_mem (i : Fin 8) (x : Int) (h : flagOn i = some x) : x ∈ [1, 4, 7, 5] := List.mem_of_getElem? h

theorem flagOff_mem (i : Fin 8) (x : Int) (h : flagOff i = some x) : x ∈ [22, 24, 27, 25] := List.mem_of_getElem? h

/-- A parameter that is no code of the bits leaves them alone. -/
theorem sgrSets_flag_of_not_mem {x : Int} (h : x ∉ [0, 1, 4, 7, 5, 22, 24, 27, 25]) (i : Fin 8) :
    sgrSets x (.flag i) = none := by
  unfold sgrSets
  dsimp only
  rw [if_neg, if_neg]
  · exact fun hon => h (List.mem_cons_of_mem 0 (List.mem_append_left [22, 24, 27, 25] (flagOn_mem i x hon)))
  · rintro (rfl | hoff)
    · exact h List.mem_cons_self
    · exact h (List.mem_append_right [0, 1, 4, 7, 5] (flagOff_mem i x hoff))

/-- **A parameter gives each field its value, or leaves it alone.** -/
theorem field_rendition (x : Int) (a : Cell) (f : SgrField) :
    (rendition x a).field f = (sgrSets x f).getD (a.field f) := by
  by_cases h0 : x = 0
  · subst h0
    cases f with
    | fg => rfl
    | bg => rfl
    | flag i => simp [rendition, sgrReset, Cell.field, sgrSets]
  by_cases h1 : x = 1
  · subst h1; exact field_on 1 attrBold a f (by decide) (by decide) rfl rfl
  by_cases h4 : x = 4
  · subst h4; exact field_on 4 attrUnderline a f (by decide) (by decide) rfl rfl
  by_cases h5 : x = 5
  · subst h5; exact field_on 5 attrBlink a f (by decide) (by decide) rfl rfl
  by_cases h7 : x = 7
  · subst h7; exact field_on 7 attrReverse a f (by decide) (by decide) rfl rfl
  by_cases h22 : x = 22
  · subst h22; exact field_off 22 attrBold a f (by decide) (by decide) rfl rfl
  by_cases h24 : x = 24
  · subst h24; exact field_off 24 attrUnderline a f (by decide) (by decide) rfl rfl
  by_cases h25 : x = 25
  · subst h25; exact field_off 25 attrBlink a f (by decide) (by decide) rfl rfl
  by_cases h27 : x = 27
  · subst h27; exact field_off 27 attrReverse a f (by decide) (by decide) rfl rfl
  -- the rest are colours
  have hflags : x ∉ [0, 1, 4, 7, 5, 22, 24, 27, 25] := by simp [h0, h1, h4, h7, h5, h22, h24, h27, h25]
  unfold rendition
  rw [if_neg h0, if_neg h1, if_neg h4, if_neg h5, if_neg h7, if_neg h22, if_neg h24, if_neg h25, if_neg h27]
  cases f with
  | flag i =>
    rw [sgrSets_flag_of_not_mem hflags]
    split
    · rfl
    split
    · rfl
    split
    · rfl
    split <;> rfl
  | fg =>
    unfold sgrSets
    simp only [h0, false_or]
    split
    · rename_i h
      rw [if_neg (by omega)]
      exact toNat_ofInt (by omega) (by omega)
    split
    · rfl
    split
    · rfl
    split <;> rfl
  | bg =>
    unfold sgrSets
    simp only [h0, false_or]
    split
    · rename_i h
      rw [if_neg (by omega), if_neg (by omega)]
      rfl
    split
    · rename_i h
      rw [if_neg (by omega), if_neg (by omega)]
      rfl
    split
    · rename_i h
      rw [if_neg (by omega)]
      exact toNat_ofInt (by omega) (by omega)
    split <;> rfl

theorem field_indexed (x n : Int) (a : Cell) (f : SgrField) :
    (indexed x n a).field f = (indexedSets x n f).getD (a.field f) := by
  unfold indexed indexedSets
  by_cases h : x = 38
  · rw [if_pos h, if_pos h]
    cases f <;> rfl
  · rw [if_neg h, if_neg h]
    cases f <;> rfl

/-! ## A parameter list -/

/-- **A field has the value the list gave it last**, or its own. -/
theorem field_scan (f : SgrField) (l : List Int) (a : Cell) :
    (scan l a).field f = (settled f l).getD (a.field f) := by
  induction l, a using scan.induct with
  | case1 a => rfl
  | case2 x a => exact field_rendition x a f
  | case3 x y a =>
    simp only [scan, settled, field_rendition]
    cases sgrSets y f <;> rfl
  | case4 x y n rest a h ih =>
    simp only [scan, settled, if_pos h, ih, field_indexed]
    cases settled f rest <;> rfl
  | case5 x y n rest a h ih =>
    simp only [scan, settled, if_neg h, ih, field_rendition]
    cases settled f (y :: n :: rest) <;> rfl

theorem ch_rendition (x : Int) (a : Cell) : (rendition x a).ch = a.ch := by
  unfold rendition sgrReset
  simp only [apply_ite Cell.ch, ite_self]

end Ptywrap
