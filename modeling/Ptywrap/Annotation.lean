import Mathlib.Data.List.Nodup
import Ptywrap.Delimited
import Ptywrap.Printable
import Ptywrap.Runs
/-!
# Annotation — what a line of the screenshot tells of its row

Only backticks are escaped, so a bracket or a parenthesis on the screen may be read as one of the annotation, and blink
has no hint (`renderRow_ambiguous`).  Where no character stands in a place in which it would be read so (`Legible`), the
line determines the row cell by cell (`renderRow_injective`).
-/
namespace Ptywrap

open Delimited (Word)
open RowStyle (ofCell opening)

/-! ## Hints -/

inductive Hint where
  | bold
  | underline
  | reverse
  | fg (color : UInt8)
  | bg (color : UInt8)
deriving DecidableEq, Repr

def Hint.text : Hint → List UInt8
  | bold => ascii "(bold)"
  | underline => ascii "(underline)"
  | reverse => ascii "(reverse)"
  | fg color => ascii "(fg:" ++ ansiToColorName color ++ ascii ")"
  | bg color => ascii "(bg:" ++ ansiToColorName color ++ ascii ")"

def colors : List UInt8 := (List.range 16).map UInt8.ofNat

/-- The hints of the sixteen colours and the flags. -/
def Hint.all : List Hint := [bold, underline, reverse] ++ colors.map fg ++ colors.map bg

def Cell.hints (cell : Cell) : List Hint :=
  (if cell.attrs &&& attrBold ≠ 0 then [Hint.bold] else []) ++
  (if cell.attrs &&& attrUnderline ≠ 0 then [Hint.underline] else []) ++
  (if cell.attrs &&& attrReverse ≠ 0 then [Hint.reverse] else []) ++
  (if cell.fgColor ≠ 7 then [Hint.fg cell.fgColor] else []) ++
  (if cell.bgColor ≠ 0 then [Hint.bg cell.bgColor] else [])

/-- A printable cell in two of the sixteen colours. -/
structure Cell.Basic (cell : Cell) : Prop extends cell.Printable where
  fg : cell.fgColor < 16
  bg : cell.bgColor < 16

/-- A cell that does not blink either: all its attributes have hints. -/
structure Cell.Hinted (cell : Cell) : Prop extends cell.Basic where
  still : cell.attrs &&& attrBlink = 0

instance (cell : Cell) : Decidable cell.Basic :=
  decidable_of_iff (((32 ≤ cell.ch ∧ cell.ch ≤ 126) ∧ cell.attrs &&& ~~~attrFlags = 0) ∧ cell.fgColor < 16 ∧
      cell.bgColor < 16)
    ⟨fun h => ⟨⟨h.1.1, h.1.2⟩, h.2.1, h.2.2⟩, fun h => ⟨⟨h.ch, h.attrs⟩, h.fg, h.bg⟩⟩

instance (cell : Cell) : Decidable cell.Hinted :=
  decidable_of_iff (cell.Basic ∧ cell.attrs &&& attrBlink = 0) ⟨fun h => ⟨h.1, h.2⟩, fun h => ⟨h.toBasic, h.still⟩⟩

theorem hintWords_eq (cell : Cell) : hintWords cell = cell.hints.map Hint.text := by
  unfold hintWords Cell.hints
  simp only [List.map_append, apply_ite (List.map Hint.text), List.map_nil, List.map_cons, Hint.text]

theorem mem_colors {c : UInt8} (h : c < 16) : c ∈ colors :=
  List.mem_map.2 ⟨c.toNat, List.mem_range.2 h, UInt8.ofNat_toNat⟩

theorem hints_subset {cell : Cell} (h : cell.Hinted) : cell.hints ⊆ Hint.all := by
  intro hint hmem
  unfold Cell.hints at hmem
  unfold Hint.all
  have hfg := mem_colors h.fg
  have hbg := mem_colors h.bg
  simp only [List.mem_append, List.mem_ite_nil_right, List.mem_singleton] at hmem
  rcases hmem with (((⟨-, rfl⟩ | ⟨-, rfl⟩) | ⟨-, rfl⟩) | ⟨-, rfl⟩) | ⟨-, rfl⟩
  · exact List.mem_append_left _ (List.mem_append_left _ (by decide))
  · exact List.mem_append_left _ (List.mem_append_left _ (by decide))
  · exact List.mem_append_left _ (List.mem_append_left _ (by decide))
  · exact List.mem_append_left _ (List.mem_append_right _ (List.mem_map_of_mem hfg))
  · exact List.mem_append_right _ (List.mem_map_of_mem hbg)

/-- No two hints have one text. -/
theorem nodup_texts : (Hint.all.map Hint.text).Nodup := by decide +kernel

theorem hints_inj {d e : Cell} (hd : d.Hinted) (he : e.Hinted) (h : hintWords d = hintWords e) :
    ∀ hint, hint ∈ d.hints ↔ hint ∈ e.hints := by
  rw [hintWords_eq, hintWords_eq] at h
  have hone : ∀ {d e : Cell}, d.Hinted → e.Hinted → d.hints.map Hint.text = e.hints.map Hint.text →
      ∀ hint ∈ d.hints, hint ∈ e.hints := by
    intro d e hd he h hint hmem
    have htext : hint.text ∈ e.hints.map Hint.text := h ▸ List.mem_map_of_mem hmem
    obtain ⟨hint', hmem', heq⟩ := List.mem_map.1 htext
    rw [← List.inj_on_of_nodup_map nodup_texts (hints_subset he hmem') (hints_subset hd hmem) heq]
    exact hmem'
  exact fun hint => ⟨hone hd he h hint, hone he hd h.symm hint⟩

theorem bold_mem_hints (cell : Cell) : Hint.bold ∈ cell.hints ↔ cell.attrs &&& attrBold ≠ 0 := by
  simp [Cell.hints]

theorem underline_mem_hints (cell : Cell) : Hint.underline ∈ cell.hints ↔ cell.attrs &&& attrUnderline ≠ 0 := by
  simp [Cell.hints]

theorem reverse_mem_hints (cell : Cell) : Hint.reverse ∈ cell.hints ↔ cell.attrs &&& attrReverse ≠ 0 := by
  simp [Cell.hints]

theorem fg_mem_hints (cell : Cell) (c : UInt8) : Hint.fg c ∈ cell.hints ↔ cell.fgColor ≠ 7 ∧ c = cell.fgColor := by
  simp [Cell.hints]

theorem bg_mem_hints (cell : Cell) (c : UInt8) : Hint.bg c ∈ cell.hints ↔ cell.bgColor ≠ 0 ∧ c = cell.bgColor := by
  simp [Cell.hints]

theorem lt_eight_of_still {x : UInt8} (h : FlagsOnly x) (hstill : x &&& attrBlink = 0) : x.toNat < 8 := by
  have hbytes : ∀ n < 256, UInt8.ofNat n &&& ~~~attrFlags = 0 → UInt8.ofNat n &&& attrBlink = 0 → n < 8 := by
    decide +kernel
  have hx := hbytes x.toNat x.toNat_lt
  rw [UInt8.ofNat_toNat] at hx
  exact hx h hstill

/-- Three flags are told by their bits. -/
theorem flags_inj {x y : UInt8} (hx : x.toNat < 8) (hy : y.toNat < 8) (hbold : x &&& attrBold ≠ 0 ↔ y &&& attrBold ≠ 0)
    (hunderline : x &&& attrUnderline ≠ 0 ↔ y &&& attrUnderline ≠ 0)
    (hreverse : x &&& attrReverse ≠ 0 ↔ y &&& attrReverse ≠ 0) : x = y := by
  have hbits : ∀ m n : Fin 8, (UInt8.ofNat m &&& attrBold ≠ 0 ↔ UInt8.ofNat n &&& attrBold ≠ 0) →
      (UInt8.ofNat m &&& attrUnderline ≠ 0 ↔ UInt8.ofNat n &&& attrUnderline ≠ 0) →
      (UInt8.ofNat m &&& attrReverse ≠ 0 ↔ UInt8.ofNat n &&& attrReverse ≠ 0) → m = n := by decide
  have h := hbits ⟨x.toNat, hx⟩ ⟨y.toNat, hy⟩
  dsimp only at h
  rw [UInt8.ofNat_toNat, UInt8.ofNat_toNat] at h
  exact UInt8.toNat_inj.1 (Fin.mk.inj (h hbold hunderline hreverse))

/-- A colour is told by its hint, and the one without a hint by having none. -/
theorem color_inj (p : UInt8) {x y : UInt8} (h : ∀ c, (x ≠ p ∧ c = x) ↔ (y ≠ p ∧ c = y)) : x = y := by
  by_cases hx : x = p
  · by_cases hy : y = p
    · exact hx.trans hy.symm
    · exact ((h y).2 ⟨hy, rfl⟩).2.symm
  · exact ((h x).1 ⟨hx, rfl⟩).2

/-- **The hints tell the style.** -/
theorem style_of_hintWords {d e : Cell} (hd : d.Hinted) (he : e.Hinted) (h : hintWords d = hintWords e) :
    d.fgColor = e.fgColor ∧ d.bgColor = e.bgColor ∧ d.attrs = e.attrs := by
  have hmem := hints_inj hd he h
  refine ⟨color_inj 7 fun c => ?_, color_inj 0 fun c => ?_, ?_⟩
  · rw [← fg_mem_hints, ← fg_mem_hints]
    exact hmem (.fg c)
  · rw [← bg_mem_hints, ← bg_mem_hints]
    exact hmem (.bg c)
  · apply flags_inj (lt_eight_of_still hd.attrs hd.still) (lt_eight_of_still he.attrs he.still)
    · rw [← bold_mem_hints, ← bold_mem_hints]
      exact hmem .bold
    · rw [← underline_mem_hints, ← underline_mem_hints]
      exact hmem .underline
    · rw [← reverse_mem_hints, ← reverse_mem_hints]
      exact hmem .reverse

/-- Every hint stands in parentheses. -/
theorem word_hint {cell : Cell} (h : cell.Hinted) : ∀ w ∈ hintWords cell, Word 40 41 w := by
  have hall : ∀ hint ∈ Hint.all,
      hint.text = 40 :: (hint.text.tail.dropLast ++ [41]) ∧ 41 ∉ hint.text.tail.dropLast := by decide +kernel
  intro w hw
  rw [hintWords_eq] at hw
  obtain ⟨hint, hmem, rfl⟩ := List.mem_map.1 hw
  exact ⟨_, hall hint (hints_subset h hmem)⟩

/-- A styled cell has a hint. -/
theorem hintWords_ne_nil {cell : Cell} (h : cell.Hinted) (hs : cell.needsStyling = true) : hintWords cell ≠ [] := by
  intro hnil
  have hplain : Cell.Hinted ⟨32, 7, 0, 0⟩ := ⟨⟨⟨by decide, rfl⟩, by decide, by decide⟩, by decide⟩
  have hstyle := (needsStyling_eq_false_iff cell).2 (style_of_hintWords h hplain hnil)
  rw [hs] at hstyle
  cases hstyle

theorem cell_inj {d e : Cell} (hch : d.ch = e.ch) (hfg : d.fgColor = e.fgColor) (hbg : d.bgColor = e.bgColor)
    (hattrs : d.attrs = e.attrs) : d = e := by
  cases d
  cases e
  simp_all

/-! ## Heads -/

theorem escapedChar_head?_ne {b : UInt8} (hb : b ≠ 92) {ch : UInt8} (h : ch ≠ b) (x : List UInt8) :
    (escapedChar ch ++ x).head? ≠ some b := by
  unfold escapedChar
  split
  · exact fun heq => hb (Option.some.inj heq).symm
  · exact fun heq => h (Option.some.inj heq)

/-- A backtick never comes first: its backslash does. -/
theorem escapedChar_head?_backtick (ch : UInt8) (x : List UInt8) : (escapedChar ch ++ x).head? ≠ some 96 := by
  unfold escapedChar
  split
  · exact fun heq => absurd (Option.some.inj heq) (by decide)
  · rename_i h
    exact fun heq => h (Option.some.inj heq)

/-- **A character is read back**, unless the text behind it begins with a backtick. -/
theorem escapedChar_inj {p q : UInt8} {x y : List UInt8} (hx : x.head? ≠ some 96) (hy : y.head? ≠ some 96)
    (h : escapedChar p ++ x = escapedChar q ++ y) : p = q ∧ x = y := by
  unfold escapedChar at h
  by_cases hp : p = 96
  · by_cases hq : q = 96
    · rw [if_pos hp, if_pos hq] at h
      exact ⟨hp.trans hq.symm, (List.cons.inj (List.cons.inj h).2).2⟩
    · rw [if_pos hp, if_neg hq] at h
      have hrest : p :: x = y := (List.cons.inj h).2
      rw [← hrest, hp] at hy
      exact absurd rfl hy
  · by_cases hq : q = 96
    · rw [if_neg hp, if_pos hq] at h
      have hrest : x = q :: y := (List.cons.inj h).2
      rw [hrest, hq] at hx
      exact absurd rfl hx
    · rw [if_neg hp, if_neg hq] at h
      exact List.cons.inj h

theorem opening_of_styled {d : Cell} (h : d.needsStyling = true) : opening d = 91 :: (hintWords d).flatten := by
  unfold opening
  rw [if_pos h, styleHints_eq]
  rfl

theorem opening_of_plain {d : Cell} (h : d.needsStyling = false) : opening d = [] := by
  unfold opening
  rw [h]
  rfl

/-! ## The text from a cell on -/

/-- What a row's line has for the cells behind `c`. -/
def lineAfter (c : Cell) (cells : List Cell) : List UInt8 :=
  styler.outputs (ofCell c) cells ++ (styler.after (ofCell c) cells).close ++ ascii "\n"

/-- What it has for them where no section is open. -/
def lineFrom (d : Cell) (cells : List Cell) : List UInt8 := opening d ++ (escapedChar d.ch ++ lineAfter d cells)

theorem lineAfter_nil (c : Cell) : lineAfter c [] = (ofCell c).close ++ ascii "\n" := rfl

theorem lineAfter_cons (c d : Cell) (cells : List Cell) :
    lineAfter c (d :: cells) = styler.out (ofCell c) d ++ lineAfter d cells := by
  unfold lineAfter
  simp only [Transducer.outputs_cons, Transducer.after_cons, next_ofCell, List.append_assoc]

theorem lineAfter_of_plain {c : Cell} (h : c.needsStyling = false) (d : Cell) (cells : List Cell) :
    lineAfter c (d :: cells) = lineFrom d cells := by
  rw [lineAfter_cons, out_of_plain h, List.append_assoc]
  rfl

theorem lineAfter_of_changed {c d : Cell} (h : c.needsStyling = true) (hs : c.sameStyle d = false)
    (cells : List Cell) : lineAfter c (d :: cells) = 93 :: lineFrom d cells := by
  simp only [lineAfter_cons, out_of_changed hs, close_ofCell, if_pos h, List.append_assoc]
  rfl

theorem lineAfter_of_sameStyle {c d : Cell} (hs : c.sameStyle d = true) (cells : List Cell) :
    lineAfter c (d :: cells) = escapedChar d.ch ++ lineAfter d cells := by
  rw [lineAfter_cons, out_of_sameStyle hs]

theorem lineFrom_of_styled {d : Cell} (h : d.needsStyling = true) (cells : List Cell) :
    lineFrom d cells = 91 :: ((hintWords d).flatten ++ (escapedChar d.ch ++ lineAfter d cells)) := by
  unfold lineFrom
  rw [opening_of_styled h]
  rfl

theorem lineFrom_of_plain {d : Cell} (h : d.needsStyling = false) (cells : List Cell) :
    lineFrom d cells = escapedChar d.ch ++ lineAfter d cells := by
  unfold lineFrom
  rw [opening_of_plain h]
  rfl

theorem lineFrom_head?_ne {b : UInt8} (hb : b ≠ 91) {d : Cell} {cells : List Cell}
    (h : d.needsStyling = false → (escapedChar d.ch ++ lineAfter d cells).head? ≠ some b) :
    (lineFrom d cells).head? ≠ some b := by
  cases hd : d.needsStyling with
  | true =>
    rw [lineFrom_of_styled hd]
    exact fun heq => hb (Option.some.inj heq).symm
  | false =>
    rw [lineFrom_of_plain hd]
    exact h hd

/-- **No text begins with a backtick.** -/
theorem lineAfter_head?_backtick (c : Cell) (cells : List Cell) : (lineAfter c cells).head? ≠ some 96 := by
  cases cells with
  | nil =>
    rw [lineAfter_nil, close_ofCell]
    split <;> decide
  | cons d cells =>
    cases hc : c.needsStyling with
    | false =>
      rw [lineAfter_of_plain hc]
      exact lineFrom_head?_ne (by decide) fun _ => escapedChar_head?_backtick _ _
    | true =>
      cases hs : c.sameStyle d with
      | true =>
        rw [lineAfter_of_sameStyle hs]
        exact escapedChar_head?_backtick _ _
      | false =>
        rw [lineAfter_of_changed hc hs]
        exact fun heq => absurd (Option.some.inj heq) (by decide)

/-! ## Legible rows -/

/-- The second cell's character is not read as annotation: it closes no section, does not stand where hints do, and
makes no opening with a bracket before it. -/
def Legible (c d : Cell) : Prop :=
  (d.needsStyling = true → d.ch ≠ 93) ∧
  (d.needsStyling = true → d.ch = 40 → c.sameStyle d = true) ∧
  (c.needsStyling = false → d.needsStyling = false → c.ch = 91 → d.ch ≠ 40)

instance (c d : Cell) : Decidable (Legible c d) := inferInstanceAs (Decidable (_ ∧ _ ∧ _))

/-- A row begins as behind a blank. -/
def LegibleRow (cells : List Cell) : Prop :=
  (∀ cell ∈ cells, cell.Hinted) ∧ ((⟨32, 7, 0, 0⟩ : Cell) :: cells).IsChain Legible

instance (cells : List Cell) : Decidable (LegibleRow cells) := inferInstanceAs (Decidable (_ ∧ _))

/-- Two rows of one width that the screenshot does not tell apart. -/
def Confused (A B : List Cell) : Prop :=
  A.length = B.length ∧ (∀ cell ∈ A, cell.Basic) ∧ (∀ cell ∈ B, cell.Basic) ∧ renderRow A = renderRow B ∧ A ≠ B

instance (A B : List Cell) : Decidable (Confused A B) := inferInstanceAs (Decidable (_ ∧ _ ∧ _ ∧ _ ∧ _))

/-- Text in one style. -/
def cellsOf (text : String) (attrs : UInt8) : List Cell := (ascii text).map fun ch => ⟨ch, 7, 0, attrs⟩

/-- Behind a bracket outside the sections there is no parenthesis. -/
theorem lineAfter_head?_paren {c : Cell} {cells : List Cell} (h : (c :: cells).IsChain Legible)
    (hplain : c.needsStyling = false) (hch : c.ch = 91) : (lineAfter c cells).head? ≠ some 40 := by
  cases cells with
  | nil =>
    rw [lineAfter_nil, close_ofCell, hplain]
    decide
  | cons d cells =>
    rw [lineAfter_of_plain hplain]
    exact lineFrom_head?_ne (by decide) fun hd =>
      escapedChar_head?_ne (by decide) ((List.isChain_cons_cons.1 h).1.2.2 hplain hd hch) _

/-- An opening is no character. -/
theorem lineFrom_styled_ne_plain {d e : Cell} {A B : List Cell} (hd : d.Hinted) (hs : d.needsStyling = true)
    (hp : e.needsStyling = false) (hB : (e :: B).IsChain Legible) : lineFrom d A ≠ lineFrom e B := by
  intro h
  rw [lineFrom_of_styled hs, lineFrom_of_plain hp] at h
  have hparen : ((hintWords d).flatten ++ (escapedChar d.ch ++ lineAfter d A)).head? = some 40 := by
    cases hw : hintWords d with
    | nil => exact absurd hw (hintWords_ne_nil hd hs)
    | cons w ws =>
      rw [List.flatten_cons, List.append_assoc]
      exact (word_hint hd w (by rw [hw]; exact List.mem_cons_self)).head?_append _
  have hbracket : escapedChar 91 ++ ((hintWords d).flatten ++ (escapedChar d.ch ++ lineAfter d A)) =
      escapedChar e.ch ++ lineAfter e B := h
  obtain ⟨hch, hrest⟩ := escapedChar_inj (by rw [hparen]; decide) (lineAfter_head?_backtick e B) hbracket
  rw [hrest] at hparen
  exact lineAfter_head?_paren hB hp hch.symm hparen

/-- **Where no section is open the next cell is read back.** -/
theorem lineFrom_inj {d e : Cell} {A B : List Cell} (hd : d.Hinted) (he : e.Hinted)
    (hA : (d :: A).IsChain Legible) (hB : (e :: B).IsChain Legible) (hdch : d.needsStyling = true → d.ch ≠ 40)
    (hech : e.needsStyling = true → e.ch ≠ 40) (h : lineFrom d A = lineFrom e B) :
    d = e ∧ lineAfter d A = lineAfter e B := by
  have hstyle : (d.fgColor = e.fgColor ∧ d.bgColor = e.bgColor ∧ d.attrs = e.attrs) ∧
      escapedChar d.ch ++ lineAfter d A = escapedChar e.ch ++ lineAfter e B := by
    cases hds : d.needsStyling with
    | true =>
      cases hes : e.needsStyling with
      | true =>
        rw [lineFrom_of_styled hds, lineFrom_of_styled hes] at h
        obtain ⟨hwords, hrest⟩ := Delimited.flatten_inj (word_hint hd) (word_hint he)
          (escapedChar_head?_ne (by decide) (hdch hds) _) (escapedChar_head?_ne (by decide) (hech hes) _)
          (List.cons.inj h).2
        exact ⟨style_of_hintWords hd he hwords, hrest⟩
      | false => exact absurd h (lineFrom_styled_ne_plain hd hds hes hB)
    | false =>
      cases hes : e.needsStyling with
      | true => exact absurd h.symm (lineFrom_styled_ne_plain he hes hds hA)
      | false =>
        obtain ⟨hdfg, hdbg, hdattrs⟩ := (needsStyling_eq_false_iff d).1 hds
        obtain ⟨hefg, hebg, heattrs⟩ := (needsStyling_eq_false_iff e).1 hes
        rw [lineFrom_of_plain hds, lineFrom_of_plain hes] at h
        exact ⟨⟨hdfg.trans hefg.symm, hdbg.trans hebg.symm, hdattrs.trans heattrs.symm⟩, h⟩
  obtain ⟨⟨hfg, hbg, hattrs⟩, hrest⟩ := hstyle
  obtain ⟨hch, hline⟩ := escapedChar_inj (lineAfter_head?_backtick d A) (lineAfter_head?_backtick e B) hrest
  exact ⟨cell_inj hch hfg hbg hattrs, hline⟩

/-! ## Reading a row -/

/-- The row ends where its line does. -/
theorem lineAfter_ne_end {c d : Cell} {A : List Cell} (h : (c :: d :: A).IsChain Legible) (hd : d.Hinted) :
    lineAfter c (d :: A) ≠ lineAfter c [] := by
  have hnewline : d.ch ≠ 10 := fun hch => absurd hd.ch.1 (by rw [hch]; decide)
  have hfrom : (lineFrom d A).head? ≠ some 10 :=
    lineFrom_head?_ne (by decide) fun _ => escapedChar_head?_ne (by decide) hnewline _
  intro heq
  rw [lineAfter_nil, close_ofCell] at heq
  cases hc : c.needsStyling with
  | false =>
    rw [lineAfter_of_plain hc, hc] at heq
    rw [heq] at hfrom
    exact hfrom rfl
  | true =>
    rw [hc] at heq
    cases hs : c.sameStyle d with
    | false =>
      rw [lineAfter_of_changed hc hs] at heq
      rw [(List.cons.inj heq).2] at hfrom
      exact hfrom rfl
    | true =>
      have hch := (List.isChain_cons_cons.1 h).1.1 ((needsStyling_of_sameStyle hs).symm.trans hc)
      rw [lineAfter_of_sameStyle hs] at heq
      exact escapedChar_head?_ne (by decide) hch _ (congrArg List.head? heq)

/-- A cell of the open section's style is not read as the end of the section. -/
theorem lineAfter_same_ne_changed {c d e : Cell} {A B : List Cell} (h : (c :: d :: A).IsChain Legible)
    (hc : c.needsStyling = true) (hd : c.sameStyle d = true) (he : c.sameStyle e = false) :
    lineAfter c (d :: A) ≠ lineAfter c (e :: B) := by
  intro heq
  have hch := (List.isChain_cons_cons.1 h).1.1 ((needsStyling_of_sameStyle hd).symm.trans hc)
  rw [lineAfter_of_sameStyle hd, lineAfter_of_changed hc he] at heq
  exact escapedChar_head?_ne (by decide) hch _ (congrArg List.head? heq)

theorem legible_start {c d : Cell} {A : List Cell} (h : (c :: d :: A).IsChain Legible)
    (hs : c.sameStyle d = true → c.needsStyling = false) : d.needsStyling = true → d.ch ≠ 40 := by
  intro hd hch
  have hsame := (List.isChain_cons_cons.1 h).1.2.1 hd hch
  have hplain := (needsStyling_of_sameStyle hsame).symm.trans (hs hsame)
  rw [hd] at hplain
  cases hplain

/-- **One cell is read back** behind any cell. -/
theorem lineAfter_cons_inj {c d e : Cell} {A B : List Cell} (hd : d.Hinted) (he : e.Hinted)
    (hA : (c :: d :: A).IsChain Legible) (hB : (c :: e :: B).IsChain Legible)
    (h : lineAfter c (d :: A) = lineAfter c (e :: B)) : d = e ∧ lineAfter d A = lineAfter e B := by
  cases hc : c.needsStyling with
  | false =>
    rw [lineAfter_of_plain hc, lineAfter_of_plain hc] at h
    exact lineFrom_inj hd he hA.tail hB.tail (legible_start hA fun _ => hc) (legible_start hB fun _ => hc) h
  | true =>
    cases hds : c.sameStyle d with
    | true =>
      cases hes : c.sameStyle e with
      | true =>
        rw [lineAfter_of_sameStyle hds, lineAfter_of_sameStyle hes] at h
        obtain ⟨hch, hrest⟩ := escapedChar_inj (lineAfter_head?_backtick d A) (lineAfter_head?_backtick e B) h
        obtain ⟨hdfg, hdbg, hdattrs⟩ := (sameStyle_iff c d).1 hds
        obtain ⟨hefg, hebg, heattrs⟩ := (sameStyle_iff c e).1 hes
        exact ⟨cell_inj hch (hdfg.symm.trans hefg) (hdbg.symm.trans hebg) (hdattrs.symm.trans heattrs), hrest⟩
      | false => exact absurd h (lineAfter_same_ne_changed hA hc hds hes)
    | false =>
      cases hes : c.sameStyle e with
      | true => exact absurd h.symm (lineAfter_same_ne_changed hB hc hes hds)
      | false =>
        rw [lineAfter_of_changed hc hds, lineAfter_of_changed hc hes] at h
        have hdch := legible_start hA fun hs => absurd (hds.symm.trans hs) Bool.false_ne_true
        have hech := legible_start hB fun hs => absurd (hes.symm.trans hs) Bool.false_ne_true
        exact lineFrom_inj hd he hA.tail hB.tail hdch hech (List.cons.inj h).2

/-- **What follows a cell is read back**, cell by cell. -/
theorem lineAfter_inj : ∀ (A B : List Cell) (c : Cell), (∀ cell ∈ A, cell.Hinted) → (∀ cell ∈ B, cell.Hinted) →
    (c :: A).IsChain Legible → (c :: B).IsChain Legible → lineAfter c A = lineAfter c B → A = B
  | [], [], _, _, _, _, _, _ => rfl
  | [], e :: _, _, _, hB, _, hcB, h => absurd h.symm (lineAfter_ne_end hcB (hB e List.mem_cons_self))
  | d :: _, [], _, hA, _, hcA, _, h => absurd h (lineAfter_ne_end hcA (hA d List.mem_cons_self))
  | d :: A, e :: B, c, hA, hB, hcA, hcB, h => by
    obtain ⟨rfl, hrest⟩ := lineAfter_cons_inj (hA d List.mem_cons_self) (hB e List.mem_cons_self) hcA hcB h
    rw [lineAfter_inj A B d (fun cell hm => hA cell (List.mem_cons_of_mem d hm))
      (fun cell hm => hB cell (List.mem_cons_of_mem d hm)) hcA.tail hcB.tail hrest]

/-- **A legible row is determined by its line**: two of them, of any lengths, that the screenshot renders to one text
are equal cell by cell. -/
theorem renderRow_injective {A B : List Cell} (hA : LegibleRow A) (hB : LegibleRow B)
    (h : renderRow A = renderRow B) : A = B :=
  lineAfter_inj A B ⟨32, 7, 0, 0⟩ hA.1 hB.1 hA.2 hB.2 h

/-- Brackets, parentheses and backticks where they may stand. -/
theorem renderRow_injective_legible :
    renderRow (cellsOf "[a](" 0 ++ cellsOf "[`(" attrBold ++ cellsOf "(]" 0) ≠
      renderRow (cellsOf "[a](" 0 ++ cellsOf "[`(" attrReverse ++ cellsOf "(]" 0) :=
  fun h => absurd (renderRow_injective (by decide) (by decide) h) (by decide)

/-- **Nothing in it can be spared**: blink has no hint, a bracket of a section reads as its end, a parenthesis at its
start as a hint, and a bracket with a parenthesis as an opening. -/
theorem renderRow_ambiguous :
    Confused (cellsOf "a" attrBold) (cellsOf "a" (attrBold ||| attrBlink)) ∧
    Confused (cellsOf "a" attrBold ++ cellsOf "b]" 0) (cellsOf "a]b" attrBold) ∧
    Confused (cellsOf "(underline)x" attrBold ++ cellsOf "x" (attrBold ||| attrUnderline))
      (cellsOf "x" (attrBold ||| attrUnderline) ++ cellsOf "(underline)x" attrBold) ∧
    Confused (cellsOf "[(bold)a]" 0 ++ cellsOf "a" attrBold) (cellsOf "a" attrBold ++ cellsOf "[(bold)a]" 0) := by
  decide +kernel

end Ptywrap
