import Ptywrap.Encode
import Ptywrap.Print
/-!
# Utf8 — text that is not ASCII

A cell's character is documented as an ASCII code or the first byte of a UTF-8 sequence, but `terminal_process_bytes`
prints only `32..126`: every byte of a multi-byte sequence is dropped, and with it the character
(`screen_utf8`).  So a text keeps its columns exactly when it is ASCII (`keepsColumns_iff`).
-/
namespace Ptywrap

variable {g : Geometry}

def utf8 (str : List Char) : List UInt8 := str.flatMap String.utf8EncodeChar

/-- The character of the cell that stands for `c`: its ASCII code, or the first byte of its encoding. -/
def cellByte (c : Char) : UInt8 := (String.utf8EncodeChar c).headD 0

/-- Not a control character: none of the two control blocks, nor DEL. -/
def NoControl (c : Char) : Prop := 32 ≤ c.toNat ∧ (c.toNat < 127 ∨ 160 ≤ c.toNat)

instance (c : Char) : Decidable (NoControl c) := by unfold NoControl; exact inferInstance

/-- From every on-screen cursor, after each of its characters and however the bytes are cut, the text has taken one cell
a character. -/
def KeepsColumns (str : List Char) : Prop :=
  ∀ (g : Geometry) (s : Session g), s.screen.InGrid g → s.parser.parseState = .normal →
    ∀ (pre : List Char) (chunks : List (List UInt8)), pre <+: str → chunks.flatten = utf8 pre →
      (chunks.foldl terminalProcessBytes s).screen = (pre.map cellByte).foldl terminalPutChar s.screen

/-! ## Encodings -/

theorem utf8EncodeChar_ascii {c : Char} (h : c.toNat < 128) : String.utf8EncodeChar c = [UInt8.ofNat c.toNat] := by
  unfold String.utf8EncodeChar
  exact if_pos (Nat.le_of_lt_succ h)

theorem cellByte_ascii {c : Char} (h : c.toNat < 128) : cellByte c = UInt8.ofNat c.toNat := by
  unfold cellByte
  rw [utf8EncodeChar_ascii h]
  rfl

theorem isPrintable_cellByte {c : Char} (hc : NoControl c) (h : c.toNat < 128) : isPrintable (cellByte c) = true := by
  obtain ⟨hlow, hhigh⟩ := hc
  rw [cellByte_ascii h, isPrintable_iff, UInt8.le_iff_toNat_le, UInt8.le_iff_toNat_le, UInt8.toNat_ofNat']
  change 32 ≤ c.toNat % 2 ^ 8 ∧ c.toNat % 2 ^ 8 ≤ 126
  omega

/-- **Every byte of a character past ASCII is `128` or more.** -/
theorem utf8EncodeChar_high {c : Char} (h : 128 ≤ c.toNat) : ∀ b ∈ String.utf8EncodeChar c, 128 ≤ b := by
  have hbyte : ∀ n k, n < 64 → 128 ≤ k → k ≤ 192 ∨ n < 8 ∧ k ≤ 240 ∨ n < 16 ∧ k ≤ 224 → 128 ≤ UInt8.ofNat (n + k) := by
    intro n k hn hk hsum
    rw [UInt8.le_iff_toNat_le, UInt8.toNat_ofNat']
    change 128 ≤ (n + k) % 2 ^ 8
    omega
  have hv : ¬ c.val.toNat ≤ 127 := by
    change 128 ≤ c.val.toNat at h
    omega
  intro b hb
  unfold String.utf8EncodeChar at hb
  dsimp only at hb
  rw [if_neg hv] at hb
  split at hb
  · simp only [List.mem_cons, List.not_mem_nil, or_false] at hb
    rcases hb with rfl | rfl
    · exact hbyte _ _ (by omega) (by omega) (by omega)
    · exact hbyte _ _ (by omega) (by omega) (by omega)
  split at hb
  · simp only [List.mem_cons, List.not_mem_nil, or_false] at hb
    rcases hb with rfl | rfl | rfl
    · exact hbyte _ _ (by omega) (by omega) (by omega)
    · exact hbyte _ _ (by omega) (by omega) (by omega)
    · exact hbyte _ _ (by omega) (by omega) (by omega)
  · simp only [List.mem_cons, List.not_mem_nil, or_false] at hb
    rcases hb with rfl | rfl | rfl | rfl
    · exact hbyte _ _ (by omega) (by omega) (by omega)
    · exact hbyte _ _ (by omega) (by omega) (by omega)
    · exact hbyte _ _ (by omega) (by omega) (by omega)
    · exact hbyte _ _ (by omega) (by omega) (by omega)

/-! ## What is printed -/

theorem out_high (p : Parser) (h : p.parseState = .normal) {b : UInt8} (hb : 128 ≤ b) : p.out b = [] ∧ p.next b = p := by
  have hprint : ¬ isPrintable b = true := by
    rw [isPrintable_iff]
    exact fun h => absurd (UInt8.le_trans hb h.2) (by decide)
  have hout := outputs_of_blank_le b p h (UInt8.le_trans (by decide) hb)
  rw [if_neg hprint] at hout
  exact hout

theorem processBytes_high : ∀ (bs : List UInt8) (s : Session g), s.parser.parseState = .normal → (∀ b ∈ bs, 128 ≤ b) →
    terminalProcessBytes s bs = s
  | [], _, _, _ => rfl
  | b :: bs, s, hs, hb => by
    obtain ⟨hout, hnext⟩ := out_high s.parser hs (hb b List.mem_cons_self)
    have hstep : terminalProcessByte s b = s := by
      rw [terminalProcessByte_eq, hout, hnext]
      rfl
    have ih := processBytes_high bs s hs fun x hx => hb x (List.mem_cons_of_mem b hx)
    unfold terminalProcessBytes at ih ⊢
    rw [List.foldl_cons, hstep, ih]

def isAscii (c : Char) : Bool := decide (c.toNat < 128)

/-- **Of a text the ASCII characters are printed, and nothing else.** -/
theorem screen_utf8 : ∀ (str : List Char) (s : Session g), s.parser.parseState = .normal → (∀ c ∈ str, NoControl c) →
    (terminalProcessBytes s (utf8 str)).screen = ((str.filter isAscii).map cellByte).foldl terminalPutChar s.screen
  | [], _, _, _ => rfl
  | c :: str, s, hs, hstr => by
    have htail : ∀ x ∈ str, NoControl x := fun x hx => hstr x (List.mem_cons_of_mem c hx)
    unfold utf8
    rw [List.flatMap_cons, terminalProcessBytes_append]
    by_cases hc : c.toNat < 128
    · have hkeep : isAscii c = true := decide_eq_true hc
      have hprint := isPrintable_cellByte (hstr c List.mem_cons_self) hc
      rw [cellByte_ascii hc] at hprint
      obtain ⟨h1, h2⟩ := screen_printables s hs [UInt8.ofNat c.toNat] fun b hb => by
        rw [List.mem_singleton.1 hb]
        exact hprint
      rw [utf8EncodeChar_ascii hc, List.filter_cons_of_pos hkeep, List.map_cons, List.foldl_cons,
        cellByte_ascii hc]
      refine (screen_utf8 str _ h2 htail).trans ?_
      rw [h1]
      rfl
    · rw [processBytes_high _ s hs (utf8EncodeChar_high (Nat.le_of_not_lt hc)),
        List.filter_cons_of_neg (by unfold isAscii; simpa using hc)]
      exact screen_utf8 str s hs htail

theorem screen_utf8_chunks (s : Session g) (hs : s.parser.parseState = .normal) (str : List Char)
    (hstr : ∀ c ∈ str, NoControl c) (chunks : List (List UInt8)) (hchunks : chunks.flatten = utf8 str) :
    (chunks.foldl terminalProcessBytes s).screen =
      ((str.filter isAscii).map cellByte).foldl terminalPutChar s.screen := by
  rw [foldl_terminalProcessBytes, hchunks]
  exact screen_utf8 str s hs hstr

/-! ## Columns -/

/-- The column on a fresh screen of one row and two columns: the parity of the characters printed. -/
theorem cursorCol_twoColumns (text : List UInt8) :
    (text.foldl terminalPutChar (terminalInit ⟨1, 2, by decide, by decide, by decide⟩).screen).cursorCol =
      ((text.length % 2 : Nat) : Int) := by
  have hcol := (printed_run (terminalInit ⟨1, 2, by decide, by decide, by decide⟩).screen ⟨0, by decide⟩ ⟨0, by decide⟩ rfl
    rfl text).col
  rw [List.length_map] at hcol
  simpa using hcol

/-- **A text keeps its columns exactly when all of it is ASCII.** -/
theorem keepsColumns_iff (str : List Char) (hstr : ∀ c ∈ str, NoControl c) :
    KeepsColumns str ↔ ∀ c ∈ str, c.toNat < 128 := by
  constructor
  · intro h c hc
    refine Classical.byContradiction fun hhigh => ?_
    obtain ⟨before, after, hsplit⟩ := List.append_of_mem hc
    -- one cell more for `c`, none in the code: the parities differ, at `c` or in the text before it
    have hpre : ∀ pre, pre <+: str → (pre.filter isAscii).length % 2 = pre.length % 2 := by
      intro pre hpre
      have hsame := h ⟨1, 2, by decide, by decide, by decide⟩ (terminalInit _) (by decide) rfl pre [utf8 pre] hpre
        (by simp)
      rw [screen_utf8_chunks _ rfl pre (fun x hx => hstr x (hpre.subset hx)) _ (by simp)] at hsame
      have hcol := congrArg (fun t : Screen _ => t.cursorCol) hsame
      simp only [cursorCol_twoColumns, List.length_map] at hcol
      omega
    have hbefore := hpre before ⟨c :: after, hsplit.symm⟩
    have hthrough := hpre (before ++ [c]) ⟨after, by rw [hsplit]; simp⟩
    rw [List.filter_append, List.filter_cons_of_neg (by unfold isAscii; simpa using hhigh), List.filter_nil,
      List.append_nil, List.length_append, List.length_singleton] at hthrough
    omega
  · intro h g s _ hs pre chunks hpre hchunks
    have hascii : pre.filter isAscii = pre :=
      List.filter_eq_self.2 fun c hc => decide_eq_true (h c (hpre.subset hc))
    rw [screen_utf8_chunks s hs pre (fun c hc => hstr c (hpre.subset hc)) chunks hchunks, hascii]

/-- `aé`, of which the second character is lost. -/
theorem keepsColumns_latin : KeepsColumns ['a', 'é'] ↔ ∀ c ∈ ['a', 'é'], c.toNat < 128 :=
  keepsColumns_iff _ (List.forall_mem_cons.2 ⟨by decide, List.forall_mem_singleton.2 (by decide)⟩)

/-- `é` takes no cell. -/
theorem not_keepsColumns : ¬ ∀ str : List Char, (∀ c ∈ str, NoControl c) → KeepsColumns str := by
  intro h
  have hcol := congrArg (fun t : Screen _ => t.cursorCol) (h ['é'] (List.forall_mem_singleton.2 (by decide))
    ⟨2, 4, by decide, by decide, by decide⟩ (terminalInit _) (by decide) rfl ['é'] [utf8 ['é']] (List.prefix_refl _)
    (by simp))
  revert hcol
  decide

end Ptywrap
