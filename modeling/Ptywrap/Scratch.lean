import Ptywrap.Contain
import Ptywrap.Encode
/-!
# Scratch — the parameter array while a sequence is read

`ESC [` clears the sixteen parameters and their count, a digit accumulates into the slot that the count names, `;` moves
the count on but holds it at fifteen, and the terminator lets it go one further.  What a byte stream leaves of them in
each parse state is `Scratch`, kept by every byte (`scratch_next`): no slot outside the array is written or read, and one
that the sequence did not write reads as zero (`scratch_run`).

The slots are counted here and not taken from the array, which answers zero outside itself.  That they are all a byte
changes and all a command looks at are `param_next_of_slots` and `parserExecuteCsi_of_slots`.
-/
namespace Ptywrap

variable {g : Geometry}

/-! ## Slots -/

/-- The slot that a byte reads and writes: the digit branch's. -/
def Parser.digitSlots (p : Parser) (ch : UInt8) : List Nat :=
  match p.parseState with
  | .normal | .esc => []
  | .csi | .csiParam => if isDigit ch then [p.csiParamCount] else []

/-- The slots written since `ESC [`. -/
def Parser.writtenNext (p : Parser) (written : List Nat) (ch : UInt8) : List Nat :=
  if p.parseState = .esc ∧ ch = 91 then [] else written ++ p.digitSlots ch

def Parser.writtenAfter (p : Parser) (written : List Nat) : List UInt8 → List Nat
  | [] => written
  | ch :: bs => (p.next ch).writtenAfter (p.writtenNext written ch) bs

/-- The slot that `arg` reads. -/
def CsiArgs.argSlots (p : CsiArgs) (i : Nat) : List Nat := if i < p.csiParamCount then [i] else []

/-- What a round of `execute_sgr` reads: its parameter, and of an extended colour first the mode and then the number. -/
def sgrStepSlots (p : CsiArgs) (i : Nat) : List Nat :=
  i :: (if (p.param i = 38 ∨ p.param i = 48) ∧ i + 2 < p.csiParamCount then
    (i + 1) :: (if p.param (i + 1) = 5 then [i + 2] else []) else [])

def sgrLoopSlots (p : CsiArgs) : Nat → Nat → List Nat
  | 0, _ => []
  | fuel + 1, i => if i < p.csiParamCount then sgrStepSlots p i ++ sgrLoopSlots p fuel (sgrNext p i) else []

/-- The slots that `parser_execute_csi` reads. -/
def csiSlots (p : CsiArgs) (cmd : UInt8) : List Nat :=
  if cmd = 109 then sgrLoopSlots p p.csiParamCount 0
  else if cmd = 65 ∨ cmd = 66 ∨ cmd = 67 ∨ cmd = 68 then p.argSlots 0
  else if cmd = 72 ∨ cmd = 102 then p.argSlots 0 ++ p.argSlots 1
  else if cmd = 74 then p.argSlots 0
  else if cmd = 75 then p.argSlots 0
  else []

/-! ## They are all that is written and read -/

theorem digitSlots_of_inCsi (p : Parser) (ch : UInt8) (h : p.InCsi) :
    p.digitSlots ch = if isDigit ch then [p.csiParamCount] else [] := by
  unfold Parser.digitSlots
  rcases h with h | h <;> rw [h]

theorem digitSlots_of_not_inCsi (p : Parser) (ch : UInt8) (h : ¬ p.InCsi) : p.digitSlots ch = [] := by
  unfold Parser.digitSlots
  cases hstate : p.parseState with
  | normal => rfl
  | esc => rfl
  | csi => exact absurd (.inl hstate) h
  | csiParam => exact absurd (.inr hstate) h

theorem mem_digitSlots {p : Parser} {ch : UInt8} {i : Nat} (h : i ∈ p.digitSlots ch) :
    p.InCsi ∧ i = p.csiParamCount := by
  by_cases hin : p.InCsi
  · rw [digitSlots_of_inCsi p ch hin, List.mem_ite_nil_right, List.mem_singleton] at h
    exact ⟨hin, h.2⟩
  · rw [digitSlots_of_not_inCsi p ch hin] at h
    cases h

/-- **A byte writes the digit branch's slot only**, unless it opens a sequence. -/
theorem param_next_of_slots {p : Parser} {ch : UInt8} (hopen : ¬ (p.parseState = .esc ∧ ch = 91)) {i : Nat}
    (hi : i ∉ p.digitSlots ch) : (p.next ch).param i = p.param i := by
  by_cases hin : p.InCsi
  · rw [digitSlots_of_inCsi p ch hin, List.mem_ite_nil_right, List.mem_singleton] at hi
    rw [next_of_inCsi p ch hin]
    by_cases hdigit : isDigit ch = true
    · rw [if_pos hdigit, param_digit, if_neg fun hcount => hi ⟨hdigit, hcount.1⟩]
    rw [if_neg hdigit]
    by_cases hsep : ch = 59
    · rw [if_pos hsep]
      rfl
    · rw [if_neg hsep]
      exact param_terminate p i
  unfold Parser.next
  cases hstate : p.parseState with
  | normal =>
    dsimp only
    split <;> rfl
  | esc =>
    dsimp only
    rw [if_neg fun hch => hopen ⟨hstate, hch⟩]
  | csi => exact absurd (.inl hstate) hin
  | csiParam => exact absurd (.inr hstate) hin

theorem arg_of_slots {p q : CsiArgs} {i : Nat} (hcount : q.csiParamCount = p.csiParamCount)
    (h : ∀ k ∈ p.argSlots i, q.param k = p.param k) (dflt : Int) : q.arg i dflt = p.arg i dflt := by
  unfold CsiArgs.arg
  unfold CsiArgs.argSlots at h
  rw [hcount]
  by_cases hi : i < p.csiParamCount
  · rw [if_pos hi] at h
    rw [if_pos hi, if_pos hi]
    exact h i List.mem_cons_self
  · rw [if_neg hi, if_neg hi]

theorem indexedColour_of_slots {p q : CsiArgs} {i : Nat} (hcount : q.csiParamCount = p.csiParamCount)
    (h : ∀ k ∈ sgrStepSlots p i, q.param k = p.param k) (hi : p.param i = 38 ∨ p.param i = 48) :
    indexedColour q i = indexedColour p i ∧ (indexedColour p i = true → q.param (i + 2) = p.param (i + 2)) := by
  unfold indexedColour
  rw [hcount]
  by_cases hlt : i + 2 < p.csiParamCount
  · unfold sgrStepSlots at h
    rw [if_pos ⟨hi, hlt⟩] at h
    have hmode : q.param (i + 1) = p.param (i + 1) := h (i + 1) (List.mem_cons_of_mem i List.mem_cons_self)
    rw [hmode]
    refine ⟨rfl, fun hindexed => h (i + 2) ?_⟩
    have hfive : p.param (i + 1) = 5 := by
      rw [Bool.and_eq_true, decide_eq_true_eq, decide_eq_true_eq] at hindexed
      exact hindexed.2
    rw [if_pos hfive]
    simp
  · rw [decide_eq_false hlt, Bool.false_and, Bool.false_and]
    exact ⟨rfl, fun hindexed => absurd hindexed Bool.false_ne_true⟩

/-- **A round of SGR** depends on its slots only. -/
theorem sgrStep_of_slots {p q : CsiArgs} {i : Nat} (hcount : q.csiParamCount = p.csiParamCount)
    (h : ∀ k ∈ sgrStepSlots p i, q.param k = p.param k) (a : Cell) :
    sgrStep q i a = sgrStep p i a ∧ sgrNext q i = sgrNext p i := by
  have hi : q.param i = p.param i := h i List.mem_cons_self
  by_cases hext : p.param i = 38 ∨ p.param i = 48
  · obtain ⟨hindexed, hnumber⟩ := indexedColour_of_slots hcount h hext
    unfold sgrStep sgrNext
    rw [hi, hindexed]
    cases hcase : indexedColour p i with
    | false => simp only [Bool.false_eq_true, and_false, if_false, and_self]
    | true => rw [hnumber hcase]; exact ⟨rfl, rfl⟩
  · rw [not_or] at hext
    unfold sgrStep sgrNext
    simp only [hi, hext.1, hext.2, false_and, if_false, false_or, and_self]

theorem sgrLoop_of_slots {p q : CsiArgs} (hcount : q.csiParamCount = p.csiParamCount) : ∀ (fuel i : Nat) (a : Cell),
    (∀ k ∈ sgrLoopSlots p fuel i, q.param k = p.param k) → sgrLoop q fuel i a = sgrLoop p fuel i a
  | 0, _, _, _ => rfl
  | fuel + 1, i, a, h => by
    unfold sgrLoop
    rw [hcount]
    by_cases hlt : i < p.csiParamCount
    · unfold sgrLoopSlots at h
      rw [if_pos hlt] at h
      obtain ⟨hstep, hnext⟩ := sgrStep_of_slots hcount (fun k hk => h k (List.mem_append_left _ hk)) a
      rw [if_pos hlt, if_pos hlt, hstep, hnext]
      exact sgrLoop_of_slots hcount fuel _ _ fun k hk => h k (List.mem_append_right _ hk)
    · rw [if_neg hlt, if_neg hlt]

/-- **A command depends on the count and on its slots only.** -/
theorem parserExecuteCsi_of_slots {p q : CsiArgs} {cmd : UInt8} (hcount : q.csiParamCount = p.csiParamCount)
    (h : ∀ k ∈ csiSlots p cmd, q.param k = p.param k) (s : Screen g) :
    parserExecuteCsi q cmd s = parserExecuteCsi p cmd s := by
  unfold csiSlots at h
  unfold parserExecuteCsi
  by_cases hm : cmd = 109
  · simp only [if_pos hm] at h ⊢
    unfold executeSgr
    rw [hcount, sgrLoop_of_slots hcount _ _ _ h]
  simp only [if_neg hm] at h ⊢
  by_cases hmove : cmd = 65 ∨ cmd = 66 ∨ cmd = 67 ∨ cmd = 68
  · simp only [if_pos hmove] at h ⊢
    unfold executeCursorMove moveCount
    rw [arg_of_slots hcount h]
  simp only [if_neg hmove] at h ⊢
  by_cases hpos : cmd = 72 ∨ cmd = 102
  · simp only [if_pos hpos, List.forall_mem_append] at h ⊢
    unfold executeCursorPosition
    rw [arg_of_slots hcount h.1, arg_of_slots hcount h.2]
  simp only [if_neg hpos] at h ⊢
  by_cases hdisplay : cmd = 74
  · simp only [if_pos hdisplay] at h ⊢
    unfold executeEraseDisplay eraseDisplayIndices
    rw [arg_of_slots hcount h]
  simp only [if_neg hdisplay] at h ⊢
  by_cases hline : cmd = 75
  · simp only [if_pos hline] at h ⊢
    unfold executeEraseLine eraseLineIndices eraseLineCols
    rw [arg_of_slots hcount h]
  · simp only [if_neg hline]

/-! ## They are in the array -/

theorem argSlots_lt {p : CsiArgs} (h : p.csiParamCount ≤ 16) (i : Nat) : ∀ k ∈ p.argSlots i, k < 16 := by
  intro k hk
  unfold CsiArgs.argSlots at hk
  rw [List.mem_ite_nil_right, List.mem_singleton] at hk
  omega

theorem sgrStepSlots_lt {p : CsiArgs} {i : Nat} (hi : i < p.csiParamCount) :
    ∀ k ∈ sgrStepSlots p i, k < p.csiParamCount := by
  intro k hk
  unfold sgrStepSlots at hk
  simp only [List.mem_cons, List.mem_ite_nil_right, List.not_mem_nil, or_false] at hk
  rcases hk with rfl | ⟨⟨-, hlook⟩, rfl | ⟨-, rfl⟩⟩ <;> omega

theorem sgrLoopSlots_lt (p : CsiArgs) : ∀ (fuel i : Nat), ∀ k ∈ sgrLoopSlots p fuel i, k < p.csiParamCount
  | 0, _, _, hk => by cases hk
  | fuel + 1, i, k, hk => by
    unfold sgrLoopSlots at hk
    rw [List.mem_ite_nil_right, List.mem_append] at hk
    obtain ⟨hi, hk | hk⟩ := hk
    · exact sgrStepSlots_lt hi k hk
    · exact sgrLoopSlots_lt p fuel _ k hk

/-- **A count of sixteen at most** keeps every command in the array. -/
theorem csiSlots_lt {p : CsiArgs} (h : p.csiParamCount ≤ 16) (cmd : UInt8) : ∀ k ∈ csiSlots p cmd, k < 16 := by
  intro k hk
  unfold csiSlots at hk
  split at hk
  · exact Nat.lt_of_lt_of_le (sgrLoopSlots_lt p _ _ k hk) h
  split at hk
  · exact argSlots_lt h 0 k hk
  split at hk
  · rcases List.mem_append.1 hk with hk | hk
    · exact argSlots_lt h 0 k hk
    · exact argSlots_lt h 1 k hk
  split at hk
  · exact argSlots_lt h 0 k hk
  split at hk
  · exact argSlots_lt h 0 k hk
  · cases hk

/-! ## What a stream leaves -/

/-- What is known of the parser in a sequence that has written the slots `written`. -/
structure Scratch (p : Parser) (written : List Nat) : Prop where
  csi : p.parseState = .csi → p.csiParamCount = 0 ∧ written = []
  csiParam : p.parseState = .csiParam → p.csiParamCount ≤ 15
  written_le : p.InCsi → ∀ i ∈ written, i ≤ p.csiParamCount
  unwritten : p.InCsi → ∀ i, i ∉ written → p.param i = 0

/-- Outside a sequence nothing is known, and nothing needed. -/
theorem scratch_outside {p : Parser} (h : ¬ p.InCsi) (written : List Nat) : Scratch p written :=
  ⟨fun hs => absurd (.inl hs) h, fun hs => absurd (.inr hs) h, fun hs => absurd hs h, fun hs => absurd hs h⟩

theorem Scratch.count_le {p : Parser} {written : List Nat} (h : Scratch p written) (hin : p.InCsi) :
    p.csiParamCount ≤ 15 := by
  rcases hin with hs | hs
  · rw [(h.csi hs).1]
    exact Nat.zero_le 15
  · exact h.csiParam hs

theorem Scratch.digitSlots_lt {p : Parser} {written : List Nat} (h : Scratch p written) (ch : UInt8) :
    ∀ i ∈ p.digitSlots ch, i < 16 := by
  intro i hi
  obtain ⟨hin, rfl⟩ := mem_digitSlots hi
  exact Nat.lt_succ_of_le (h.count_le hin)

/-- The terminator's increment may pass the last slot, by one. -/
theorem Scratch.count_terminate_le {p : Parser} {written : List Nat} (h : Scratch p written) (hin : p.InCsi) :
    p.terminate.csiParamCount ≤ 16 := by
  have hcount := h.count_le hin
  unfold Parser.terminate
  split
  · exact Nat.succ_le_succ hcount
  · exact Nat.le_succ_of_le hcount

/-- **The introducer clears every slot.** -/
theorem scratch_introducer : Scratch { parserReset with parseState := .csi } [] :=
  ⟨fun _ => ⟨rfl, rfl⟩, nofun, fun _ => nofun, fun _ i _ => param_parserReset i⟩

theorem scratch_digit {p : Parser} {written : List Nat} (h : Scratch p written) (hin : p.InCsi) (ch : UInt8) :
    Scratch (p.digit ch) (written ++ [p.csiParamCount]) := by
  refine ⟨nofun, fun _ => h.count_le hin, fun _ i hi => ?_, fun _ i hi => ?_⟩
  · rcases List.mem_append.1 hi with hi | hi
    · exact h.written_le hin i hi
    · exact Nat.le_of_eq (List.mem_singleton.1 hi)
  · rw [List.mem_append, List.mem_singleton, not_or] at hi
    rw [param_digit, if_neg fun hslot => hi.2 hslot.1]
    exact h.unwritten hin i hi.1

/-- **The count stops at the last slot**, and a later digit goes on there. -/
theorem scratch_semicolon {p : Parser} {written : List Nat} (h : Scratch p written) (hin : p.InCsi) :
    Scratch p.semicolon written := by
  have hcount := h.count_le hin
  have hnext : p.csiParamCount ≤ p.semicolon.csiParamCount ∧ p.semicolon.csiParamCount ≤ 15 := by
    unfold Parser.semicolon
    dsimp only
    split <;> omega
  exact ⟨nofun, fun _ => hnext.2, fun _ i hi => Nat.le_trans (h.written_le hin i hi) hnext.1,
    fun _ => h.unwritten hin⟩

/-- **Every byte keeps it.** -/
theorem scratch_next {p : Parser} {written : List Nat} (h : Scratch p written) (ch : UInt8) :
    Scratch (p.next ch) (p.writtenNext written ch) := by
  unfold Parser.writtenNext
  by_cases hin : p.InCsi
  · have hopen : ¬ (p.parseState = .esc ∧ ch = 91) := fun hesc => not_inCsi (.inr hesc.1) hin
    rw [next_of_inCsi p ch hin, if_neg hopen, digitSlots_of_inCsi p ch hin]
    by_cases hdigit : isDigit ch = true
    · rw [if_pos hdigit, if_pos hdigit]
      exact scratch_digit h hin ch
    rw [if_neg hdigit, if_neg hdigit, List.append_nil]
    by_cases hsep : ch = 59
    · rw [if_pos hsep]
      exact scratch_semicolon h hin
    · rw [if_neg hsep]
      exact scratch_outside (not_inCsi (.inl rfl)) written
  unfold Parser.next
  cases hstate : p.parseState with
  | normal =>
    refine scratch_outside ?_ _
    dsimp only
    split
    · exact not_inCsi (.inr rfl)
    · exact not_inCsi (.inl hstate)
  | esc =>
    dsimp only
    by_cases hopen : ch = 91
    · rw [if_pos hopen, if_pos ⟨rfl, hopen⟩]
      exact scratch_introducer
    · rw [if_neg hopen]
      exact scratch_outside (not_inCsi (.inl rfl)) _
  | csi => exact absurd (.inl hstate) hin
  | csiParam => exact absurd (.inr hstate) hin

theorem scratch_after : ∀ (bs : List UInt8) {p : Parser} {written : List Nat}, Scratch p written →
    Scratch (vtReader.after p bs) (p.writtenAfter written bs)
  | [], _, _, h => h
  | ch :: bs, _, _, h => scratch_after bs (scratch_next h ch)

theorem param_fin (p : CsiArgs) (i : Fin 16) : p.param i.val = p.csiParams[i] := by
  unfold CsiArgs.param
  rw [RowMajor.getD_of_lt _ i.val 0 i.isLt]
  rfl

/-- **The scratch invariant**: from a reset parser no byte stream leaves a count or a parameter of an earlier sequence
behind, and every slot that a byte writes or a command reads is one of the sixteen. -/
theorem scratch_run (scr : Screen g) (bs : List UInt8) :
    let p := (terminalProcessBytes ⟨scr, parserReset⟩ bs).parser
    let written := parserReset.writtenAfter [] bs
    (p.parseState = .csi → p.csiParamCount = 0 ∧ ∀ i : Fin 16, p.csiParams[i] = 0) ∧
    (p.parseState = .csiParam →
      p.csiParamCount ≤ 15 ∧ ∀ i : Fin 16, p.csiParamCount < i.val → p.csiParams[i] = 0) ∧
    (p.InCsi → ∀ i : Fin 16, i.val ∉ written → p.csiParams[i] = 0) ∧
    ∀ ch, (∀ i ∈ p.digitSlots ch, i < 16) ∧
      ∀ q cmd, .executeCsi q cmd ∈ p.out ch →
        q.csiParamCount ≤ 16 ∧ (∀ i ∈ csiSlots q cmd, i < 16) ∧
          ∀ i : Fin 16, i.val ∉ written → q.csiParams[i] = 0 := by
  dsimp only
  rw [parser_terminalProcessBytes]
  have hreset : ¬ parserReset.InCsi := not_inCsi (.inl rfl)
  have h := scratch_after bs (scratch_outside hreset [])
  generalize parserReset.writtenAfter [] bs = written at h ⊢
  generalize vtReader.after parserReset bs = p at h ⊢
  have hunwritten : p.InCsi → ∀ i : Fin 16, i.val ∉ written → p.csiParams[i] = 0 := by
    intro hin i hi
    rw [← param_fin]
    exact h.unwritten hin i.val hi
  refine ⟨fun hs => ?_, fun hs => ?_, hunwritten, fun ch => ⟨h.digitSlots_lt ch, fun q cmd hq => ?_⟩⟩
  · obtain ⟨hcount, hnone⟩ := h.csi hs
    exact ⟨hcount, fun i => hunwritten (.inl hs) i (by rw [hnone]; exact List.not_mem_nil)⟩
  · refine ⟨h.csiParam hs, fun i hi => hunwritten (.inr hs) i fun hmem => ?_⟩
    exact absurd (h.written_le (.inr hs) i.val hmem) (Nat.not_le_of_lt hi)
  · cases emits_of_mem_out hq with
    | executeCsi hin =>
      have hcount := h.count_terminate_le hin
      refine ⟨hcount, csiSlots_lt hcount ch, fun i hi => ?_⟩
      rw [csiParams_terminate]
      exact hunwritten hin i hi

/-- `ESC [ 5 ; ; 7` writes the first and the third. -/
example : parserReset.writtenAfter [] [27, 91, 53, 59, 59, 55] = [0, 2] := by decide

end Ptywrap
