import Mathlib.Algebra.Group.Nat.Defs
import Mathlib.Data.List.Basic
import Mathlib.Data.Nat.Size
import Mathlib.Order.MinMax
/-!
# Realloc — a text that grows by doubling its block

A buffer is a block, the size recorded for it and the position of its terminator.  A piece of text is appended behind a
loop that doubles the recorded size and reallocates until the piece fits.  The `i`-th reallocation succeeds when `ok i`
does.  With them all the buffer holds the concatenation of the pieces (`run_holds`); where one fails the append returns
with a null block, and the next one writes to it (`run_last_of_failed`).  No block is asked for that a piece does not
need (`run_sized`).
-/
namespace Realloc

variable {α : Type*}

inductive Fault where
  | nullWrite
  | outOfBounds
  | endless
deriving DecidableEq, Repr

/-- A block's cells; one that was never written holds nothing. -/
abbrev Block (α : Type*) := List (Option α)

structure Buf (α : Type*) where
  block : Option (Block α)
  size : Nat
  pos : Nat
  calls : Nat

/-- A block of any positive size, with the terminator in its first cell. -/
def Buf.empty (nul : α) (rest : Block α) : Buf α := ⟨some (some nul :: rest), rest.length + 1, 0, 0⟩

/-- A block of `size` cells with the old contents as far as they go. -/
def resized (block : Option (Block α)) (size : Nat) : Block α :=
  (block.getD []).take size ++ List.replicate (size - (block.getD []).length) none

/-- How a growth loop ends. -/
inductive Grown (α : Type*) where
  | ready (b : Buf α)
  | failed (b : Buf α)

/-- `while (pos + need >= size) { size *= 2; block = realloc(block, size); if (!block) return; }` -/
def grow (ok : Nat → Bool) (need : Nat) : Nat → Buf α → Except Fault (Grown α)
  | 0, _ => .error .endless
  | fuel + 1, b =>
    if b.pos + need < b.size then .ok (.ready b)
    else if ok b.calls then
      grow ok need fuel ⟨some (resized b.block (b.size * 2)), b.size * 2, b.pos, b.calls + 1⟩
    else .ok (.failed ⟨none, b.size * 2, b.pos, b.calls + 1⟩)

/-- `block[pos++] = x`. -/
def write (x : α) (b : Buf α) : Except Fault (Buf α) :=
  match b.block with
  | none => .error .nullWrite
  | some cells =>
    if b.pos < cells.length then .ok ⟨some (cells.set b.pos (some x)), b.size, b.pos + 1, b.calls⟩
    else .error .outOfBounds

def writeAll : List α → Buf α → Except Fault (Buf α)
  | [], b => .ok b
  | x :: xs, b => (write x b).bind (writeAll xs)

/-- The text and its terminator, which the next text overwrites. -/
def store (nul : α) (text : List α) (b : Buf α) : Except Fault (Buf α) :=
  (writeAll (text ++ [nul]) b).bind fun b' => .ok ⟨b'.block, b'.size, b.pos + text.length, b'.calls⟩

/-- Every round of the loop adds to the size, so `pos + need + 1` of them are enough. -/
def append (ok : Nat → Bool) (nul : α) (need : Nat) (text : List α) (b : Buf α) : Except Fault (Buf α) :=
  match grow ok need (b.pos + need + 1) b with
  | .error fault => .error fault
  | .ok (.failed b') => .ok b'
  | .ok (.ready b') => store nul text b'

/-- An append: its text and the headroom it asks for. -/
structure Piece (α : Type*) where
  need : Nat
  text : List α

/-- The terminator has room, and a single doubling of `size` is enough. -/
def Piece.Within (size : Nat) (p : Piece α) : Prop := p.text.length < p.need ∧ p.need ≤ size

def run (ok : Nat → Bool) (nul : α) : List (Piece α) → Buf α → Except Fault (Buf α)
  | [], b => .ok b
  | p :: ps, b => (append ok nul p.need p.text b).bind (run ok nul ps)

def textOf (ps : List (Piece α)) : List α := ps.flatMap Piece.text

/-- The largest position that a piece asks room up to, each standing behind the ones before it. -/
def peak : Nat → List (Piece α) → Nat
  | _, [] => 0
  | pos, p :: ps => max (pos + p.need) (peak (pos + p.text.length) ps)

/-- The block has the recorded size, begins with the text and its terminator, and no reallocation has failed. -/
structure Holds (ok : Nat → Bool) (nul : α) (start : Nat) (text : List α) (b : Buf α) : Prop where
  pos : b.pos = text.length
  size : b.size = start * 2 ^ b.calls
  block : ∃ rest, b.block = some ((text ++ [nul]).map some ++ rest) ∧ text.length + 1 + rest.length = b.size
  granted : ∀ i < b.calls, ok i = true

variable {ok : Nat → Bool} {nul : α} {start need : Nat} {text : List α} {b : Buf α}

/-! ## The growth loop -/

theorem Holds.pos_lt (h : Holds ok nul start text b) : b.pos < b.size := by
  obtain ⟨rest, -, hlen⟩ := h.block
  rw [h.pos]
  omega

theorem Holds.start_le (h : Holds ok nul start text b) : start ≤ b.size := by
  rw [h.size]
  exact Nat.le_mul_of_pos_right start (Nat.two_pow_pos b.calls)

theorem resized_of_le {cells : Block α} {size : Nat} (h : cells.length ≤ size) :
    resized (some cells) size = cells ++ List.replicate (size - cells.length) none := by
  unfold resized
  rw [Option.getD_some, List.take_of_length_le h]

/-- **A reallocation that succeeds keeps the text.** -/
theorem Holds.doubled (h : Holds ok nul start text b) (hok : ok b.calls = true) :
    Holds ok nul start text ⟨some (resized b.block (b.size * 2)), b.size * 2, b.pos, b.calls + 1⟩ := by
  obtain ⟨rest, hblock, hlen⟩ := h.block
  have hcells : ((text ++ [nul]).map some ++ rest).length = b.size := by
    rw [List.length_append, List.length_map, List.length_append, List.length_singleton, hlen]
  refine ⟨h.pos, ?_, ⟨rest ++ List.replicate b.size none, ?_, ?_⟩, fun i hi => ?_⟩
  · dsimp only
    rw [h.size, Nat.pow_succ, Nat.mul_assoc]
  · dsimp only
    rw [hblock, resized_of_le (by omega), hcells, List.append_assoc, show b.size * 2 - b.size = b.size by omega]
  · rw [List.length_append, List.length_replicate]
    dsimp only
    omega
  · rcases Nat.lt_succ_iff_lt_or_eq.1 hi with hlt | rfl
    · exact h.granted i hlt
    · exact hok

/-- **The loop ends with room** when the sizes it must leave behind are reallocated. -/
theorem grow_ready : ∀ (n : Nat) {b : Buf α}, Holds ok nul start text b → b.pos + need < b.size + n →
    (∀ i, start * 2 ^ i ≤ b.pos + need → ok i = true) →
    ∃ b', grow ok need (n + 1) b = .ok (.ready b') ∧ Holds ok nul start text b' ∧ b'.pos + need < b'.size
  | 0, b, h, hn, _ => by
    have hroom : b.pos + need < b.size := hn
    refine ⟨b, ?_, h, hroom⟩
    unfold grow
    rw [if_pos hroom]
  | n + 1, b, h, hn, hok => by
    unfold grow
    by_cases hroom : b.pos + need < b.size
    · rw [if_pos hroom]
      exact ⟨b, rfl, h, hroom⟩
    · have hcall : ok b.calls = true := hok b.calls (by rw [← h.size]; omega)
      have hpos := h.pos_lt
      rw [if_neg hroom, if_pos hcall]
      exact grow_ready n (h.doubled hcall) (by dsimp only; omega) hok

/-- **A reallocation that fails** ends the loop with a null block of the doubled size. -/
theorem grow_failed (n : Nat) (hroom : ¬ b.pos + need < b.size) (hcall : ok b.calls = false) :
    grow ok need (n + 1) b = .ok (.failed ⟨none, b.size * 2, b.pos, b.calls + 1⟩) := by
  unfold grow
  rw [if_neg hroom, hcall]
  rfl

/-! ## Writing -/

theorem writeAll_over : ∀ (xs : List α) (before old rest : Block α) (size calls : Nat), old.length = xs.length →
    writeAll xs ⟨some (before ++ old ++ rest), size, before.length, calls⟩ =
      .ok ⟨some (before ++ xs.map some ++ rest), size, before.length + xs.length, calls⟩
  | [], before, [], rest, size, calls, _ => rfl
  | x :: xs, before, y :: old, rest, size, calls, h => by
    have hset : (before ++ y :: old ++ rest).set before.length (some x) = (before ++ [some x]) ++ old ++ rest := by
      rw [List.append_assoc, List.set_append_right _ _ (Nat.le_refl _), Nat.sub_self]
      simp
    have hlt : before.length < (before ++ y :: old ++ rest).length := by
      simp only [List.length_append, List.length_cons]
      omega
    have ih := writeAll_over xs (before ++ [some x]) old rest size calls (Nat.succ.inj h)
    rw [List.length_append, List.length_singleton] at ih
    unfold writeAll write
    dsimp only
    rw [if_pos hlt, hset]
    show writeAll xs _ = _
    rw [ih, List.map_cons, List.length_cons, List.append_assoc, List.append_assoc, List.append_assoc,
      List.singleton_append, List.cons_append, Nat.add_assoc, Nat.add_comm 1]

/-- **Where there is room the text is stored**, with its terminator. -/
theorem store_holds (h : Holds ok nul start text b) (more : List α) (hroom : b.pos + more.length < b.size) :
    ∃ b', store nul more b = .ok b' ∧ Holds ok nul start (text ++ more) b' := by
  obtain ⟨rest, hblock, hlen⟩ := h.block
  obtain ⟨block, size, pos, calls⟩ := b
  obtain rfl : block = _ := hblock
  obtain rfl : pos = text.length := h.pos
  dsimp only at *
  -- the old terminator is overwritten, and the cells behind it
  have hold : ((some nul :: rest).take (more.length + 1)).length = (more ++ [nul]).length := by
    rw [List.length_take, List.length_append, List.length_cons, List.length_singleton]
    omega
  have hsplit : (text ++ [nul]).map some ++ rest =
      text.map some ++ (some nul :: rest).take (more.length + 1) ++ (some nul :: rest).drop (more.length + 1) := by
    rw [List.append_assoc, List.take_append_drop, List.map_append, List.append_assoc]
    rfl
  have hwrite := writeAll_over (more ++ [nul]) (text.map some) _ ((some nul :: rest).drop (more.length + 1)) size calls
    hold
  rw [← hsplit, List.length_map] at hwrite
  refine ⟨⟨some ((text ++ more ++ [nul]).map some ++ (some nul :: rest).drop (more.length + 1)), size,
    text.length + more.length, calls⟩, ?_, ?_, h.size, ⟨_, rfl, ?_⟩, h.granted⟩
  · unfold store
    rw [hwrite, ← List.map_append, ← List.append_assoc]
    rfl
  · exact (List.length_append).symm
  · rw [List.length_drop, List.length_cons, List.length_append]
    dsimp only
    omega

theorem holds_empty (ok : Nat → Bool) (nul : α) (rest : Block α) :
    Holds ok nul (rest.length + 1) [] (Buf.empty nul rest) := by
  refine ⟨rfl, ?_, ⟨rest, rfl, ?_⟩, fun i hi => absurd hi (Nat.not_lt_zero i)⟩
  · exact (Nat.mul_one _).symm
  · exact (Nat.zero_add _).symm ▸ Nat.add_comm 1 rest.length

/-- The terminator at the head of a fresh block makes it an empty buffer. -/
theorem store_fresh (nul : α) (size : Nat) :
    store nul [] ⟨some (List.replicate (size + 1) none), size + 1, 0, 0⟩ =
      .ok (Buf.empty nul (List.replicate size none)) := by
  unfold store Buf.empty
  rw [List.nil_append, List.replicate_succ, List.length_replicate]
  rfl

theorem holds_fresh (ok : Nat → Bool) (nul : α) (size : Nat) :
    Holds ok nul (size + 1) [] (Buf.empty nul (List.replicate size none)) := by
  have h := holds_empty ok nul (List.replicate size none)
  rw [List.length_replicate] at h
  exact h

/-! ## Appending -/

theorem append_holds {p : Piece α} (h : Holds ok nul start text b) (hp : p.text.length < p.need)
    (hok : ∀ i, start * 2 ^ i ≤ b.pos + p.need → ok i = true) :
    ∃ b', append ok nul p.need p.text b = .ok b' ∧ Holds ok nul start (text ++ p.text) b' := by
  have hpos := h.pos_lt
  obtain ⟨b', hgrow, h', hroom⟩ := grow_ready (b.pos + p.need) h (by omega) hok
  obtain ⟨b'', hstore, h''⟩ := store_holds h' p.text (by omega)
  refine ⟨b'', ?_, h''⟩
  unfold append
  rw [hgrow]
  exact hstore

/-- **A null block is written** by the next piece that finds the recorded size large enough. -/
theorem append_null {p : Piece α} (hb : b.block = none) (hroom : b.pos + p.need < b.size) :
    append ok nul p.need p.text b = .error .nullWrite := by
  have hwrite : ∀ x xs, writeAll (x :: xs) b = .error .nullWrite := by
    intro x xs
    unfold writeAll write
    rw [hb]
    rfl
  unfold append grow
  rw [if_pos hroom]
  show store nul p.text b = _
  unfold store
  cases p.text with
  | nil =>
    rw [List.nil_append, hwrite]
    rfl
  | cons x xs =>
    rw [List.cons_append, hwrite]
    rfl

/-- **What an append can do** when a single doubling is enough for it: the text is stored and all it needed succeeded,
or the one reallocation it needed failed and the block is null. -/
theorem append_cases {p : Piece α} (h : Holds ok nul start text b) (hp : p.Within start) :
    (∃ b', append ok nul p.need p.text b = .ok b' ∧ Holds ok nul start (text ++ p.text) b' ∧
      ∀ i, start * 2 ^ i ≤ b.pos + p.need → ok i = true) ∨
    (append ok nul p.need p.text b = .ok ⟨none, b.size * 2, b.pos, b.calls + 1⟩ ∧
      ∃ i, start * 2 ^ i ≤ b.pos + p.need ∧ ok i = false) := by
  have hpos := h.pos_lt
  have hstart := h.start_le
  have hsize := h.size
  have hneed := hp.2
  by_cases hfail : ¬ b.pos + p.need < b.size ∧ ok b.calls = false
  · refine .inr ⟨?_, b.calls, by omega, hfail.2⟩
    unfold append
    rw [grow_failed _ hfail.1 hfail.2]
  · have hok : ∀ i, start * 2 ^ i ≤ b.pos + p.need → ok i = true := by
      intro i hi
      rcases Nat.lt_trichotomy i b.calls with hlt | rfl | hgt
      · exact h.granted i hlt
      · by_contra hfalse
        exact hfail ⟨by omega, by simpa using hfalse⟩
      · -- the size after one doubling is more than is needed
        have hmono : start * 2 ^ (b.calls + 1) ≤ start * 2 ^ i :=
          Nat.mul_le_mul_left start (Nat.pow_le_pow_right (by omega) hgt)
        rw [Nat.pow_succ, ← Nat.mul_assoc, ← hsize] at hmono
        omega
    obtain ⟨b', happend, h'⟩ := append_holds h hp.1 hok
    exact .inl ⟨b', happend, h', hok⟩

/-! ## Runs -/

theorem run_append (ps qs : List (Piece α)) (b : Buf α) :
    run ok nul (ps ++ qs) b = (run ok nul ps b).bind (run ok nul qs) := by
  induction ps generalizing b with
  | nil => rfl
  | cons p ps ih =>
    rw [List.cons_append, run, run]
    cases append ok nul p.need p.text b with
    | error fault => rfl
    | ok b' => exact ih b'

/-- **Every piece is stored** behind the ones before it when the sizes that the run must exceed are reallocated. -/
theorem run_holds : ∀ (ps : List (Piece α)) {text : List α} {b : Buf α}, Holds ok nul start text b →
    (∀ p ∈ ps, p.text.length < p.need) → (∀ i, start * 2 ^ i ≤ peak b.pos ps → ok i = true) →
    ∃ b', run ok nul ps b = .ok b' ∧ Holds ok nul start (text ++ textOf ps) b'
  | [], text, b, h, _, _ => by
    refine ⟨b, rfl, ?_⟩
    rw [textOf, List.flatMap_nil, List.append_nil]
    exact h
  | p :: ps, text, b, h, hps, hok => by
    obtain ⟨b', happend, h'⟩ := append_holds h (hps p List.mem_cons_self) fun i hi => hok i (le_max_iff.2 (.inl hi))
    have hpos : b'.pos = b.pos + p.text.length := by rw [h'.pos, List.length_append, h.pos]
    obtain ⟨b'', hrun, h''⟩ := run_holds ps h' (fun q hq => hps q (List.mem_cons_of_mem p hq))
      fun i hi => hok i (le_max_iff.2 (.inr (hpos ▸ hi)))
    refine ⟨b'', ?_, ?_⟩
    · rw [run, happend]
      exact hrun
    · rw [textOf, List.flatMap_cons, ← List.append_assoc]
      exact h''

theorem run_null {p : Piece α} (ps : List (Piece α)) (hb : b.block = none) (hroom : b.pos + p.need < b.size) :
    run ok nul (p :: ps) b = .error .nullWrite := by
  rw [run, append_null hb hroom]
  rfl

/-- **A last piece may fail**: it stores its text, or it leaves a null block. -/
theorem run_last_of_ok {ps : List (Piece α)} {last : Piece α} (h : Holds ok nul start text b)
    (hps : ∀ p ∈ ps, p.Within start) (hlast : last.Within start)
    (hok : ∀ i, start * 2 ^ i ≤ peak b.pos ps → ok i = true) :
    ∃ b', run ok nul (ps ++ [last]) b = .ok b' ∧
      (b'.block = none ∨ Holds ok nul start (text ++ textOf (ps ++ [last])) b') := by
  obtain ⟨b', hrun, h'⟩ := run_holds ps h (fun p hp => (hps p hp).1) hok
  have happend : run ok nul (ps ++ [last]) b = (append ok nul last.need last.text b').bind .ok := by
    rw [run_append, hrun]
    rfl
  have htext : text ++ textOf (ps ++ [last]) = text ++ textOf ps ++ last.text := by
    rw [textOf, List.flatMap_append, List.flatMap_singleton, List.append_assoc]
    rfl
  rw [happend, htext]
  rcases append_cases h' hlast with ⟨b'', hstored, h'', -⟩ | ⟨hfailed, -⟩
  · rw [hstored]
    exact ⟨b'', rfl, .inr h''⟩
  · rw [hfailed]
    exact ⟨_, rfl, .inl rfl⟩

/-- **No earlier one may**: what follows it writes to a null block. -/
theorem run_last_of_failed {last : Piece α} (hlast : last.Within start) {i : Nat} (hfail : ok i = false) :
    ∀ (ps : List (Piece α)) {text : List α} {b : Buf α}, Holds ok nul start text b → (∀ p ∈ ps, p.Within start) →
      start * 2 ^ i ≤ peak b.pos ps → run ok nul (ps ++ [last]) b = .error .nullWrite
  | [], text, b, h, _, hi => by
    have hpos := h.pos_lt
    have hsize := h.size
    have hzero := Nat.le_zero.1 (Nat.le_trans (Nat.le_mul_of_pos_right start (Nat.two_pow_pos i)) hi)
    rw [hzero, Nat.zero_mul] at hsize
    omega
  | p :: ps, text, b, h, hps, hi => by
    have hps' : ∀ q ∈ ps, q.Within start := fun q hq => hps q (List.mem_cons_of_mem p hq)
    rcases append_cases h (hps p List.mem_cons_self) with ⟨b', happend, h', hok⟩ | ⟨happend, -⟩
    · have hpos : b'.pos = b.pos + p.text.length := by rw [h'.pos, List.length_append, h.pos]
      rcases le_max_iff.1 hi with hi | hi
      · rw [hok i hi] at hfail
        cases hfail
      · rw [List.cons_append, run, happend]
        exact run_last_of_failed hlast hfail ps h' hps' (hpos ▸ hi)
    · -- the recorded size is doubled already, so the next piece does not reallocate
      have hroom : ∀ q : Piece α, q.Within start → b.pos + q.need < b.size * 2 := by
        intro q hq
        have hneed := hq.2
        have hpos := h.pos_lt
        have hstart := h.start_le
        omega
      rw [List.cons_append, run, happend]
      cases ps with
      | nil => exact run_null [] rfl (hroom last hlast)
      | cons q qs => exact run_null (qs ++ [last]) rfl (hroom q (hps' q List.mem_cons_self))

/-- **The peak is the terminator's place** when the last piece asks for no more than its text and no piece asks for more
than that leaves. -/
theorem peak_concat {last : Piece α} (hlast : last.need = last.text.length + 1) : ∀ (ps : List (Piece α)) (pos : Nat),
    (∀ p ∈ ps, p.need ≤ p.text.length + last.need) →
    peak pos (ps ++ [last]) = pos + (textOf (ps ++ [last])).length + 1
  | [], pos, _ => by
    rw [List.nil_append, peak, peak, textOf, List.flatMap_singleton, hlast]
    omega
  | p :: ps, pos, h => by
    have ih := peak_concat hlast ps (pos + p.text.length) fun q hq => h q (List.mem_cons_of_mem p hq)
    have hp := h p List.mem_cons_self
    have hlen : last.need ≤ (textOf (ps ++ [last])).length + 1 := by
      rw [textOf, List.flatMap_append, List.length_append, List.flatMap_singleton, hlast]
      omega
    have htext : (textOf (p :: (ps ++ [last]))).length = p.text.length + (textOf (ps ++ [last])).length := by
      rw [textOf, List.flatMap_cons, List.length_append]
      rfl
    rw [List.cons_append, peak, ih, htext]
    omega

/-! ## How often the block is doubled -/

/-- How many times `start` must be doubled to exceed `m`. -/
def doublings (start m : Nat) : Nat := (m / start).size

theorem lt_doublings_iff {start : Nat} (h : 0 < start) (i m : Nat) : i < doublings start m ↔ start * 2 ^ i ≤ m := by
  unfold doublings
  rw [Nat.lt_size, Nat.le_div_iff_mul_le h, Nat.mul_comm]

/-- The size is `start` doubled until it exceeded `m`, and no further. -/
structure Sized (start m : Nat) (b : Buf α) : Prop where
  size : b.size = start * 2 ^ b.calls
  calls : ∀ i, i < b.calls ↔ start * 2 ^ i ≤ m

theorem sized_fresh (nul : α) (size : Nat) : Sized (size + 1) 0 (Buf.empty nul (List.replicate size none)) := by
  refine ⟨?_, fun i => ⟨fun hi => absurd hi (Nat.not_lt_zero i), fun hi => ?_⟩⟩
  · show (List.replicate size none).length + 1 = (size + 1) * 2 ^ 0
    rw [List.length_replicate, Nat.pow_zero, Nat.mul_one]
  · have hpos : 0 < (size + 1) * 2 ^ i := Nat.mul_pos (Nat.succ_pos _) (Nat.two_pow_pos i)
    omega

theorem Sized.calls_eq {m : Nat} (h : Sized start m b) (hstart : 0 < start) : b.calls = doublings start m := by
  refine eq_of_forall_lt_iff fun i => ?_
  rw [h.calls i, lt_doublings_iff hstart]

/-- A block doubled as often, or more often, is no smaller. -/
theorem size_le_of_not_lt {calls i size : Nat} (hsize : size = start * 2 ^ calls) (h : ¬ i < calls) :
    size ≤ start * 2 ^ i := by
  rw [hsize]
  exact Nat.mul_le_mul_left start (Nat.pow_le_pow_right Nat.two_pos (Nat.le_of_not_lt h))

/-- Where there is room already, nothing is doubled. -/
theorem Sized.max_of_lt {m n : Nat} (h : Sized start m b) (hn : n < b.size) : Sized start (max m n) b := by
  refine ⟨h.size, fun i => ?_⟩
  rw [le_max_iff, ← h.calls i]
  refine ⟨.inl, fun hi => hi.elim id fun hle => ?_⟩
  by_contra hge
  have hmono := size_le_of_not_lt h.size hge
  omega

theorem Sized.doubled {m : Nat} (h : Sized start m b) (block : Option (Block α)) (hstart : 0 < b.size) :
    Sized start (max m b.size) ⟨block, b.size * 2, b.pos, b.calls + 1⟩ := by
  have hsize : b.size * 2 = start * 2 ^ (b.calls + 1) := by rw [h.size, Nat.pow_succ, Nat.mul_assoc]
  refine ⟨hsize, fun i => ?_⟩
  dsimp only
  rw [le_max_iff, ← h.calls i]
  constructor
  · intro hi
    rcases Nat.lt_succ_iff_lt_or_eq.1 hi with hlt | rfl
    · exact .inl hlt
    · exact .inr (Nat.le_of_eq h.size.symm)
  · rintro (hlt | hle)
    · exact Nat.lt_succ_of_lt hlt
    · by_contra hge
      have hmono := size_le_of_not_lt hsize hge
      omega

/-- **A growth loop doubles as often as its piece needs.** -/
theorem grow_sized : ∀ (fuel : Nat) {m : Nat} {b b' : Buf α}, Sized start m b → 0 < b.size →
    grow ok need fuel b = .ok (.ready b') → Sized start (max m (b.pos + need)) b'
  | 0, _, _, _, _, _, hgrow => by
    unfold grow at hgrow
    cases hgrow
  | fuel + 1, m, b, b', h, hpos, hgrow => by
    unfold grow at hgrow
    by_cases hroom : b.pos + need < b.size
    · rw [if_pos hroom] at hgrow
      cases hgrow
      exact h.max_of_lt hroom
    · rw [if_neg hroom] at hgrow
      cases hcall : ok b.calls with
      | false =>
        rw [hcall, if_neg Bool.false_ne_true] at hgrow
        cases hgrow
      | true =>
        rw [if_pos hcall] at hgrow
        have ih := grow_sized fuel (h.doubled (resized b.block (b.size * 2)) hpos) (by dsimp only; omega) hgrow
        -- the old size is no more than the piece needs
        rw [max_assoc, max_eq_right (Nat.le_of_not_lt hroom)] at ih
        exact ih

theorem grow_failed_block : ∀ (fuel : Nat) {b b' : Buf α}, grow ok need fuel b = .ok (.failed b') → b'.block = none
  | 0, _, _, hgrow => by
    unfold grow at hgrow
    cases hgrow
  | fuel + 1, b, b', hgrow => by
    unfold grow at hgrow
    split at hgrow
    · cases hgrow
    · split at hgrow
      · exact grow_failed_block fuel hgrow
      · cases hgrow
        rfl

theorem writeAll_size : ∀ (xs : List α) {b b' : Buf α}, writeAll xs b = .ok b' → b'.size = b.size ∧ b'.calls = b.calls
  | [], _, _, h => by
    cases h
    exact ⟨rfl, rfl⟩
  | x :: xs, b, b', h => by
    unfold writeAll write at h
    split at h
    · cases h
    · rename_i cells _
      split at h
      · have htail : writeAll xs ⟨some (cells.set b.pos (some x)), b.size, b.pos + 1, b.calls⟩ = .ok b' := h
        have ih := writeAll_size xs htail
        exact ih
      · cases h

theorem store_sized {m : Nat} {b b' : Buf α} (h : Sized start m b) (hstore : store nul text b = .ok b') :
    Sized start m b' := by
  unfold store at hstore
  cases hwrite : writeAll (text ++ [nul]) b with
  | error fault =>
    rw [hwrite] at hstore
    cases hstore
  | ok b₁ =>
    rw [hwrite] at hstore
    obtain ⟨hsize, hcalls⟩ := writeAll_size _ hwrite
    cases hstore
    refine ⟨?_, fun i => ?_⟩
    · dsimp only
      rw [hsize, hcalls, h.size]
    · dsimp only
      rw [hcalls, h.calls i]

theorem append_sized {p : Piece α} {m : Nat} {b' : Buf α} (h : Sized start m b) (hpos : 0 < b.size)
    (happend : append ok nul p.need p.text b = .ok b') (hb' : b'.block ≠ none) :
    Sized start (max m (b.pos + p.need)) b' := by
  unfold append at happend
  split at happend
  · cases happend
  · rename_i b₁ hgrow
    cases happend
    exact absurd (grow_failed_block _ hgrow) hb'
  · rename_i b₁ hgrow
    exact store_sized (grow_sized _ h hpos hgrow) happend

theorem Holds.block_ne_none (h : Holds ok nul start text b) : b.block ≠ none := by
  obtain ⟨rest, hblock, -⟩ := h.block
  rw [hblock]
  exact Option.some_ne_none _

/-- **A run doubles the block as often as its peak needs.** -/
theorem run_sized : ∀ (ps : List (Piece α)) {text : List α} {m : Nat} {b b' : Buf α}, Holds ok nul start text b →
    Sized start m b → (∀ p ∈ ps, p.text.length < p.need) → (∀ i, start * 2 ^ i ≤ peak b.pos ps → ok i = true) →
    run ok nul ps b = .ok b' → Sized start (max m (peak b.pos ps)) b'
  | [], text, m, b, b', h, hs, _, _, hrun => by
    cases hrun
    rw [peak, Nat.max_zero]
    exact hs
  | p :: ps, text, m, b, b', h, hs, hps, hok, hrun => by
    obtain ⟨b₁, happend, h₁⟩ := append_holds h (hps p List.mem_cons_self) fun i hi => hok i (le_max_iff.2 (.inl hi))
    have hs₁ := append_sized hs (Nat.zero_lt_of_lt h.pos_lt) happend h₁.block_ne_none
    have hpos : b₁.pos = b.pos + p.text.length := by rw [h₁.pos, List.length_append, h.pos]
    rw [run, happend] at hrun
    have htail := run_sized ps h₁ hs₁ (fun q hq => hps q (List.mem_cons_of_mem p hq))
      (fun i hi => hok i (le_max_iff.2 (.inr (hpos ▸ hi)))) hrun
    rw [peak, ← max_assoc, ← hpos]
    exact htail

/-- **From a fresh block** the text ends in the least block of its kind that the peak fits. -/
theorem run_fresh (size : Nat) {ps : List (Piece α)} (hps : ∀ p ∈ ps, p.text.length < p.need)
    (hok : ∀ i, (size + 1) * 2 ^ i ≤ peak 0 ps → ok i = true) :
    ∃ b rest, run ok nul ps (Buf.empty nul (List.replicate size none)) = .ok b ∧
      b.calls = doublings (size + 1) (peak 0 ps) ∧ b.block = some ((textOf ps ++ [nul]).map some ++ rest) ∧
      (textOf ps).length + 1 + rest.length = (size + 1) * 2 ^ b.calls := by
  obtain ⟨b, hrun, hb⟩ := run_holds ps (holds_fresh ok nul size) hps hok
  have hsized := run_sized ps (holds_fresh ok nul size) (sized_fresh nul size) hps hok hrun
  rw [Nat.zero_max] at hsized
  obtain ⟨rest, hblock, hlen⟩ := hb.block
  refine ⟨b, rest, hrun, hsized.calls_eq (Nat.succ_pos size), hblock, ?_⟩
  rw [← hb.size]
  exact hlen

theorem peak_append : ∀ (ps qs : List (Piece α)) (pos : Nat),
    peak pos (ps ++ qs) = max (peak pos ps) (peak (pos + (textOf ps).length) qs)
  | [], qs, pos => (Nat.zero_max _).symm
  | p :: ps, qs, pos => by
    have htext : (textOf (p :: ps)).length = p.text.length + (textOf ps).length := by
      rw [textOf, List.flatMap_cons, List.length_append]
      rfl
    rw [List.cons_append, peak, peak, peak_append ps qs, htext, max_assoc, Nat.add_assoc]

/-- **A run that ends with a block had every reallocation it needed.** -/
theorem granted_of_run {ps : List (Piece α)} {last : Piece α} {b' : Buf α} (h : Holds ok nul start text b)
    (hps : ∀ p ∈ ps, p.Within start) (hlast : last.Within start) (hrun : run ok nul (ps ++ [last]) b = .ok b')
    (hb' : b'.block ≠ none) : ∀ i, start * 2 ^ i ≤ peak b.pos (ps ++ [last]) → ok i = true := by
  have hbody : ∀ i, start * 2 ^ i ≤ peak b.pos ps → ok i = true := by
    intro i hi
    by_contra hfail
    rw [run_last_of_failed hlast (by simpa using hfail) ps h hps hi] at hrun
    cases hrun
  obtain ⟨b₁, hrun₁, h₁⟩ := run_holds ps h (fun p hp => (hps p hp).1) hbody
  have hpos : b₁.pos = b.pos + (textOf ps).length := by rw [h₁.pos, List.length_append, h.pos]
  rcases append_cases h₁ hlast with ⟨-, -, -, hok⟩ | ⟨happend, -⟩
  · intro i hi
    rw [peak_append, le_max_iff, ← hpos] at hi
    rcases hi with hi | hi
    · exact hbody i hi
    · exact hok i (by simpa [peak] using hi)
  · rw [run_append, hrun₁] at hrun
    have hnull : (run ok nul [last] b₁) = .ok ⟨none, b₁.size * 2, b₁.pos, b₁.calls + 1⟩ := by
      rw [run, happend]
      rfl
    cases hnull.symm.trans hrun
    exact absurd rfl hb'

end Realloc
