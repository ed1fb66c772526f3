import Ptywrap.Occurrence
import Ptywrap.Transducer
/-!
# Interleave — two writers of blocks on one stream

A writer goes through a list of blocks and hands the pieces of each, one at a time, to a stream it shares with another
writer.  Blocks stay whole on the stream in every schedule in which nobody hands over a piece while the other is in the
middle of a block (`whole_run`).  For blocks that are a text and a separator these are the only such schedules
(`throughout_alone_of_guarded`): any other leaves two separators next to each other.
-/
namespace Interleave

variable {α β : Type}

/-- The third list is the first two, each in its own order. -/
inductive Merge : List α → List α → List α → Prop where
  | nil : Merge [] [] []
  | left (a : α) {as bs cs : List α} : Merge as bs cs → Merge (a :: as) bs (a :: cs)
  | right (b : α) {as bs cs : List α} : Merge as bs cs → Merge as (b :: bs) (b :: cs)

theorem Merge.mem {as bs cs : List α} (h : Merge as bs cs) {x : α} (hx : x ∈ cs) : x ∈ as ++ bs := by
  induction h with
  | nil => exact hx
  | left a _ ih =>
    rcases List.mem_cons.1 hx with rfl | hx
    · exact List.mem_cons_self
    · exact List.mem_cons_of_mem a (ih hx)
  | @right b as bs cs _ ih =>
    rcases List.mem_cons.1 hx with rfl | hx
    · exact List.mem_append_right as List.mem_cons_self
    · exact List.mem_append.2 ((List.mem_append.1 (ih hx)).imp id (List.mem_cons_of_mem b))

theorem Merge.snoc_left {as bs cs : List α} (h : Merge as bs cs) (a : α) : Merge (as ++ [a]) bs (cs ++ [a]) := by
  induction h with
  | nil => exact .left a .nil
  | left a' _ ih => exact .left a' ih
  | right b _ ih => exact .right b ih

theorem Merge.snoc_right {as bs cs : List α} (h : Merge as bs cs) (b : α) : Merge as (bs ++ [b]) (cs ++ [b]) := by
  induction h with
  | nil => exact .right b .nil
  | left a _ ih => exact .left a ih
  | right b' _ ih => exact .right b' ih

/-- A writer: the pieces still to come, block by block, and what it has written of its current block. -/
structure Writer (β : Type) where
  blocks : List (List (List β))
  part : List β

/-- The next piece, and the writer after it; a writer without blocks has nothing to write. -/
def Writer.next (w : Writer β) : List β × Writer β :=
  match w.blocks with
  | [] => ([], w)
  | [] :: blocks => ([], ⟨blocks, []⟩)
  | [piece] :: blocks => (piece, ⟨blocks, []⟩)
  | (piece :: pieces) :: blocks => (piece, ⟨pieces :: blocks, w.part ++ piece⟩)

inductive Turn where
  | left
  | right
deriving DecidableEq, Repr

structure Shared (β : Type) where
  left : Writer β
  right : Writer β
  stream : List β

def Shared.step (s : Shared β) : Turn → Shared β
  | .left => ⟨s.left.next.2, s.right, s.stream ++ s.left.next.1⟩
  | .right => ⟨s.left, s.right.next.2, s.stream ++ s.right.next.1⟩

def Shared.run (s : Shared β) (turns : List Turn) : Shared β := turns.foldl Shared.step s

/-- Two writers at the start of their blocks. -/
def start (lefts rights : List (List (List β))) : Shared β := ⟨⟨lefts, []⟩, ⟨rights, []⟩, []⟩

def Shared.Finished (s : Shared β) : Prop := s.left.blocks = [] ∧ s.right.blocks = []

/-- The piece handed over is empty, or the other writer is between two blocks. -/
def Shared.Alone (s : Shared β) : Turn → Prop
  | .left => s.left.next.1 = [] ∨ s.right.part = []
  | .right => s.right.next.1 = [] ∨ s.left.part = []

/-! ## One step -/

/-- The bytes of the blocks not yet complete, the current one whole. -/
def Writer.remaining (w : Writer β) : List (List β) :=
  match w.blocks with
  | [] => []
  | block :: blocks => (w.part ++ block.flatten) :: blocks.map List.flatten

/-- Without a block nothing is written of it. -/
def Writer.Settled (w : Writer β) : Prop := w.blocks = [] → w.part = []

/-- **A piece goes on with the current block or completes it.** -/
theorem Writer.next_cases (w : Writer β) (hw : w.Settled) :
    w.next.2.Settled ∧
      ((w.next.2.part = w.part ++ w.next.1 ∧ w.next.2.remaining = w.remaining) ∨
        (w.next.2.part = [] ∧ w.remaining = (w.part ++ w.next.1) :: w.next.2.remaining)) := by
  obtain ⟨blocks, part⟩ := w
  cases blocks with
  | nil => exact ⟨hw, .inl ⟨(List.append_nil part).symm, rfl⟩⟩
  | cons block blocks =>
    cases block with
    | nil =>
      refine ⟨fun _ => rfl, .inr ⟨rfl, ?_⟩⟩
      cases blocks with
      | nil => rfl
      | cons block blocks => rfl
    | cons piece pieces =>
      cases pieces with
      | nil =>
        refine ⟨fun _ => rfl, .inr ⟨rfl, ?_⟩⟩
        unfold Writer.remaining Writer.next
        dsimp only
        rw [List.flatten_cons, List.flatten_nil, List.append_nil]
        cases blocks with
        | nil => rfl
        | cons block blocks => rfl
      | cons piece' pieces =>
        refine ⟨fun h => (List.cons_ne_nil _ _ h).elim, .inl ⟨rfl, ?_⟩⟩
        unfold Writer.remaining Writer.next
        dsimp only
        rw [List.append_assoc, List.flatten_cons]
        rfl

/-- The stream holds complete blocks of both, in a merge of their orders, and the current block of at most one of them
up to here. -/
def Whole (lefts rights : List (List β)) (s : Shared β) : Prop :=
  s.left.Settled ∧ s.right.Settled ∧ (s.left.part = [] ∨ s.right.part = []) ∧
    ∃ ls rs blocks, lefts = ls ++ s.left.remaining ∧ rights = rs ++ s.right.remaining ∧ Merge ls rs blocks ∧
      s.stream = blocks.flatten ++ s.left.part ++ s.right.part

theorem whole_step {lefts rights : List (List β)} {s : Shared β} (h : Whole lefts rights s) (t : Turn)
    (halone : s.Alone t) : Whole lefts rights (s.step t) := by
  obtain ⟨hleft, hright, hpart, ls, rs, blocks, hl, hr, hmerge, hstream⟩ := h
  cases t with
  | left =>
    have halone' : s.left.next.1 = [] ∨ s.right.part = [] := halone
    have hswap : s.stream ++ s.left.next.1 = blocks.flatten ++ (s.left.part ++ s.left.next.1) ++ s.right.part := by
      rw [hstream]
      rcases halone' with hpiece | hother
      · rw [hpiece, List.append_nil, List.append_nil]
      · rw [hother, List.append_nil, List.append_nil, List.append_assoc]
    obtain ⟨hnext, hcases⟩ := s.left.next_cases hleft
    unfold Shared.step Whole
    dsimp only
    rcases hcases with ⟨hgoes, hrem⟩ | ⟨hdone, hrem⟩
    · rw [hgoes, hrem]
      refine ⟨hnext, hright, ?_, ls, rs, blocks, hl, hr, hmerge, hswap⟩
      rcases halone' with hpiece | hother
      · rw [hpiece, List.append_nil]
        exact hpart
      · exact .inr hother
    · rw [hdone]
      refine ⟨hnext, hright, .inl rfl, _, rs, _, ?_, hr, hmerge.snoc_left (s.left.part ++ s.left.next.1), ?_⟩
      · rw [hl, hrem, List.append_assoc, List.singleton_append]
      · rw [hswap, List.flatten_append, List.flatten_singleton, List.append_nil]
  | right =>
    have halone' : s.right.next.1 = [] ∨ s.left.part = [] := halone
    obtain ⟨hnext, hcases⟩ := s.right.next_cases hright
    unfold Shared.step Whole
    dsimp only
    rcases hcases with ⟨hgoes, hrem⟩ | ⟨hdone, hrem⟩
    · rw [hgoes, hrem, hstream]
      refine ⟨hleft, hnext, ?_, ls, rs, blocks, hl, hr, hmerge, List.append_assoc _ _ _⟩
      rcases halone' with hpiece | hother
      · rw [hpiece, List.append_nil]
        exact hpart
      · exact .inl hother
    · rw [hdone]
      refine ⟨hleft, hnext, .inr rfl, ls, _, _, hl, ?_, hmerge.snoc_right (s.right.part ++ s.right.next.1), ?_⟩
      · rw [hr, hrem, List.append_assoc, List.singleton_append]
      · rw [hstream, List.flatten_append, List.flatten_singleton, List.append_nil]
        rcases halone' with hpiece | hother
        · -- an empty last piece: one of the two current blocks is empty as well
          rw [hpiece, List.append_nil, List.append_nil]
          rcases hpart with hleftPart | hrightPart
          · rw [hleftPart, List.append_nil, List.append_nil]
          · rw [hrightPart, List.append_nil, List.append_nil]
        · rw [hother, List.append_nil, List.append_nil, List.append_assoc]

/-- **Blocks stay whole** in a schedule in which nobody writes into the other's block. -/
theorem whole_run {lefts rights : List (List β)} (turns : List Turn) (s : Shared β) (h : Whole lefts rights s)
    (halone : Transducer.Throughout Shared.step Shared.Alone turns s) : Whole lefts rights (s.run turns) :=
  Transducer.invariant_of_throughout (Whole lefts rights) (fun _ t h halone => whole_step h t halone) turns s h halone

theorem remaining_start (blocks : List (List (List β))) :
    (⟨blocks, []⟩ : Writer β).remaining = blocks.map List.flatten := by
  cases blocks with
  | nil => rfl
  | cons block blocks => rfl

theorem whole_start (lefts rights : List (List (List β))) :
    Whole (lefts.map List.flatten) (rights.map List.flatten) (start lefts rights) :=
  ⟨fun _ => rfl, fun _ => rfl, .inl rfl, [], [], [], (remaining_start lefts).symm, (remaining_start rights).symm, .nil, rfl⟩

/-- **When both are finished the stream is the blocks of both**, each in its own order. -/
theorem Whole.merge {lefts rights : List (List β)} {s : Shared β} (h : Whole lefts rights s) (hs : s.Finished) :
    ∃ blocks, Merge lefts rights blocks ∧ s.stream = blocks.flatten := by
  obtain ⟨hleft, hright, -, ls, rs, blocks, rfl, rfl, hmerge, hstream⟩ := h
  have hnone : ∀ w : Writer β, w.blocks = [] → w.remaining = [] := by
    intro w hw
    unfold Writer.remaining
    rw [hw]
  rw [hnone _ hs.1, hnone _ hs.2, List.append_nil, List.append_nil]
  rw [hleft hs.1, hright hs.2, List.append_nil, List.append_nil] at hstream
  exact ⟨blocks, hmerge, hstream⟩

/-- **Before that it is complete blocks of both and a part of one more.** -/
theorem Whole.soFar {lefts rights : List (List β)} {s : Shared β} (h : Whole lefts rights s) :
    ∃ ls rs blocks part, ls <+: lefts ∧ rs <+: rights ∧ Merge ls rs blocks ∧ s.stream = blocks.flatten ++ part ∧
      (part = [] ∨ ∃ block, part <+: block ∧ (ls ++ [block] <+: lefts ∨ rs ++ [block] <+: rights)) := by
  obtain ⟨hleft, hright, hpart, ls, rs, blocks, rfl, rfl, hmerge, hstream⟩ := h
  have hcurrent : ∀ w : Writer β, w.Settled → w.part = [] ∨ ∃ block rest, w.remaining = block :: rest ∧ w.part <+: block := by
    intro w hw
    unfold Writer.remaining
    cases hblocks : w.blocks with
    | nil => exact .inl (hw hblocks)
    | cons block rest => exact .inr ⟨_, _, rfl, List.prefix_append _ _⟩
  refine ⟨ls, rs, blocks, s.left.part ++ s.right.part, List.prefix_append _ _, List.prefix_append _ _, hmerge,
    hstream.trans (List.append_assoc _ _ _), ?_⟩
  rcases hpart with hpart | hpart
  · rw [hpart, List.nil_append]
    refine (hcurrent s.right hright).imp id ?_
    rintro ⟨block, rest, hrem, hpre⟩
    exact ⟨block, hpre, .inr ⟨rest, by rw [hrem, List.append_assoc, List.singleton_append]⟩⟩
  · rw [hpart, List.append_nil]
    refine (hcurrent s.left hleft).imp id ?_
    rintro ⟨block, rest, hrem, hpre⟩
    exact ⟨block, hpre, .inl ⟨rest, by rw [hrem, List.append_assoc, List.singleton_append]⟩⟩

/-! ## Blocks of a text and a separator -/

open Occurrence (Guarded)

/-- A text, not empty and without the separator, and then the separator. -/
def lineBlock (c : β) (text : List β) : List (List β) := [text, [c]]

/-- A writer of such blocks, between two of them or after the text of one. -/
inductive Writer.OfLines (c : β) : Writer β → Prop where
  | between (texts : List (List β)) (h : ∀ t ∈ texts, t ≠ [] ∧ c ∉ t) : OfLines c ⟨texts.map (lineBlock c), []⟩
  | inLine (text : List β) (texts : List (List β)) (ht : text ≠ []) (h : ∀ t ∈ texts, t ≠ [] ∧ c ∉ t) :
      OfLines c ⟨[[c]] :: texts.map (lineBlock c), text⟩

/-- **A writer of lines is done, or begins a line, or ends one.** -/
theorem Writer.OfLines.next {c : β} {w : Writer β} (h : w.OfLines c) :
    w.next.2.OfLines c ∧
      ((w.part = [] ∧ w.next = ([], w)) ∨ (w.part = [] ∧ w.next.2.part ≠ []) ∨
        (w.part ≠ [] ∧ w.next.1 = [c] ∧ w.next.2.part = [])) := by
  cases h with
  | inLine text texts ht h => exact ⟨.between texts h, .inr (.inr ⟨ht, rfl, rfl⟩)⟩
  | between texts h =>
    cases texts with
    | nil => exact ⟨.between [] h, .inl ⟨rfl, rfl⟩⟩
    | cons text texts =>
      have ht := (h text List.mem_cons_self).1
      exact ⟨.inLine text texts ht fun t ht => h t (List.mem_cons_of_mem text ht), .inr (.inl ⟨rfl, ht⟩)⟩

def Shared.OfLines (c : β) (s : Shared β) : Prop := s.left.OfLines c ∧ s.right.OfLines c

theorem Shared.OfLines.step {c : β} {s : Shared β} (h : s.OfLines c) (t : Turn) : (s.step t).OfLines c := by
  cases t with
  | left => exact ⟨h.1.next.1, h.2⟩
  | right => exact ⟨h.1, h.2.next.1⟩

/-- Two lines were mixed: both writers are in the middle of a line, or one is although a separator came last. -/
def Shared.Mixed (c : β) (s : Shared β) : Prop :=
  (s.left.part ≠ [] ∨ s.right.part ≠ []) ∧
    (s.stream.getLast? = some c ∨ s.left.part ≠ [] ∧ s.right.part ≠ [])

/-- **Mixed lines stay mixed**, as long as no two separators are next to each other. -/
theorem mixed_step {c : β} {s : Shared β} (hs : s.OfLines c) (h : s.Mixed c) (t : Turn)
    (hguard : Guarded c (s.step t).stream) : (s.step t).Mixed c := by
  obtain ⟨hsome, hlast⟩ := h
  cases t with
  | left =>
    have hguard' : Guarded c (s.stream ++ s.left.next.1) := hguard
    unfold Shared.step Shared.Mixed
    dsimp only
    rcases hs.1.next.2 with ⟨hpart, hdone⟩ | ⟨hpart, hbegins⟩ | ⟨hpart, hsep, hends⟩
    · rw [hdone, List.append_nil]
      exact ⟨hsome, hlast⟩
    · have hother := hsome.resolve_left fun h => h hpart
      exact ⟨.inl hbegins, .inr ⟨hbegins, hother⟩⟩
    · rw [hsep] at hguard' ⊢
      have hother := (hlast.resolve_left fun hc => Occurrence.not_guarded_snoc hc hguard').2
      exact ⟨.inr hother, .inl List.getLast?_concat⟩
  | right =>
    have hguard' : Guarded c (s.stream ++ s.right.next.1) := hguard
    unfold Shared.step Shared.Mixed
    dsimp only
    rcases hs.2.next.2 with ⟨hpart, hdone⟩ | ⟨hpart, hbegins⟩ | ⟨hpart, hsep, hends⟩
    · rw [hdone, List.append_nil]
      exact ⟨hsome, hlast⟩
    · have hother := hsome.resolve_right fun h => h hpart
      exact ⟨.inr hbegins, .inr ⟨hother, hbegins⟩⟩
    · rw [hsep] at hguard' ⊢
      have hother := (hlast.resolve_left fun hc => Occurrence.not_guarded_snoc hc hguard').1
      exact ⟨.inl hother, .inl List.getLast?_concat⟩

theorem stream_prefix_step (s : Shared β) (t : Turn) : s.stream <+: (s.step t).stream := by
  cases t with
  | left => exact List.prefix_append _ _
  | right => exact List.prefix_append _ _

theorem stream_prefix_run : ∀ (turns : List Turn) (s : Shared β), s.stream <+: (s.run turns).stream
  | [], _ => List.prefix_refl _
  | t :: turns, s => (stream_prefix_step s t).trans (stream_prefix_run turns (s.step t))

theorem mixed_run {c : β} : ∀ (turns : List Turn) (s : Shared β), s.OfLines c → s.Mixed c →
    Guarded c (s.run turns).stream → (s.run turns).Mixed c
  | [], _, _, h, _ => h
  | t :: turns, s, hs, h, hguard =>
    mixed_run turns (s.step t) (hs.step t)
      (mixed_step hs h t (hguard.initial (stream_prefix_run turns (s.step t)))) hguard

theorem not_mixed_of_finished {c : β} {s : Shared β} (hs : s.OfLines c) (h : s.Finished) : ¬ s.Mixed c := by
  have hpart : ∀ w : Writer β, w.OfLines c → w.blocks = [] → w.part = [] := by
    intro w hw hblocks
    cases hw with
    | between texts h => rfl
    | inLine text texts ht h => cases hblocks
  rintro ⟨hleft | hright, -⟩
  · exact hleft (hpart _ hs.1 h.1)
  · exact hright (hpart _ hs.2 h.2)

theorem ofLines_run {c : β} : ∀ (turns : List Turn) (s : Shared β), s.OfLines c → (s.run turns).OfLines c
  | [], _, h => h
  | t :: turns, s, h => ofLines_run turns (s.step t) (h.step t)

/-- A step into the other's line mixes the two. -/
theorem mixed_of_not_alone {c : β} {s : Shared β} (hs : s.OfLines c) (t : Turn) (h : ¬ s.Alone t)
    (hguard : Guarded c (s.step t).stream) : (s.step t).Mixed c := by
  cases t with
  | left =>
    obtain ⟨hpiece, hother⟩ := not_or.1 h
    rcases hs.1.next.2 with ⟨hpart, hdone⟩ | ⟨hpart, hbegins⟩ | ⟨hpart, -, -⟩
    · exact absurd (congrArg Prod.fst hdone) hpiece
    · exact ⟨.inr hother, .inr ⟨hbegins, hother⟩⟩
    · exact mixed_step hs ⟨.inl hpart, .inr ⟨hpart, hother⟩⟩ .left hguard
  | right =>
    obtain ⟨hpiece, hother⟩ := not_or.1 h
    rcases hs.2.next.2 with ⟨hpart, hdone⟩ | ⟨hpart, hbegins⟩ | ⟨hpart, -, -⟩
    · exact absurd (congrArg Prod.fst hdone) hpiece
    · exact ⟨.inl hother, .inr ⟨hother, hbegins⟩⟩
    · exact mixed_step hs ⟨.inr hpart, .inr ⟨hother, hpart⟩⟩ .right hguard

/-- **Without two separators next to each other nobody wrote into the other's line.** -/
theorem throughout_alone_of_guarded {c : β} : ∀ (turns : List Turn) (s : Shared β), s.OfLines c →
    (s.run turns).Finished → Guarded c (s.run turns).stream → Transducer.Throughout Shared.step Shared.Alone turns s
  | [], _, _, _, _ => trivial
  | t :: turns, s, hs, hfin, hguard => by
    refine ⟨Classical.byContradiction fun halone => ?_, ?_⟩
    · have hmixed := mixed_of_not_alone hs t halone (hguard.initial (stream_prefix_run turns (s.step t)))
      exact not_mixed_of_finished (ofLines_run turns _ (hs.step t)) hfin
        (mixed_run turns (s.step t) (hs.step t) hmixed hguard)
    · exact throughout_alone_of_guarded turns (s.step t) (hs.step t) hfin hguard

end Interleave
