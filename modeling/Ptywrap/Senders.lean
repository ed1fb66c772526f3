import Ptywrap.Interleave
import Ptywrap.Send
/-!
# Senders — two threads that send lines to one session

`ptywrap_send_line` takes no lock and writes a line in two steps at least: its text, whole or character by character,
and its newline.  Lines stay whole on the PTY in every schedule in which no thread writes while the other is in the
middle of a line (`sendLines_whole`), and mix in others (`sendLines_mixed`): in all others, for ordinary lines sent
without a delay (`sendLines_whole_iff`).
-/
namespace Ptywrap

open CInt (wrap32 intMax Fits)
open Interleave (Merge Shared Turn start)

/-- Every `write` accepts all the bytes it is given. -/
def acceptAll : WriteSchedule where
  accept := fun _ n => some n
  accept_le := fun _ _ _ h => Nat.le_of_eq (Option.some.inj h).symm
  accept_pos := fun _ _ _ hn h => Option.some.inj h ▸ hn

/-- What one `ptywrap_send_line` writes when every write is accepted whole, call by call: no newline after a text whose
length is a negative `int`. -/
def lineWrites (sess : Channel) (s : CString) : List (List UInt8) :=
  if sess.masterFd < 0 then []
  else
    let text := if 0 < sess.sendDelayMs then s.bytes.map (fun ch => [ch]) else [s.bytes]
    if wrap32 s.bytes.length < 0 then text else text ++ [[10]]

/-- Two threads about to send their lines. -/
def senders (sess : Channel) (first second : List CString) : Shared UInt8 :=
  start (first.map (lineWrites sess)) (second.map (lineWrites sess))

def wholeLine (s : CString) : List UInt8 := s.bytes ++ [10]

/-! ## The writes of a line -/

theorem sendChars_acceptAll : ∀ (data : List UInt8) (total : Int) (pty : Pty),
    sendChars acceptAll data total pty =
      (wrap32 (total + data.length), (data.map fun ch => [ch]).foldl (fun pty data => (acceptAll.write pty data).2) pty)
  | [], total, pty => by
    rw [List.length_nil, Int.natCast_zero, Int.add_zero]
    rfl
  | ch :: data, total, pty => by
    have ih := sendChars_acceptAll data (total + (1 : Nat)) (acceptAll.write pty [ch]).2
    have hstep : sendChars acceptAll (ch :: data) total pty =
        sendChars acceptAll data (total + (1 : Nat)) (acceptAll.write pty [ch]).2 := rfl
    have hsum : total + ((1 : Nat) : Int) + data.length = total + (ch :: data).length := by
      rw [List.length_cons]
      omega
    rw [hstep, ih, hsum]
    rfl

theorem ptywrapSend_acceptAll (sess : Channel) (data : List UInt8) (pty : Pty) (hfd : ¬ sess.masterFd < 0) :
    ptywrapSend acceptAll (some sess) (some data) pty =
      (wrap32 data.length, (if 0 < sess.sendDelayMs then data.map (fun ch => [ch]) else [data]).foldl
        (fun pty data => (acceptAll.write pty data).2) pty) := by
  unfold ptywrapSend
  dsimp only
  rw [if_neg hfd]
  by_cases hdelay : 0 < sess.sendDelayMs
  · rw [if_pos hdelay, if_pos hdelay, sendChars_acceptAll, Int.zero_add]
  · rw [if_neg hdelay, if_neg hdelay]
    rfl

/-- **A line is sent by its writes.** -/
theorem sendLine_writes (sess : Channel) (s : CString) (pty : Pty) :
    (ptywrapSendLine acceptAll (some sess) (some s) pty).2 =
      (lineWrites sess s).foldl (fun pty data => (acceptAll.write pty data).2) pty := by
  rw [sendLine_pty]
  unfold lineWrites
  by_cases hfd : sess.masterFd < 0
  · have hinval : ∀ data, ptywrapSend acceptAll (some sess) (some data) pty = (ptywrapErrInval, pty) := by
      intro data
      unfold ptywrapSend
      exact if_pos hfd
    rw [hinval, if_pos hfd, if_pos (show ptywrapErrInval < 0 by decide)]
    rfl
  rw [if_neg hfd, ptywrapSend_acceptAll sess _ _ hfd, ptywrapSend_acceptAll sess _ _ hfd]
  dsimp only
  by_cases hlen : wrap32 s.bytes.length < 0
  · rw [if_pos hlen, if_pos hlen]
  · rw [if_neg hlen, if_neg hlen, List.foldl_append]
    congr 1
    split
    · rfl
    · rfl

/-- **The writes of a line make up the line.** -/
theorem flatten_lineWrites {sess : Channel} {s : CString} (hfd : 0 ≤ sess.masterFd) (hlen : 0 ≤ wrap32 s.bytes.length) :
    (lineWrites sess s).flatten = wholeLine s := by
  have htext : (if 0 < sess.sendDelayMs then s.bytes.map (fun ch => [ch]) else [s.bytes]).flatten = s.bytes := by
    split
    · exact List.flatMap_singleton' s.bytes
    · exact List.flatten_singleton
  unfold lineWrites wholeLine
  rw [if_neg (Int.not_lt.2 hfd), if_neg (Int.not_lt.2 hlen), List.flatten_append, htext]
  rfl

/-! ## Two threads -/

theorem lines_of_writes {sess : Channel} (hfd : 0 ≤ sess.masterFd) {lines : List CString}
    (hlen : ∀ s ∈ lines, 0 ≤ wrap32 s.bytes.length) :
    (lines.map (lineWrites sess)).map List.flatten = lines.map wholeLine := by
  rw [List.map_map]
  exact List.map_congr_left fun s hs => flatten_lineWrites hfd (hlen s hs)

theorem senders_whole {sess : Channel} (hfd : 0 ≤ sess.masterFd) {first second : List CString}
    (hlen : ∀ s ∈ first ++ second, 0 ≤ wrap32 s.bytes.length) {turns : List Turn}
    (halone : Transducer.Throughout Shared.step Shared.Alone turns (senders sess first second)) :
    Interleave.Whole (first.map wholeLine) (second.map wholeLine) ((senders sess first second).run turns) := by
  have hfirst : ∀ s ∈ first, 0 ≤ wrap32 s.bytes.length := fun s hs => hlen s (List.mem_append_left _ hs)
  have hsecond : ∀ s ∈ second, 0 ≤ wrap32 s.bytes.length := fun s hs => hlen s (List.mem_append_right _ hs)
  have hstart := Interleave.whole_start (first.map (lineWrites sess)) (second.map (lineWrites sess))
  rw [lines_of_writes hfd hfirst, lines_of_writes hfd hsecond] at hstart
  exact Interleave.whole_run turns _ hstart halone

/-- **Lines do not mix** in a schedule in which no thread writes while the other is in the middle of a line: at any time
the PTY has got lines of both, whole and in their orders, and a part of one more line; in the end all lines of both. -/
theorem sendLines_whole (sess : Channel) (hfd : 0 ≤ sess.masterFd) (first second : List CString)
    (hlen : ∀ s ∈ first ++ second, 0 ≤ wrap32 s.bytes.length) (turns : List Turn)
    (halone : Transducer.Throughout Shared.step Shared.Alone turns (senders sess first second)) :
    let s := (senders sess first second).run turns
    (∃ ls rs lines part, ls <+: first.map wholeLine ∧ rs <+: second.map wholeLine ∧ Merge ls rs lines ∧
        s.stream = lines.flatten ++ part ∧
        (part = [] ∨ ∃ line, part <+: line ∧
          (ls ++ [line] <+: first.map wholeLine ∨ rs ++ [line] <+: second.map wholeLine))) ∧
      (s.Finished → ∃ lines, Merge (first.map wholeLine) (second.map wholeLine) lines ∧ s.stream = lines.flatten) := by
  intro s
  have hwhole := senders_whole hfd hlen halone
  exact ⟨hwhole.soFar, hwhole.merge⟩

/-- `a` and `b`, one after the other. -/
theorem sendLines_whole_two :
    let first : List CString := [⟨[97], by decide⟩]
    let second : List CString := [⟨[98], by decide⟩]
    let s := (senders ⟨5, 0⟩ first second).run [.left, .left, .right, .right]
    (∃ ls rs lines part, ls <+: first.map wholeLine ∧ rs <+: second.map wholeLine ∧ Merge ls rs lines ∧
        s.stream = lines.flatten ++ part ∧
        (part = [] ∨ ∃ line, part <+: line ∧
          (ls ++ [line] <+: first.map wholeLine ∨ rs ++ [line] <+: second.map wholeLine))) ∧
      (s.Finished → ∃ lines, Merge (first.map wholeLine) (second.map wholeLine) lines ∧ s.stream = lines.flatten) :=
  sendLines_whole ⟨5, 0⟩ (by decide) _ _ (by simp [wrap32]) _ ⟨.inr rfl, .inr rfl, .inr rfl, .inr rfl, trivial⟩

/-- `a` and `b`, the second written between the text and the newline of the first: `ab` and two newlines. -/
theorem sendLines_mixed :
    ¬ ∀ (sess : Channel) (first second : List CString) (turns : List Turn), 0 ≤ sess.masterFd →
      let s := (senders sess first second).run turns
      s.Finished → ∃ lines, Merge (first.map wholeLine) (second.map wholeLine) lines ∧ s.stream = lines.flatten := by
  intro h
  obtain ⟨lines, hmerge, hstream⟩ := h ⟨5, 0⟩ [⟨[97], by decide⟩] [⟨[98], by decide⟩] [.left, .right, .left, .right]
    (by decide) ⟨by decide, by decide⟩
  have hsecond : lines = [[97, 10], [98, 10]] ∨ lines = [[98, 10], [97, 10]] := by
    cases hmerge with
    | left a hmerge =>
      cases hmerge with
      | right b hmerge =>
        cases hmerge
        exact .inl rfl
    | right b hmerge =>
      cases hmerge with
      | left a hmerge =>
        cases hmerge
        exact .inr rfl
  rcases hsecond with rfl | rfl
  · revert hstream
    decide
  · revert hstream
    decide

/-! ## Ordinary lines -/

/-- A text that is one line: not empty, without a newline, and of a length an `int` can hold. -/
def OneLine (s : CString) : Prop := s.bytes ≠ [] ∧ 10 ∉ s.bytes ∧ 0 ≤ wrap32 s.bytes.length

theorem lineWrites_oneLine {sess : Channel} (hfd : 0 ≤ sess.masterFd) (hdelay : ¬ 0 < sess.sendDelayMs) {s : CString}
    (hs : OneLine s) : lineWrites sess s = Interleave.lineBlock 10 s.bytes := by
  unfold lineWrites
  rw [if_neg (Int.not_lt.2 hfd), if_neg hdelay, if_neg (Int.not_lt.2 hs.2.2)]
  rfl

theorem senders_ofLines {sess : Channel} (hfd : 0 ≤ sess.masterFd) (hdelay : ¬ 0 < sess.sendDelayMs)
    {first second : List CString} (hlines : ∀ s ∈ first ++ second, OneLine s) :
    (senders sess first second).OfLines 10 := by
  have hwriter : ∀ lines : List CString, (∀ s ∈ lines, OneLine s) →
      (⟨lines.map (lineWrites sess), []⟩ : Interleave.Writer UInt8).OfLines 10 := by
    intro lines h
    have hmap : lines.map (lineWrites sess) = (lines.map CString.bytes).map (Interleave.lineBlock 10) := by
      rw [List.map_map]
      exact List.map_congr_left fun s hs => lineWrites_oneLine hfd hdelay (h s hs)
    rw [hmap]
    refine .between _ fun t ht => ?_
    obtain ⟨s, hs, rfl⟩ := List.mem_map.1 ht
    exact ⟨(h s hs).1, (h s hs).2.1⟩
  exact ⟨hwriter first fun s hs => hlines s (List.mem_append_left _ hs),
    hwriter second fun s hs => hlines s (List.mem_append_right _ hs)⟩

/-- **Ordinary lines sent without a delay stay whole exactly when no thread writes into the other's line.** -/
theorem sendLines_whole_iff (sess : Channel) (hfd : 0 ≤ sess.masterFd) (hdelay : ¬ 0 < sess.sendDelayMs)
    (first second : List CString) (hlines : ∀ s ∈ first ++ second, OneLine s) (turns : List Turn)
    (hfin : ((senders sess first second).run turns).Finished) :
    (∃ lines, Merge (first.map wholeLine) (second.map wholeLine) lines ∧
        ((senders sess first second).run turns).stream = lines.flatten) ↔
      Transducer.Throughout Shared.step Shared.Alone turns (senders sess first second) := by
  constructor
  · rintro ⟨lines, hmerge, hstream⟩
    refine Interleave.throughout_alone_of_guarded turns _ (senders_ofLines hfd hdelay hlines) hfin ?_
    rw [hstream]
    refine Occurrence.guarded_flatten fun l hl => ?_
    have hmem := hmerge.mem hl
    rw [← List.map_append] at hmem
    obtain ⟨s, hs, rfl⟩ := List.mem_map.1 hmem
    exact Occurrence.guarded_line (hlines s hs).1 (hlines s hs).2.1
  · intro halone
    exact (senders_whole hfd (fun s hs => (hlines s hs).2.2) halone).merge hfin

end Ptywrap
