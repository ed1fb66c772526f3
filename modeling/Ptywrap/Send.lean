import Mathlib.Data.List.Infix
import Ptywrap.Session
/-!
# Send — `ptywrap_send`, `ptywrap_send_str`, `ptywrap_send_line` (`api.c`)

The PTY master is outside the library and is taken as a schedule of `write` outcomes: a call on `n` bytes fails or
accepts some of them, at least one of at least one, and the kernel keeps what it accepted.  A send delivers a prefix of
its data (`ptywrapSend_prefix`) and answers with its length, except where the loop over characters fails after the first
of them (`ptywrapSend_accounted_iff`); a line is cut only between its text and its newline, on the path without a delay,
where a short write is not noticed (`sendLine_prefix_iff`).
-/
namespace Ptywrap

open CInt (wrap32 intMax Fits)

/-- The outcomes of `write` on the master: call `i` on `n` bytes returns `-1`, or accepts `k` of them. -/
structure WriteSchedule where
  accept : Nat → Nat → Option Nat
  accept_le : ∀ i n k, accept i n = some k → k ≤ n
  accept_pos : ∀ i n k, 0 < n → accept i n = some k → 0 < k

/-- The master as the kernel sees it: how many times `write` was called, and the bytes it accepted. -/
structure Pty where
  calls : Nat
  delivered : List UInt8
deriving DecidableEq, Repr

/-- What a send reads of the session: `master_fd`, `send_delay_ms`. -/
structure Channel where
  masterFd : Int
  sendDelayMs : Int

/-- A NUL-terminated string: the bytes before the NUL. -/
structure CString where
  bytes : List UInt8
  no_nul : (0 : UInt8) ∉ bytes

/-- `write(master_fd, data, len)`. -/
def WriteSchedule.write (w : WriteSchedule) (pty : Pty) (data : List UInt8) : Option Nat × Pty :=
  match w.accept pty.calls data.length with
  | none => (none, { pty with calls := pty.calls + 1 })
  | some k => (some k, ⟨pty.calls + 1, pty.delivered ++ data.take k⟩)

/-- The loop of `ptywrap_send` with a delay: one `write` a character, with the sum so far.  The `usleep` between two of
them leaves no trace here. -/
def sendChars (w : WriteSchedule) : List UInt8 → Int → Pty → Int × Pty
  | [], totalWritten, pty => (wrap32 totalWritten, pty)
  | ch :: data, totalWritten, pty =>
    match w.write pty [ch] with
    | (none, pty) => (ptywrapErrPty, pty)
    | (some written, pty) => sendChars w data (totalWritten + written) pty

/-- `ptywrap_send`; a null pointer is `none`. -/
def ptywrapSend (w : WriteSchedule) (session : Option Channel) (data : Option (List UInt8)) (pty : Pty) : Int × Pty :=
  match session, data with
  | some sess, some data =>
    if sess.masterFd < 0 then (ptywrapErrInval, pty)
    else if 0 < sess.sendDelayMs then sendChars w data 0 pty
    else
      match w.write pty data with
      | (none, pty) => (ptywrapErrPty, pty)
      | (some written, pty) => (wrap32 written, pty)
  | _, _ => (ptywrapErrInval, pty)

def ptywrapSendStr (w : WriteSchedule) (session : Option Channel) (str : Option CString) (pty : Pty) : Int × Pty :=
  match str with
  | none => (ptywrapErrInval, pty)
  | some str => ptywrapSend w session (some str.bytes) pty

def ptywrapSendLine (w : WriteSchedule) (session : Option Channel) (str : Option CString) (pty : Pty) : Int × Pty :=
  match str with
  | none => (ptywrapErrInval, pty)
  | some str =>
    let (ret, pty) := ptywrapSendStr w session (some str) pty
    if ret < 0 then (ret, pty)
    else
      let (ret2, pty) := ptywrapSend w session (some [10]) pty
      if ret2 < 0 then (ret2, pty) else (wrap32 (ret + ret2), pty)

/-! ## One send -/

variable (w : WriteSchedule)

/-- One byte is offered, so one is accepted. -/
theorem sendChars_cons (ch : UInt8) (data : List UInt8) (total : Int) (pty : Pty) :
    sendChars w (ch :: data) total pty =
      match w.accept pty.calls 1 with
      | none => (ptywrapErrPty, { pty with calls := pty.calls + 1 })
      | some _ => sendChars w data (total + 1) ⟨pty.calls + 1, pty.delivered ++ [ch]⟩ := by
  unfold sendChars WriteSchedule.write
  rw [List.length_singleton]
  cases hacc : w.accept pty.calls 1 with
  | none => rfl
  | some k =>
    obtain rfl : k = 1 := Nat.le_antisymm (w.accept_le _ _ _ hacc) (w.accept_pos _ _ _ Nat.one_pos hacc)
    cases data <;> rfl

/-- **A send with a delay delivers everything, or stops with an error after a prefix.** -/
theorem sendChars_spec : ∀ (data : List UInt8) (total : Int) (pty : Pty),
    ∃ sent, (sendChars w data total pty).2.delivered = pty.delivered ++ sent ∧
      (sent = data ∧ (sendChars w data total pty).1 = wrap32 (total + data.length) ∨
        sent <+: data ∧ (sendChars w data total pty).1 = ptywrapErrPty)
  | [], total, pty => ⟨[], (List.append_nil _).symm, .inl ⟨rfl, by simp [sendChars]⟩⟩
  | ch :: data, total, pty => by
    rw [sendChars_cons]
    cases w.accept pty.calls 1 with
    | none => exact ⟨[], (List.append_nil _).symm, .inr ⟨List.nil_prefix, rfl⟩⟩
    | some k =>
      dsimp only
      obtain ⟨sent, hsent, hret⟩ := sendChars_spec data (total + 1) ⟨pty.calls + 1, pty.delivered ++ [ch]⟩
      refine ⟨ch :: sent, ?_, ?_⟩
      · exact hsent.trans (List.append_assoc _ _ _)
      · rcases hret with ⟨rfl, hret⟩ | ⟨hpre, hret⟩
        · refine .inl ⟨rfl, hret.trans ?_⟩
          rw [List.length_cons]
          congr 1
          omega
        · exact .inr ⟨(List.prefix_cons_inj ch).2 hpre, hret⟩

/-- **A send delivers a prefix of its data.** -/
theorem ptywrapSend_prefix (sess : Channel) (data : List UInt8) (pty : Pty) :
    ∃ sent, (ptywrapSend w (some sess) (some data) pty).2.delivered = pty.delivered ++ sent ∧ sent <+: data := by
  unfold ptywrapSend
  dsimp only
  by_cases hfd : sess.masterFd < 0
  · rw [if_pos hfd]
    exact ⟨[], (List.append_nil _).symm, List.nil_prefix⟩
  by_cases hdelay : 0 < sess.sendDelayMs
  · rw [if_neg hfd, if_pos hdelay]
    obtain ⟨sent, hsent, h⟩ := sendChars_spec w data 0 pty
    refine ⟨sent, hsent, ?_⟩
    rcases h with ⟨rfl, -⟩ | ⟨h, -⟩
    · exact List.prefix_refl _
    · exact h
  · rw [if_neg hfd, if_neg hdelay]
    unfold WriteSchedule.write
    cases w.accept pty.calls data.length with
    | none => exact ⟨[], (List.append_nil _).symm, List.nil_prefix⟩
    | some k => exact ⟨data.take k, rfl, List.take_prefix k data⟩

/-! ## One line -/

theorem take_newline_prefix_iff (s : List UInt8) (k : Nat) (hk : k ≤ s.length) :
    s.take k ++ [10] <+: s ++ [10] ↔ k = s.length ∨ s[k]? = some 10 := by
  rcases Nat.eq_or_lt_of_le hk with rfl | hlt
  · rw [List.take_length]
    exact iff_of_true (List.prefix_refl _) (.inl rfl)
  have hsplit : s = s.take k ++ s[k] :: s.drop (k + 1) := by
    rw [List.cons_getElem_drop_succ, List.take_append_drop]
  rw [List.getElem?_eq_getElem hlt, Option.some.injEq]
  conv => lhs; rhs; rw [hsplit, List.append_assoc, List.cons_append]
  rw [List.prefix_append_right_inj, List.cons_prefix_cons]
  constructor
  · rintro ⟨h, -⟩
    exact .inr h.symm
  · rintro (h | h)
    · exact absurd h (Nat.ne_of_lt hlt)
    · exact ⟨h.symm, List.nil_prefix⟩

theorem newline_prefix (sess : Channel) (s : List UInt8) (pty : Pty) (old : List UInt8)
    (h : pty.delivered = old ++ s) :
    (ptywrapSend w (some sess) (some [10]) pty).2.delivered <+: old ++ (s ++ [10]) := by
  obtain ⟨sent, hsent, hpre⟩ := ptywrapSend_prefix w sess [10] pty
  rw [hsent, h, List.append_assoc, List.prefix_append_right_inj, List.prefix_append_right_inj]
  exact hpre

/-- The line is delivered as a prefix: there is no descriptor, or a delay is set, or the one `write` of the text fails,
accepts all of it or so much that the `int` returned is negative, or the newline's `write` fails, or the text goes on
with a newline where it was cut. -/
def LineKept (w : WriteSchedule) (sess : Channel) (s : CString) (calls : Nat) : Prop :=
  sess.masterFd < 0 ∨ 0 < sess.sendDelayMs ∨ ∀ k, w.accept calls s.bytes.length = some k →
    k = s.bytes.length ∨ wrap32 k < 0 ∨ w.accept (calls + 1) 1 = none ∨ s.bytes[k]? = some 10

/-- The newline is sent exactly when the text's return value is not negative. -/
theorem sendLine_pty (sess : Channel) (s : CString) (pty : Pty) :
    (ptywrapSendLine w (some sess) (some s) pty).2 =
      if (ptywrapSend w (some sess) (some s.bytes) pty).1 < 0 then (ptywrapSend w (some sess) (some s.bytes) pty).2
      else (ptywrapSend w (some sess) (some [10]) (ptywrapSend w (some sess) (some s.bytes) pty).2).2 := by
  unfold ptywrapSendLine ptywrapSendStr
  dsimp only
  split
  · rfl
  split <;> rfl

theorem ptywrapSend_of_no_delay (sess : Channel) (data : List UInt8) (pty : Pty) (hfd : ¬ sess.masterFd < 0)
    (hdelay : ¬ 0 < sess.sendDelayMs) :
    ptywrapSend w (some sess) (some data) pty =
      match w.accept pty.calls data.length with
      | none => (ptywrapErrPty, { pty with calls := pty.calls + 1 })
      | some k => (wrap32 k, ⟨pty.calls + 1, pty.delivered ++ data.take k⟩) := by
  unfold ptywrapSend WriteSchedule.write
  dsimp only
  rw [if_neg hfd, if_neg hdelay]
  cases w.accept pty.calls data.length with
  | none => rfl
  | some k => rfl

theorem sendLine_prefix_of_delay (sess : Channel) (s : CString) (pty : Pty) (hfd : ¬ sess.masterFd < 0)
    (hdelay : 0 < sess.sendDelayMs) :
    (ptywrapSendLine w (some sess) (some s) pty).2.delivered <+: pty.delivered ++ (s.bytes ++ [10]) := by
  have hsend : ptywrapSend w (some sess) (some s.bytes) pty = sendChars w s.bytes 0 pty := by
    unfold ptywrapSend
    simp only [if_neg hfd, if_pos hdelay]
  obtain ⟨sent, hsent, hret⟩ := sendChars_spec w s.bytes 0 pty
  rw [sendLine_pty, hsend]
  rcases hret with ⟨rfl, hret⟩ | ⟨hpre, hret⟩
  · split
    · rw [hsent, List.prefix_append_right_inj]
      exact List.prefix_append _ _
    · exact newline_prefix w sess _ _ _ hsent
  · rw [hret, if_pos (by decide), hsent, List.prefix_append_right_inj]
    exact hpre.trans (List.prefix_append _ _)

/-- **What reaches the PTY is a prefix of the line exactly when no short write of the text is followed by a newline
that was accepted.** -/
theorem sendLine_prefix_iff (sess : Channel) (s : CString) (pty : Pty) :
    (ptywrapSendLine w (some sess) (some s) pty).2.delivered <+: pty.delivered ++ (s.bytes ++ [10]) ↔
      LineKept w sess s pty.calls := by
  unfold LineKept
  by_cases hfd : sess.masterFd < 0
  · refine iff_of_true ?_ (.inl hfd)
    have hinval : ∀ data, ptywrapSend w (some sess) (some data) pty = (ptywrapErrInval, pty) := by
      intro data
      unfold ptywrapSend
      simp only [if_pos hfd]
    rw [sendLine_pty, hinval, if_pos (show ptywrapErrInval < 0 by decide)]
    exact List.prefix_append _ _
  by_cases hdelay : 0 < sess.sendDelayMs
  · exact iff_of_true (sendLine_prefix_of_delay w sess s pty hfd hdelay) (.inr (.inl hdelay))
  simp only [hfd, hdelay, false_or]
  rw [sendLine_pty, ptywrapSend_of_no_delay w sess s.bytes pty hfd hdelay]
  cases hacc : w.accept pty.calls s.bytes.length with
  | none =>
    refine iff_of_true ?_ (fun k h => by cases h)
    dsimp only
    rw [if_pos (by decide)]
    exact List.prefix_append _ _
  | some k =>
    have hk := w.accept_le _ _ _ hacc
    have hcut : pty.delivered ++ s.bytes.take k <+: pty.delivered ++ (s.bytes ++ [10]) := by
      rw [List.prefix_append_right_inj]
      exact (List.take_prefix k _).trans (List.prefix_append _ _)
    simp only [Option.some.injEq, forall_eq']
    by_cases hneg : wrap32 (k : Int) < 0
    · rw [if_pos hneg]
      exact iff_of_true hcut (.inr (.inl hneg))
    rw [if_neg hneg, ptywrapSend_of_no_delay w sess [10] _ hfd hdelay]
    simp only [List.length_singleton]
    cases hnl : w.accept (pty.calls + 1) 1 with
    | none => exact iff_of_true hcut (.inr (.inr (.inl rfl)))
    | some k' =>
      have hk' : k' = 1 := Nat.le_antisymm (w.accept_le _ _ _ hnl) (w.accept_pos _ _ _ Nat.one_pos hnl)
      subst hk'
      dsimp only
      rw [show [(10 : UInt8)].take 1 = [10] from rfl, List.append_assoc, List.prefix_append_right_inj,
        take_newline_prefix_iff s.bytes k hk]
      simp only [hneg, reduceCtorEq, false_or]

/-- `ab`, of which the first `write` takes one byte: the PTY gets `a` and a newline. -/
theorem sendLine_truncated :
    ¬ ∀ (w : WriteSchedule) (sess : Channel) (s : CString) (pty : Pty),
      (ptywrapSendLine w (some sess) (some s) pty).2.delivered <+: pty.delivered ++ (s.bytes ++ [10]) := by
  intro h
  have hcut := h ⟨fun _ n => some (min 1 n), fun _ n k h => by cases h; exact Nat.min_le_right 1 n,
    fun _ n k hn h => by cases h; omega⟩ ⟨5, 0⟩ ⟨[97, 98], by decide⟩ ⟨0, []⟩
  revert hcut
  decide

/-! ## The account of a send -/

/-- What a send returns accounts for what it delivered: the length of the part of the data that is out, or an error and
nothing is. -/
def Accounted (data old : List UInt8) (ret : Int) (pty : Pty) : Prop :=
  ∃ sent, sent <+: data ∧ pty.delivered = old ++ sent ∧ (0 ≤ ret → ret = sent.length) ∧ (ret < 0 → sent = [])

/-- There is no descriptor or no delay, or the first `write` fails already, or none of them does. -/
def SendUncut (w : WriteSchedule) (sess : Channel) (n calls : Nat) : Prop :=
  sess.masterFd < 0 ∨ sess.sendDelayMs ≤ 0 ∨ w.accept calls 1 = none ∨ ∀ i, i < n → w.accept (calls + i) 1 ≠ none

theorem accounted_nothing {data old : List UInt8} {ret : Int} {pty : Pty} (h : ret < 0) (hpty : pty.delivered = old) :
    Accounted data old ret pty :=
  ⟨[], List.nil_prefix, hpty.trans (List.append_nil _).symm, fun h0 => absurd h (Int.not_lt.2 h0), fun _ => rfl⟩

/-- **When no `write` fails, the loop sends everything and counts it.** -/
theorem sendChars_of_accepted : ∀ (data : List UInt8) (total : Int) (pty : Pty),
    (∀ i, i < data.length → w.accept (pty.calls + i) 1 ≠ none) →
    sendChars w data total pty = (wrap32 (total + data.length), ⟨pty.calls + data.length, pty.delivered ++ data⟩)
  | [], total, pty, _ => by simp [sendChars]
  | ch :: data, total, pty, h => by
    have hrest := sendChars_of_accepted data (total + 1) ⟨pty.calls + 1, pty.delivered ++ [ch]⟩ fun i hi => by
      rw [Nat.add_assoc, Nat.add_comm 1 i]
      exact h (i + 1) (Nat.succ_lt_succ hi)
    obtain ⟨k, hk⟩ := Option.ne_none_iff_exists'.1 (h 0 (Nat.succ_pos _))
    rw [Nat.add_zero] at hk
    rw [sendChars_cons, hk]
    dsimp only
    rw [hrest, List.append_assoc, List.singleton_append, List.length_cons, Nat.add_assoc, Nat.add_comm 1]
    congr 2
    omega

/-- **When one fails, the loop returns the error**, and what went before it is out. -/
theorem sendChars_of_refused : ∀ (data : List UInt8) (total : Int) (pty : Pty) (i : Nat), i < data.length →
    w.accept (pty.calls + i) 1 = none →
    (sendChars w data total pty).1 = ptywrapErrPty ∧
      ((sendChars w data total pty).2.delivered = pty.delivered ↔ w.accept pty.calls 1 = none)
  | [], _, _, _, hi, _ => absurd hi (Nat.not_lt_zero _)
  | ch :: data, total, pty, i, hi, h => by
    rw [sendChars_cons]
    cases hacc : w.accept pty.calls 1 with
    | none => exact ⟨rfl, iff_of_true rfl rfl⟩
    | some k =>
      dsimp only
      cases i with
      | zero => exact absurd (h.symm.trans hacc) (by simp)
      | succ i =>
        have hnext : w.accept (pty.calls + 1 + i) 1 = none := by
          rw [Nat.add_assoc, Nat.add_comm 1 i]
          exact h
        obtain ⟨hret, -⟩ := sendChars_of_refused data (total + 1) ⟨pty.calls + 1, pty.delivered ++ [ch]⟩ i
          (Nat.lt_of_succ_lt_succ hi) hnext
        refine ⟨hret, iff_of_false (fun hout => ?_) (by simp)⟩
        -- the character that was accepted stays out
        obtain ⟨sent, hsent, -⟩ := sendChars_spec w data (total + 1) ⟨pty.calls + 1, pty.delivered ++ [ch]⟩
        have hlen := congrArg List.length (hsent.symm.trans hout)
        simp only [List.length_append, List.length_singleton] at hlen
        omega

theorem accounted_of_no_delay (sess : Channel) (data : List UInt8) (pty : Pty) (hlen : (data.length : Int) ≤ intMax)
    (hfd : ¬ sess.masterFd < 0) (hdelay : ¬ 0 < sess.sendDelayMs) :
    Accounted data pty.delivered (ptywrapSend w (some sess) (some data) pty).1
      (ptywrapSend w (some sess) (some data) pty).2 := by
  rw [ptywrapSend_of_no_delay w sess data pty hfd hdelay]
  cases hacc : w.accept pty.calls data.length with
  | none => exact accounted_nothing (show ptywrapErrPty < 0 by decide) rfl
  | some k =>
    have hk := w.accept_le _ _ _ hacc
    have hfits : Fits (k : Int) := by
      unfold intMax at hlen
      rw [CInt.fits_iff]
      omega
    have htake : (data.take k).length = k := List.length_take_of_le hk
    dsimp only
    rw [CInt.wrap32_of_fits hfits]
    exact ⟨data.take k, List.take_prefix k data, rfl, fun _ => by rw [htake], fun h => by omega⟩

/-- **A send accounts for what it delivered exactly when it is not cut after its first character.** -/
theorem ptywrapSend_accounted_iff (sess : Channel) (data : List UInt8) (pty : Pty)
    (hlen : (data.length : Int) ≤ intMax) :
    Accounted data pty.delivered (ptywrapSend w (some sess) (some data) pty).1
        (ptywrapSend w (some sess) (some data) pty).2 ↔
      SendUncut w sess data.length pty.calls := by
  unfold SendUncut
  by_cases hfd : sess.masterFd < 0
  · refine iff_of_true ?_ (.inl hfd)
    unfold ptywrapSend
    simp only [if_pos hfd]
    exact accounted_nothing (by decide) rfl
  by_cases hdelay : 0 < sess.sendDelayMs
  · have hsend : ptywrapSend w (some sess) (some data) pty = sendChars w data 0 pty := by
      unfold ptywrapSend
      simp only [if_neg hfd, if_pos hdelay]
    simp only [hfd, Int.not_le.2 hdelay, false_or]
    rw [hsend]
    by_cases hall : ∀ i, i < data.length → w.accept (pty.calls + i) 1 ≠ none
    · have hfits : Fits (data.length : Int) := by
        unfold intMax at hlen
        rw [CInt.fits_iff]
        omega
      refine iff_of_true ?_ (.inr hall)
      rw [sendChars_of_accepted w data 0 pty hall, Int.zero_add, CInt.wrap32_of_fits hfits]
      exact ⟨data, List.prefix_refl _, rfl, fun _ => rfl, fun h => by omega⟩
    · obtain ⟨i, hi, hrefused⟩ : ∃ i, i < data.length ∧ w.accept (pty.calls + i) 1 = none := by
        simpa using hall
      obtain ⟨hret, hout⟩ := sendChars_of_refused w data 0 pty i hi hrefused
      simp only [hall, or_false]
      rw [← hout, hret]
      constructor
      · rintro ⟨sent, -, hsent, -, hnone⟩
        rw [hsent, hnone (by decide), List.append_nil]
      · exact accounted_nothing (by decide)
  · refine iff_of_true (accounted_of_no_delay w sess data pty hlen hfd hdelay) (.inr (.inl (Int.not_lt.1 hdelay)))

/-- `ab` with a delay, the second `write` failing. -/
theorem ptywrapSend_accounted_iff_cut :
    let w : WriteSchedule := ⟨fun i n => if i = 1 then none else some n, fun i n k h => by grind,
      fun i n k hn h => by grind⟩
    let r := ptywrapSend w (some ⟨5, 20⟩) (some [97, 98]) ⟨0, []⟩
    (([97, 98] : List UInt8).length : Int) ≤ intMax ∧
      (Accounted [97, 98] [] r.1 r.2 ↔ SendUncut w ⟨5, 20⟩ 2 0) :=
  ⟨by decide, ptywrapSend_accounted_iff _ _ _ _ (by decide)⟩

/-- There the PTY has the `a`, and the caller an error. -/
theorem ptywrapSend_unaccounted :
    ¬ ∀ (w : WriteSchedule) (sess : Channel) (data : List UInt8) (pty : Pty), (data.length : Int) ≤ intMax →
      0 ≤ sess.sendDelayMs →
      Accounted data pty.delivered (ptywrapSend w (some sess) (some data) pty).1
        (ptywrapSend w (some sess) (some data) pty).2 := by
  intro h
  obtain ⟨sent, -, hsent, -, hnone⟩ := h ⟨fun i n => if i = 1 then none else some n, fun i n k h => by grind,
    fun i n k hn h => by grind⟩ ⟨5, 20⟩ [97, 98] ⟨0, []⟩ (by decide) (by decide)
  rw [hnone (by decide)] at hsent
  revert hsent
  decide

end Ptywrap
