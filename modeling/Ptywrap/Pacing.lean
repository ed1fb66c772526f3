import Ptywrap.Senders
/-!
# Pacing — the pauses of a send (`ptywrap_set_send_delay`, `ptywrap_send`)

With a delay set, a send writes character by character and sleeps between two of them: never before the first, after the
last or after one that failed.  `Sender` has the calls of `write` and `usleep` in their order; without them a send is
`ptywrapSend` (`send_spec`).  In any history the delay is the one set last, a negative one as none (`paced_run`).  The
product that makes microseconds of it is an `int`, so a long delay is not the one that was asked for (`slept_iff`).
-/
namespace Ptywrap

open CInt (wrap32 intMax Fits)

def ptywrapSetSendDelay (session : Option Channel) (delayMs : Int) : Int × Option Channel :=
  match session with
  | none => (ptywrapErrInval, none)
  | some sess => (ptywrapOk, some { sess with sendDelayMs := if delayMs < 0 then 0 else delayMs })

def ptywrapGetSendDelay (session : Option Channel) : Int :=
  match session with
  | none => ptywrapErrInval
  | some sess => sess.sendDelayMs

inductive SysCall where
  | write (data : List UInt8)
  | usleep (micros : Nat)
deriving DecidableEq, Repr

/-- The argument of `usleep(session->send_delay_ms * 1000)`: an `int` product, passed as unsigned. -/
def pauseMicros (delayMs : Int) : Nat := (wrap32 (delayMs * 1000) % 4294967296).toNat

/-- The loop of `ptywrap_send`, with the calls it makes. -/
def sendLoop (w : WriteSchedule) (delayMs : Int) : List UInt8 → Int → Pty → List SysCall → Int × Pty × List SysCall
  | [], totalWritten, pty, calls => (wrap32 totalWritten, pty, calls)
  | ch :: data, totalWritten, pty, calls =>
    let calls := calls ++ [.write [ch]]
    match w.write pty [ch] with
    | (none, pty) => (ptywrapErrPty, pty, calls)
    | (some written, pty) =>
      sendLoop w delayMs data (totalWritten + written) pty
        (if data = [] then calls else calls ++ [.usleep (pauseMicros delayMs)])

/-- A session as its callers send through it. -/
structure Sender where
  channel : Channel
  pty : Pty
  calls : List SysCall

namespace Sender

def send (w : WriteSchedule) (s : Sender) (data : List UInt8) : Int × Sender :=
  if s.channel.masterFd < 0 then (ptywrapErrInval, s)
  else if 0 < s.channel.sendDelayMs then
    let (ret, pty, calls) := sendLoop w s.channel.sendDelayMs data 0 s.pty s.calls
    (ret, { s with pty, calls })
  else
    let calls := s.calls ++ [.write data]
    match w.write s.pty data with
    | (none, pty) => (ptywrapErrPty, { s with pty, calls })
    | (some written, pty) => (wrap32 written, { s with pty, calls })

def sendLine (w : WriteSchedule) (s : Sender) (str : CString) : Int × Sender :=
  let (ret, s) := s.send w str.bytes
  if ret < 0 then (ret, s)
  else
    let (ret2, s) := s.send w [10]
    if ret2 < 0 then (ret2, s) else (wrap32 (ret + ret2), s)

end Sender

inductive SendEvent where
  | setDelay (delayMs : Int)
  | send (data : List UInt8)
  | sendLine (str : CString)

def Sender.step (w : WriteSchedule) (s : Sender) : SendEvent → Sender
  | .setDelay delayMs => { s with channel := (ptywrapSetSendDelay (some s.channel) delayMs).2.getD s.channel }
  | .send data => (s.send w data).2
  | .sendLine str => (s.sendLine w str).2

/-- After a history of a new session. -/
def Sender.run (w : WriteSchedule) (masterFd : Int) (es : List SendEvent) : Sender :=
  es.foldl (Sender.step w) ⟨⟨masterFd, 0⟩, ⟨0, []⟩, []⟩

/-! ## What is to be seen -/

def SendEvent.delaySet : SendEvent → Option Int
  | setDelay delayMs => some delayMs
  | _ => none

/-- The delay set last, none at first and none for a negative one. -/
def delayAfter (es : List SendEvent) : Int := max 0 ((es.filterMap SendEvent.delaySet).getLast?.getD 0)

/-- One write a character and one pause between two. -/
def paced (delayMs : Int) (chars : List UInt8) : List SysCall :=
  (chars.map fun ch => SysCall.write [ch]).intersperse (.usleep (pauseMicros delayMs))

def SysCall.micros : SysCall → Nat
  | write _ => 0
  | usleep micros => micros

def slept (calls : List SysCall) : Nat := (calls.map SysCall.micros).sum

/-! ## One send -/

variable (w : WriteSchedule)

theorem paced_cons (delayMs : Int) (ch : UInt8) {chars : List UInt8} (h : chars ≠ []) :
    paced delayMs (ch :: chars) = .write [ch] :: .usleep (pauseMicros delayMs) :: paced delayMs chars := by
  obtain ⟨ch', rest, rfl⟩ := List.exists_cons_of_ne_nil h
  rfl

/-- **The loop pauses between any two characters it tries**, and sends what `sendChars` sends. -/
theorem sendLoop_spec (delayMs : Int) (data : List UInt8) (total : Int) (pty : Pty) (calls : List SysCall) :
    let r := sendLoop w delayMs data total pty calls
    (r.1, r.2.1) = sendChars w data total pty ∧
      ∃ tried, tried <+: data ∧ (tried = [] → data = []) ∧ (r.1 ≠ ptywrapErrPty → tried = data) ∧
        r.2.2 = calls ++ paced delayMs tried := by
  induction data generalizing total pty calls with
  | nil => exact ⟨rfl, [], List.prefix_refl [], fun _ => rfl, fun _ => rfl, (List.append_nil calls).symm⟩
  | cons ch data ih =>
    unfold sendLoop sendChars
    dsimp only
    obtain ⟨o, pty'⟩ := w.write pty [ch]
    cases o with
    | none => exact ⟨rfl, [ch], ⟨data, rfl⟩, fun h => absurd h (List.cons_ne_nil _ _), fun h => absurd rfl h, rfl⟩
    | some written =>
      dsimp only
      obtain ⟨hpty, tried, hpre, hnil, hall, hcalls⟩ := ih (total + written) pty'
        (if data = [] then calls ++ [.write [ch]] else calls ++ [.write [ch]] ++ [.usleep (pauseMicros delayMs)])
      refine ⟨hpty, ch :: tried, (List.prefix_cons_inj ch).2 hpre, fun h => absurd h (List.cons_ne_nil _ _),
        fun h => congrArg _ (hall h), ?_⟩
      rw [hcalls]
      by_cases hdata : data = []
      · obtain rfl : tried = [] := List.prefix_nil.1 (hdata ▸ hpre)
        rw [if_pos hdata, List.append_assoc]
        rfl
      · rw [if_neg hdata, paced_cons delayMs ch fun h => hdata (hnil h)]
        simp only [List.append_assoc, List.cons_append, List.nil_append]

/-- **A send is that of the session without its clock**, and calls `write` and `usleep` as the delay says. -/
theorem send_spec (s : Sender) (hfd : 0 ≤ s.channel.masterFd) (data : List UInt8) :
    ((s.send w data).1, (s.send w data).2.pty) = ptywrapSend w (some s.channel) (some data) s.pty ∧
      (s.send w data).2.channel = s.channel ∧
      ∃ tried, tried <+: data ∧ ((s.send w data).1 ≠ ptywrapErrPty → tried = data) ∧
        (s.send w data).2.calls =
          s.calls ++ if 0 < s.channel.sendDelayMs then paced s.channel.sendDelayMs tried else [.write data] := by
  unfold Sender.send ptywrapSend
  dsimp only
  rw [if_neg (Int.not_lt.2 hfd), if_neg (Int.not_lt.2 hfd)]
  by_cases hdelay : 0 < s.channel.sendDelayMs
  · obtain ⟨hpty, tried, hpre, -, hall, hcalls⟩ := sendLoop_spec w s.channel.sendDelayMs data 0 s.pty s.calls
    simp only [if_pos hdelay, true_and]
    exact ⟨hpty, tried, hpre, hall, hcalls⟩
  · simp only [if_neg hdelay]
    obtain ⟨o, pty'⟩ := w.write s.pty data
    cases o with
    | none => exact ⟨rfl, rfl, data, List.prefix_refl data, fun _ => rfl, rfl⟩
    | some written => exact ⟨rfl, rfl, data, List.prefix_refl data, fun _ => rfl, rfl⟩

/-! ## Any history -/

theorem delayAfter_snoc (es : List SendEvent) (e : SendEvent) :
    delayAfter (es ++ [e]) = match e.delaySet with | some delayMs => max 0 delayMs | none => delayAfter es := by
  unfold delayAfter
  rw [List.filterMap_append, List.filterMap_cons, List.filterMap_nil]
  cases e.delaySet with
  | none => rw [List.append_nil]
  | some delayMs => rw [List.getLast?_append_cons, List.getLast?_singleton, Option.getD_some]

theorem channel_send (s : Sender) (data : List UInt8) : (s.send w data).2.channel = s.channel := by
  by_cases hfd : 0 ≤ s.channel.masterFd
  · exact (send_spec w s hfd data).2.1
  · unfold Sender.send
    rw [if_pos (Int.not_le.1 hfd)]

theorem channel_sendLine (s : Sender) (str : CString) : (s.sendLine w str).2.channel = s.channel := by
  have htext := channel_send w s str.bytes
  have hnewline := channel_send w (s.send w str.bytes).2 [10]
  unfold Sender.sendLine
  dsimp only
  split
  · exact htext
  split
  · exact hnewline.trans htext
  · exact hnewline.trans htext

/-- **The delay in effect is the one set last.** -/
theorem channel_run (masterFd : Int) (es : List SendEvent) :
    (Sender.run w masterFd es).channel = ⟨masterFd, delayAfter es⟩ := by
  induction es using List.reverseRecOn with
  | nil => rfl
  | append_singleton es e ih =>
    have hstep : Sender.run w masterFd (es ++ [e]) = (Sender.run w masterFd es).step w e := by
      unfold Sender.run
      rw [List.foldl_append]
      rfl
    rw [hstep, delayAfter_snoc]
    cases e with
    | setDelay delayMs =>
      unfold Sender.step ptywrapSetSendDelay
      dsimp only [SendEvent.delaySet, Option.getD_some]
      rw [ih]
      dsimp only
      congr 1
      split <;> omega
    | send data => exact (channel_send w _ data).trans ih
    | sendLine str => exact (channel_sendLine w _ str).trans ih

/-- **In any history a send is paced by the delay set last.** -/
theorem paced_run (masterFd : Int) (hfd : 0 ≤ masterFd) (es : List SendEvent) (data : List UInt8) :
    let s := Sender.run w masterFd es
    let sent := s.send w data
    ptywrapGetSendDelay (some s.channel) = delayAfter es ∧
      (sent.1, sent.2.pty) = ptywrapSend w (some ⟨masterFd, delayAfter es⟩) (some data) s.pty ∧
      ∃ tried, tried <+: data ∧ (sent.1 ≠ ptywrapErrPty → tried = data) ∧
        sent.2.calls = s.calls ++ if 0 < delayAfter es then paced (delayAfter es) tried else [.write data] := by
  have hchannel := channel_run w masterFd es
  obtain ⟨hpty, -, hcalls⟩ := send_spec w (Sender.run w masterFd es) (by rw [hchannel]; exact hfd) data
  rw [hchannel] at hpty hcalls
  exact ⟨congrArg Channel.sendDelayMs hchannel, hpty, hcalls⟩

/-! ## How long it takes -/

theorem slept_append (calls calls' : List SysCall) : slept (calls ++ calls') = slept calls + slept calls' := by
  unfold slept
  rw [List.map_append, List.sum_append]

theorem slept_paced (delayMs : Int) : ∀ chars : List UInt8,
    slept (paced delayMs chars) = (chars.length - 1) * pauseMicros delayMs
  | [] => (Nat.zero_mul _).symm
  | [_] => (Nat.zero_mul _).symm
  | ch :: ch' :: chars => by
    have ih := slept_paced delayMs (ch' :: chars)
    rw [paced_cons delayMs ch (List.cons_ne_nil ch' chars)]
    unfold slept at ih ⊢
    rw [List.map_cons, List.map_cons, List.sum_cons, List.sum_cons, ih]
    simp only [SysCall.micros, List.length_cons, Nat.add_sub_cancel]
    ring

/-- **A pause has the milliseconds asked for exactly below `2 ^ 32` microseconds.** -/
theorem pauseMicros_eq_iff {delayMs : Int} (h : 0 ≤ delayMs) :
    (pauseMicros delayMs : Int) = delayMs * 1000 ↔ delayMs ≤ 4294967 := by
  unfold pauseMicros wrap32
  omega

/-- **A send takes a pause of the delay for each character but the last**, in any history, exactly when the delay is
below `2 ^ 32` microseconds or there is no pause. -/
theorem slept_iff (masterFd : Int) (hfd : 0 ≤ masterFd) (es : List SendEvent) (data : List UInt8)
    (hsent : 0 ≤ ((Sender.run w masterFd es).send w data).1) :
    let s := Sender.run w masterFd es
    (slept (s.send w data).2.calls : Int) =
        slept s.calls + ((data.length - 1 : Nat) : Int) * (ptywrapGetSendDelay (some s.channel) * 1000) ↔
      delayAfter es ≤ 4294967 ∨ data.length ≤ 1 := by
  have hchannel := channel_run w masterFd es
  have hdelay : ptywrapGetSendDelay (some (Sender.run w masterFd es).channel) = delayAfter es :=
    congrArg Channel.sendDelayMs hchannel
  obtain ⟨-, -, tried, -, hall, hcalls⟩ := send_spec w (Sender.run w masterFd es) (by rw [hchannel]; exact hfd) data
  rw [hchannel] at hcalls
  have herr : ((Sender.run w masterFd es).send w data).1 ≠ ptywrapErrPty := fun h => absurd (h ▸ hsent) (by decide)
  obtain rfl := hall herr
  have hnonneg : 0 ≤ delayAfter es := Int.le_max_left 0 _
  intro s
  rw [hdelay, hcalls, slept_append]
  dsimp only
  by_cases hpos : 0 < delayAfter es
  · rw [if_pos hpos, slept_paced, ← pauseMicros_eq_iff hnonneg]
    push_cast
    rw [Int.add_right_inj]
    by_cases hlen : tried.length ≤ 1
    · rw [Nat.sub_eq_zero_of_le hlen]
      exact iff_of_true (by simp) (.inr hlen)
    · rw [or_iff_left hlen]
      exact Int.mul_eq_mul_left_iff (by omega)
  · have hzero : delayAfter es = 0 := Int.le_antisymm (Int.not_lt.1 hpos) hnonneg
    have hnone : slept [SysCall.write tried] = 0 := rfl
    rw [if_neg hpos, hzero, hnone]
    exact iff_of_true (by simp [s]) (.inl (by decide))

/-- `0123456789`. -/
def digitsSent : List UInt8 := [48, 49, 50, 51, 52, 53, 54, 55, 56, 57]

/-- A negative delay, then ten milliseconds, and ten characters. -/
theorem paced_run_digits :
    let es : List SendEvent := [.setDelay (-100), .setDelay 10]
    let s := Sender.run acceptAll 3 es
    let sent := s.send acceptAll digitsSent
    ptywrapGetSendDelay (some s.channel) = delayAfter es ∧
      (sent.1, sent.2.pty) = ptywrapSend acceptAll (some ⟨3, delayAfter es⟩) (some digitsSent) s.pty ∧
      ∃ tried, tried <+: digitsSent ∧ (sent.1 ≠ ptywrapErrPty → tried = digitsSent) ∧
        sent.2.calls =
          s.calls ++ if 0 < delayAfter es then paced (delayAfter es) tried else [.write digitsSent] :=
  paced_run acceptAll 3 (by decide) _ _

/-- They take ninety milliseconds. -/
theorem slept_iff_digits :
    let s := Sender.run acceptAll 3 [.setDelay 10]
    (slept (s.send acceptAll digitsSent).2.calls : Int) =
        slept s.calls + ((digitsSent.length - 1 : Nat) : Int) * (ptywrapGetSendDelay (some s.channel) * 1000) ↔
      delayAfter [.setDelay 10] ≤ 4294967 ∨ digitsSent.length ≤ 1 :=
  slept_iff acceptAll 3 (by decide) [.setDelay 10] digitsSent (by decide)

end Ptywrap
