import Ptywrap.Surplus
/-!
# Tokens — the language `terminal_process_bytes` reads

A byte stream is a list of whole tokens and the beginning of one more, in one way only (`lex_bijective`): a byte outside
any sequence, an escape of two bytes, or `ESC [` with parameter bytes and a final byte, which may be any byte that is no
parameter byte.  What a run does is what its tokens do, one after the other, each by itself: a token's effect depends on
no byte outside it (`process_tokens`).  The arguments of a sequence are the values of its fields, where the sixteenth
slot has the digits of all the fields from there on.
-/
namespace Ptywrap

open Decimal (Numeral)

variable {g : Geometry}

/-- Digits and `;`. -/
abbrev ParamBytes := { body : List UInt8 // ∀ b ∈ body, isParamChar b = true }

def ParamBytes.nil : ParamBytes := ⟨[], nofun⟩

def ParamBytes.snoc (body : ParamBytes) (b : UInt8) (h : isParamChar b = true) : ParamBytes :=
  ⟨body.val ++ [b], fun x hx => (List.mem_append.1 hx).elim (body.property x) fun hx => List.mem_singleton.1 hx ▸ h⟩

inductive Token where
  | plain (ch : UInt8) (h : ch ≠ 27)
  | escape (ch : UInt8) (h : ch ≠ 91)
  | csi (body : ParamBytes) (final : UInt8) (h : isParamChar final = false)

/-- The beginning of a token: nothing, `ESC`, or `ESC [` and parameter bytes. -/
inductive Pending where
  | outside
  | esc
  | csi (body : ParamBytes)

def Token.bytes : Token → List UInt8
  | plain ch _ => [ch]
  | escape ch _ => [27, ch]
  | csi body final _ => 27 :: 91 :: (body.val ++ [final])

def Pending.bytes : Pending → List UInt8
  | outside => []
  | esc => [27]
  | csi body => 27 :: 91 :: body.val

/-! ## Reading tokens -/

def Pending.next : Pending → UInt8 → Pending
  | outside, ch => if ch = 27 then esc else outside
  | esc, ch => if ch = 91 then csi .nil else outside
  | csi body, ch => if h : isParamChar ch = true then csi (body.snoc ch h) else outside

def Pending.out : Pending → UInt8 → List Token
  | outside, ch => if h : ch = 27 then [] else [.plain ch h]
  | esc, ch => if h : ch = 91 then [] else [.escape ch h]
  | csi body, ch => if h : isParamChar ch = true then [] else [.csi body ch (Bool.eq_false_of_not_eq_true h)]

def lexer : Transducer Pending UInt8 Token := ⟨Pending.next, Pending.out⟩

def lex (bs : List UInt8) : List Token × Pending := (lexer.outputs .outside bs, lexer.after .outside bs)

def unlex (p : List Token × Pending) : List UInt8 := p.1.flatMap Token.bytes ++ p.2.bytes

theorem bytes_step (t : Pending) (b : UInt8) : (t.out b).flatMap Token.bytes ++ (t.next b).bytes = t.bytes ++ [b] := by
  cases t with
  | outside =>
    dsimp only [Pending.out, Pending.next]
    by_cases h : b = 27
    · rw [dif_pos h, if_pos h, h]
      rfl
    · rw [dif_neg h, if_neg h]
      rfl
  | esc =>
    dsimp only [Pending.out, Pending.next]
    by_cases h : b = 91
    · rw [dif_pos h, if_pos h, h]
      rfl
    · rw [dif_neg h, if_neg h]
      rfl
  | csi body =>
    dsimp only [Pending.out, Pending.next]
    by_cases h : isParamChar b = true
    · rw [dif_pos h, dif_pos h]
      rfl
    · rw [dif_neg h, dif_neg h]
      simp [Token.bytes, Pending.bytes]

/-- **No byte is lost, none is added.** -/
theorem bytes_run : ∀ (bs : List UInt8) (t : Pending),
    (lexer.outputs t bs).flatMap Token.bytes ++ (lexer.after t bs).bytes = t.bytes ++ bs
  | [], t => (List.append_nil _).symm
  | b :: bs, t => by
    have hstep : (lexer.out t b).flatMap Token.bytes ++ (lexer.next t b).bytes = t.bytes ++ [b] := bytes_step t b
    rw [Transducer.outputs_cons, Transducer.after_cons, List.flatMap_append, List.append_assoc, bytes_run bs,
      ← List.append_assoc, hstep, List.append_assoc, List.singleton_append]

theorem lexer_params : ∀ (bs : List UInt8), (∀ b ∈ bs, isParamChar b = true) → ∀ body whole : ParamBytes,
    whole.val = body.val ++ bs → lexer.outputs (.csi body) bs = [] ∧ lexer.after (.csi body) bs = .csi whole
  | [], _, body, whole, h => by
    rw [List.append_nil] at h
    exact ⟨rfl, congrArg Pending.csi (Subtype.ext h.symm)⟩
  | b :: bs, hbs, body, whole, h => by
    have hb := hbs b List.mem_cons_self
    have hout : lexer.out (.csi body) b = [] := dif_pos hb
    have hnext : lexer.next (.csi body) b = .csi (body.snoc b hb) := dif_pos hb
    have hwhole : whole.val = (body.snoc b hb).val ++ bs := by
      rw [h]
      unfold ParamBytes.snoc
      simp
    rw [Transducer.outputs_cons, Transducer.after_cons, hout, hnext, List.nil_append]
    exact lexer_params bs (fun x hx => hbs x (List.mem_cons_of_mem b hx)) _ whole hwhole

theorem lexer_introducer (body : ParamBytes) :
    lexer.outputs .outside (27 :: 91 :: body.val) = [] ∧ lexer.after .outside (27 :: 91 :: body.val) = .csi body := by
  obtain ⟨hout, hafter⟩ := lexer_params body.val body.property .nil body rfl
  exact ⟨hout, hafter⟩

/-- **A token's bytes are read into the token.** -/
theorem lexer_token (t : Token) : lexer.outputs .outside t.bytes = [t] ∧ lexer.after .outside t.bytes = .outside := by
  cases t with
  | plain ch h =>
    have hout : lexer.out .outside ch = [.plain ch h] := dif_neg h
    have hnext : lexer.next .outside ch = .outside := if_neg h
    exact ⟨by simp only [Token.bytes, Transducer.outputs_cons, hout, Transducer.outputs_nil, List.append_nil], hnext⟩
  | escape ch h =>
    have hout : lexer.out .esc ch = [.escape ch h] := dif_neg h
    have hnext : lexer.next .esc ch = .outside := if_neg h
    refine ⟨?_, hnext⟩
    show lexer.outputs .esc [ch] = _
    simp only [Transducer.outputs_cons, hout, Transducer.outputs_nil, List.append_nil]
  | csi body final h =>
    have hnot : ¬ isParamChar final = true := Bool.not_eq_true _ ▸ h
    have hout : lexer.out (.csi body) final = [.csi body final h] := dif_neg hnot
    have hnext : lexer.next (.csi body) final = .outside := dif_neg hnot
    obtain ⟨hpre, hmid⟩ := lexer_introducer body
    have hsplit : (Token.csi body final h).bytes = (27 :: 91 :: body.val) ++ [final] := rfl
    rw [hsplit, Transducer.outputs_append, Transducer.after_append, hpre, hmid, Transducer.outputs_cons, hout]
    exact ⟨rfl, hnext⟩

theorem lexer_tokens : ∀ ts : List Token,
    lexer.outputs .outside (ts.flatMap Token.bytes) = ts ∧ lexer.after .outside (ts.flatMap Token.bytes) = .outside
  | [] => ⟨rfl, rfl⟩
  | t :: ts => by
    obtain ⟨h1, h2⟩ := lexer_token t
    obtain ⟨h3, h4⟩ := lexer_tokens ts
    rw [List.flatMap_cons, Transducer.outputs_append, Transducer.after_append, h1, h2, h3, h4]
    exact ⟨rfl, rfl⟩

theorem lexer_pending (t : Pending) : lexer.outputs .outside t.bytes = [] ∧ lexer.after .outside t.bytes = t := by
  cases t with
  | outside => exact ⟨rfl, rfl⟩
  | esc => exact ⟨rfl, rfl⟩
  | csi body => exact lexer_introducer body

/-- **A stream is its tokens and the beginning of one more, in one way only.** -/
theorem lex_bijective : Function.LeftInverse unlex lex ∧ Function.RightInverse unlex lex := by
  constructor
  · intro bs
    exact bytes_run bs .outside
  · rintro ⟨ts, t⟩
    obtain ⟨h1, h2⟩ := lexer_tokens ts
    obtain ⟨h3, h4⟩ := lexer_pending t
    unfold lex unlex
    rw [Transducer.outputs_append, Transducer.after_append, h1, h2, h3, h4, List.append_nil]

/-! ## What the tokens do -/

def digitOf (b : UInt8) : Fin 10 := ⟨(b.toNat - 48) % 10, Nat.mod_lt _ (Nat.succ_pos 9)⟩

/-- The fields between the `;`, at least one. -/
def openFields : List UInt8 → List Numeral
  | [] => [[]]
  | b :: bs =>
    if b = 59 then [] :: openFields bs
    else
      match openFields bs with
      | [] => [[digitOf b]]
      | ds :: rest => (digitOf b :: ds) :: rest

/-- The fields of a sequence; without a parameter byte it has none. -/
def fieldsOf (body : List UInt8) : List Numeral := if body = [] then [] else openFields body

/-- The values a sequence hands to its command: of each field, the last of sixteen with the digits of the rest. -/
def valuesOf (ns : List Numeral) : List Int :=
  if ns.length ≤ 16 then ns.map fieldInt else firstInts ns ++ [fieldInt (lastDigits ns)]

/-- What a byte does outside a sequence. -/
def plainActions (ch : UInt8) : List Action :=
  if ch = 10 then [.newline]
  else if ch = 13 then [.carriageReturn]
  else if ch = 8 then [.backspace]
  else if isPrintable ch then [.putChar ch]
  else []

def Token.actions : Token → List Action
  | plain ch _ => plainActions ch
  | escape _ _ => []
  | csi body final _ => [.executeCsi (intArgs (valuesOf (fieldsOf body.val))) final]

/-- The effect of a token on the screen. -/
def Token.exec (s : Screen g) (t : Token) : Screen g := t.actions.foldl Action.exec s

theorem openFields_ne_nil (bs : List UInt8) : openFields bs ≠ [] := by
  cases bs with
  | nil => exact List.cons_ne_nil _ _
  | cons b bs =>
    unfold openFields
    split
    · exact List.cons_ne_nil _ _
    · cases openFields bs <;> exact List.cons_ne_nil _ _

theorem digitByte_digitOf {b : UInt8} (h : isDigit b = true) : digitByte (digitOf b) = b := by
  unfold isDigit at h
  rw [Bool.and_eq_true, decide_eq_true_eq, decide_eq_true_eq, UInt8.le_iff_toNat_le, UInt8.le_iff_toNat_le] at h
  obtain ⟨hlo, hhi⟩ := h
  have h48 : (48 : UInt8).toNat = 48 := rfl
  have h57 : (57 : UInt8).toNat = 57 := rfl
  rw [← UInt8.toNat_inj, toNat_digitByte]
  unfold digitOf
  dsimp only
  omega

theorem fieldBytes_openFields : ∀ bs : List UInt8, (∀ b ∈ bs, isParamChar b = true) → fieldBytes (openFields bs) = bs
  | [], _ => rfl
  | b :: bs, h => by
    have hrest := fieldBytes_openFields bs fun x hx => h x (List.mem_cons_of_mem b hx)
    obtain ⟨ds, rest, hfields⟩ := List.exists_cons_of_ne_nil (openFields_ne_nil bs)
    rw [hfields] at hrest
    unfold openFields
    by_cases hb : b = 59
    · rw [if_pos hb, hfields, hb]
      show numeralBytes [] ++ 59 :: fieldBytes (ds :: rest) = _
      rw [hrest]
      rfl
    · have hdigit : isDigit b = true := by
        have hparam := h b List.mem_cons_self
        unfold isParamChar at hparam
        simpa [hb] using hparam
      rw [if_neg hb, hfields]
      dsimp only
      have hcons : fieldBytes ((digitOf b :: ds) :: rest) = digitByte (digitOf b) :: fieldBytes (ds :: rest) := by
        cases rest <;> rfl
      rw [hcons, digitByte_digitOf hdigit, hrest]

/-- **The fields have the bytes they were read from.** -/
theorem fieldBytes_fieldsOf (body : ParamBytes) : fieldBytes (fieldsOf body.val) = body.val := by
  unfold fieldsOf
  by_cases h : body.val = []
  · rw [if_pos h, h]
    rfl
  · rw [if_neg h]
    exact fieldBytes_openFields body.val body.property

/-- No lone empty field: that would be no byte. -/
theorem fieldsOf_lone {body : ParamBytes} {ds : Numeral} (h : fieldsOf body.val = [ds]) : ds ≠ [] := by
  rintro rfl
  have hbytes := fieldBytes_fieldsOf body
  rw [h] at hbytes
  have hnil : body.val = [] := hbytes.symm
  unfold fieldsOf at h
  rw [if_pos hnil] at h
  cases h

/-- **The arguments of a sequence are the values of its fields.** -/
theorem args_params (body : ParamBytes) :
    (vtReader.after (reading .csi [] 0) body.val).terminate.toCsiArgs = intArgs (valuesOf (fieldsOf body.val)) := by
  have hbytes := fieldBytes_fieldsOf body
  have hlone : ∀ ds, fieldsOf body.val = [ds] → ds ≠ [] := fun _ => fieldsOf_lone
  generalize fieldsOf body.val = ns at hbytes hlone
  rw [← hbytes]
  unfold valuesOf
  by_cases hlen : ns.length ≤ 16
  · rw [if_pos hlen]
    exact args_fieldBytes ns hlen hlone
  · have hfirst : (firstInts ns).length = 15 := (List.length_map _).trans (List.length_take_of_le (by omega))
    rw [if_neg hlen, after_fieldBytes_surplus ns (by omega)]
    unfold midField Parser.terminate intArgs
    simp only [if_true, List.length_append, List.length_singleton]

/-- The parser is where the unfinished token ends. -/
def Pending.At : Pending → Parser → Prop
  | outside, p => p.parseState = .normal
  | esc, p => p.parseState = .esc
  | csi body, p => p = vtReader.after (reading .csi [] 0) body.val

theorem parser_introduced : { parserReset with parseState := .csi } = reading .csi [] 0 := by
  decide

theorem at_step {t : Pending} {p : Parser} (h : t.At p) (b : UInt8) :
    (t.next b).At (p.next b) ∧ p.out b = (t.out b).flatMap Token.actions := by
  cases t with
  | outside =>
    have hstate : p.parseState = .normal := h
    unfold Parser.next Parser.out
    dsimp only [Pending.next, Pending.out]
    rw [hstate]
    by_cases hb : b = 27
    · rw [if_pos hb, dif_pos hb]
      dsimp only
      rw [if_pos hb, if_pos hb]
      exact ⟨rfl, rfl⟩
    · rw [if_neg hb, dif_neg hb]
      dsimp only
      rw [if_neg hb, if_neg hb]
      exact ⟨hstate, (List.append_nil _).symm⟩
  | esc =>
    have hstate : p.parseState = .esc := h
    unfold Parser.next Parser.out
    dsimp only [Pending.next, Pending.out]
    rw [hstate]
    by_cases hb : b = 91
    · rw [if_pos hb, dif_pos hb]
      dsimp only
      rw [if_pos hb]
      exact ⟨parser_introduced, rfl⟩
    · rw [if_neg hb, dif_neg hb]
      dsimp only
      rw [if_neg hb]
      exact ⟨rfl, rfl⟩
  | csi body =>
    obtain rfl : p = vtReader.after (reading .csi [] 0) body.val := h
    have hin := (outputs_paramChars body.val (reading .csi [] 0) (.inl rfl) body.property).2
    dsimp only [Pending.next, Pending.out]
    by_cases hb : isParamChar b = true
    · rw [dif_pos hb, dif_pos hb]
      have hnone := (outputs_paramChars [b] _ hin fun x hx => List.mem_singleton.1 hx ▸ hb).1
      rw [Transducer.outputs_cons, Transducer.outputs_nil, List.append_nil] at hnone
      refine ⟨?_, hnone⟩
      show vtReader.next (vtReader.after (reading .csi [] 0) body.val) b = vtReader.after _ (body.val ++ [b])
      rw [Transducer.after_append]
      rfl
    · rw [dif_neg hb, dif_neg hb]
      obtain ⟨hout, hnext⟩ := terminator_of_inCsi _ b hin (Bool.eq_false_of_not_eq_true hb)
      rw [hout, hnext, args_params]
      exact ⟨rfl, rfl⟩

theorem at_run : ∀ (bs : List UInt8) {t : Pending} {p : Parser}, t.At p →
    (lexer.after t bs).At (vtReader.after p bs) ∧
      vtReader.outputs p bs = (lexer.outputs t bs).flatMap Token.actions
  | [], _, _, h => ⟨h, rfl⟩
  | b :: bs, t, p, h => by
    obtain ⟨hnext, hout⟩ := at_step h b
    obtain ⟨hafter, houtputs⟩ := at_run bs hnext
    refine ⟨hafter, ?_⟩
    rw [Transducer.outputs_cons, Transducer.outputs_cons, List.flatMap_append]
    exact congr_arg₂ (· ++ ·) hout houtputs

/-- **A run does what its tokens do, one after the other**, and ends in the middle of the last, unfinished one. -/
theorem process_tokens (s : Session g) (hs : s.parser.parseState = .normal) (bs : List UInt8) :
    (terminalProcessBytes s bs).screen = (lex bs).1.foldl Token.exec s.screen ∧
      (lex bs).2.At (terminalProcessBytes s bs).parser := by
  obtain ⟨hafter, houtputs⟩ := at_run bs (t := .outside) hs
  rw [terminalProcessBytes_eq, houtputs]
  refine ⟨?_, hafter⟩
  exact List.foldl_flatMap.trans rfl

/-- `A`, `ESC[2;3H`, a two-byte escape, and the beginning of one more sequence. -/
theorem process_tokens_cut :
    let s : Session ⟨2, 3, by decide, by decide, by decide⟩ := terminalInit _
    let bs : List UInt8 := [65, 27, 91, 50, 59, 51, 72, 27, 55, 27, 91, 52]
    (terminalProcessBytes s bs).screen = (lex bs).1.foldl Token.exec s.screen ∧
      (lex bs).2.At (terminalProcessBytes s bs).parser :=
  process_tokens _ rfl _

end Ptywrap
