import Ptywrap.Api
import Ptywrap.Effect
/-!
# Scan — reading the screen row by row while the reader thread runs

`ptywrap_get_row_text` holds the lock for one row.  Between two calls the reader thread may process a chunk, and rows
move up as it scrolls, against the direction of the scan.  A text is found if every chunk before its row is read leaves
it alone and does not scroll it past the scan (`scan_finds`), and can be missed otherwise (`scan_misses`).
-/
namespace Ptywrap

open CInt (wrap32 intMax Fits)

variable {g : Geometry}

/-- The characters of a row. -/
def Screen.rowText (s : Screen g) (r : Fin g.rows) : List UInt8 := List.ofFn fun c => (s.cell r c).ch

/-- A step of a scan: the call on its next row, or a chunk that the reader thread processes. -/
inductive ScanEvent where
  | call
  | chunk (bs : List UInt8)
deriving DecidableEq, Repr

/-- A scan under way: the next row, the caller's buffer, and the texts returned so far. -/
structure Scan (g : Geometry) where
  session : Session g
  row : Nat
  buf : List UInt8
  texts : List (List UInt8)

def Scan.start (s : Session g) (buf : List UInt8) : Scan g := ⟨s, 0, buf, []⟩

def Scan.step (buflen : Nat) (s : Scan g) : ScanEvent → Scan g
  | .call =>
    let (ret, buf) := ptywrapGetRowText (some s.session) s.row (some s.buf) buflen
    ⟨s.session, s.row + 1, buf.getD [], s.texts ++ [(buf.getD []).take ret.toNat]⟩
  | .chunk bs => { s with session := terminalProcessBytes s.session bs }

/-- One call for each row, and between two of them the chunks of a gap. -/
def scanEvents (gaps : List (List (List UInt8))) : List ScanEvent :=
  .call :: gaps.flatMap fun chunks => chunks.map .chunk ++ [.call]

def Scan.Shows (text : List UInt8) (s : Scan g) : Prop := ∃ r, text <:+: s.session.screen.rowText r

/-- A row still to be read shows the text. -/
def Scan.Ahead (text : List UInt8) (s : Scan g) : Prop := ∃ r, s.row ≤ r.val ∧ text <:+: s.session.screen.rowText r

/-- A call has returned the text. -/
def Scan.Returned (text : List UInt8) (s : Scan g) : Prop := ∃ t ∈ s.texts, text <:+: t

/-- A chunk spares the text, as its bytes, the cursor, the attributes and the parser decide: it is returned already, or a
row shows it in columns where the chunk writes nothing but its own characters, and the chunk scrolls that row up to one
still to be read at most. -/
def Scan.Spares (text : List UInt8) (s : Scan g) : ScanEvent → Prop
  | .call => True
  | .chunk bs => s.Returned text ∨ ∃ e ∈ streamEffect g s.session.screen.toPen s.session.parser bs,
      ∃ (r r' : Fin g.rows) (k : Nat), text <+: (s.session.screen.rowText r).drop k ∧ e.Carries r r' k text ∧
        s.row ≤ r'.val

/-! ## One step -/

/-- **A call returns the text of its row.** -/
theorem step_call {buflen : Nat} (hbuflen : g.cols + 1 ≤ buflen) (s : Scan g) (hbuf : buflen ≤ s.buf.length)
    (r : Fin g.rows) (hr : s.row = r.val) :
    (s.step buflen .call).texts = s.texts ++ [s.session.screen.rowText r] ∧
      (s.step buflen .call).buf.length = s.buf.length := by
  have hmin : min g.cols (buflen - 1) = g.cols := Nat.min_eq_left (by omega)
  have hlen : (s.session.screen.rowText r).length = g.cols := List.length_ofFn
  have hcall : ptywrapGetRowText (some s.session) r.val (some s.buf) buflen =
      ((g.cols : Int), some (s.session.screen.rowText r ++ 0 :: s.buf.drop (g.cols + 1))) := by
    rw [getRowText_inGrid s.session r s.buf buflen (by omega) hbuf, hmin,
      List.take_of_length_le (Nat.le_of_eq List.length_ofFn)]
    rfl
  unfold Scan.step
  dsimp only
  rw [hr, hcall, Option.getD_some, Int.toNat_natCast]
  constructor
  · rw [List.take_append_of_le_length (Nat.le_of_eq hlen.symm), List.take_of_length_le (Nat.le_of_eq hlen)]
  · rw [List.length_append, List.length_cons, List.length_drop, hlen]
    omega

theorem step_call_outside (buflen : Nat) (s : Scan g) (hrow : g.rows ≤ s.row) :
    (s.step buflen .call).buf = s.buf ∧ s.texts <+: (s.step buflen .call).texts := by
  have hcall : ptywrapGetRowText (some s.session) s.row (some s.buf) buflen = (ptywrapErrInval, some s.buf) := by
    unfold ptywrapGetRowText
    dsimp only
    split
    · rfl
    · rw [if_pos (.inr (Int.ofNat_le.2 hrow))]
  unfold Scan.step
  dsimp only
  rw [hcall]
  exact ⟨rfl, List.prefix_append _ _⟩

/-- **Text that is carried along is shown further up.** -/
theorem shown_of_carries {s : Screen g} {e : Effect g} {r r' : Fin g.rows} {text : List UInt8} {k : Nat}
    (htext : text <+: (s.rowText r).drop k) (h : e.Carries r r' k text) :
    text <+: ((e.on s.buffer).rowText r').drop k := by
  have hlen := htext.length_le
  rw [List.length_drop, Screen.rowText, List.length_ofFn] at hlen
  rw [List.prefix_iff_getElem?] at htext ⊢
  intro i hi
  have hcol : k + i < g.cols := by omega
  have hbefore := htext i hi
  rw [List.getElem?_drop, Screen.rowText, List.getElem?_ofFn, dif_pos hcol] at hbefore
  have hch : text[i] ∈ text[k + i - k]? := by
    rw [Nat.add_sub_cancel_left]
    exact List.getElem?_eq_getElem hi
  have hafter := ch_of_carries h s.buffer ⟨k + i, hcol⟩ (Nat.le_add_right k i) hch (Option.some.inj hbefore)
  rw [List.getElem?_drop, Screen.rowText, List.getElem?_ofFn, dif_pos hcol, hafter]

/-- **A chunk that spares the text keeps it ahead of the scan**, if it is not returned. -/
theorem ahead_of_spares {text : List UInt8} {s : Scan g} {bs : List UInt8} (h : s.Spares text (.chunk bs)) (buflen : Nat) :
    s.Returned text ∨ (s.step buflen (.chunk bs)).Ahead text := by
  refine h.imp id ?_
  rintro ⟨e, he, r, r', k, htext, hcarries, hrow⟩
  refine ⟨r', hrow, ?_⟩
  show text <:+: (terminalProcessBytes s.session bs).screen.rowText r'
  rw [process_eq_on s.session he]
  exact (shown_of_carries htext hcarries).isInfix.trans (List.drop_suffix k _).isInfix

/-- The text was returned, or a row still to be read shows it. -/
structure Scan.Found (buflen : Nat) (text : List UInt8) (s : Scan g) : Prop where
  room : buflen ≤ s.buf.length
  found : s.Returned text ∨ s.Ahead text

theorem found_step {buflen : Nat} (hbuflen : g.cols + 1 ≤ buflen) {text : List UInt8} (s : Scan g) (e : ScanEvent)
    (h : s.Found buflen text) (hspares : s.Spares text e) : (s.step buflen e).Found buflen text := by
  obtain ⟨hroom, hfound⟩ := h
  cases e with
  | chunk bs => exact ⟨hroom, ahead_of_spares hspares buflen⟩
  | call =>
    by_cases hrow : s.row < g.rows
    · obtain ⟨htexts, hlen⟩ := step_call hbuflen s hroom ⟨s.row, hrow⟩ rfl
      refine ⟨by rw [hlen]; exact hroom, ?_⟩
      unfold Scan.Returned
      rw [htexts]
      rcases hfound with ⟨t, ht, hin⟩ | ⟨r, hr, hin⟩
      · exact .inl ⟨t, List.mem_append_left _ ht, hin⟩
      rcases Nat.eq_or_lt_of_le hr with heq | hlt
      · -- the row of this call
        obtain rfl : r = ⟨s.row, hrow⟩ := Fin.ext heq.symm
        exact .inl ⟨_, List.mem_append_right _ List.mem_cons_self, hin⟩
      · exact .inr ⟨r, hlt, hin⟩
    · obtain ⟨hbuf, htexts⟩ := step_call_outside buflen s (Nat.le_of_not_lt hrow)
      refine ⟨by rw [hbuf]; exact hroom, ?_⟩
      rcases hfound with ⟨t, ht, hin⟩ | ⟨r, hr, hin⟩
      · exact .inl ⟨t, htexts.subset ht, hin⟩
      · exact absurd (Nat.lt_of_le_of_lt hr r.isLt) hrow

/-! ## A whole scan -/

/-- **Each call goes on to the next row.** -/
theorem row_run (buflen : Nat) : ∀ (es : List ScanEvent) (s : Scan g),
    (es.foldl (Scan.step buflen) s).row = s.row + es.count .call
  | [], _ => rfl
  | .call :: es, s => by
    rw [List.foldl_cons, row_run buflen es, List.count_cons_self]
    have hrow : (s.step buflen .call).row = s.row + 1 := rfl
    omega
  | .chunk bs :: es, s => by
    rw [List.foldl_cons, row_run buflen es, List.count_cons_of_ne (by simp)]
    rfl

theorem count_call_scanEvents (gaps : List (List (List UInt8))) : (scanEvents gaps).count .call = gaps.length + 1 := by
  have hchunks : ∀ chunks : List (List UInt8), (chunks.map ScanEvent.chunk).count .call = 0 := by
    intro chunks
    rw [List.count_eq_zero]
    simp
  unfold scanEvents
  rw [List.count_cons_self]
  congr 1
  induction gaps with
  | nil => rfl
  | cons chunks gaps ih =>
    rw [List.flatMap_cons, List.count_append, List.count_append, hchunks, ih, List.length_cons]
    simp
    omega

/-- **A text that some row shows all the time is found**, if every chunk spares it. -/
theorem scan_finds (sess : Session g) (buf : List UInt8) (buflen : Nat) (hbuflen : g.cols + 1 ≤ buflen)
    (hbuf : buflen ≤ buf.length) (gaps : List (List (List UInt8))) (hgaps : gaps.length + 1 = g.rows) (text : List UInt8)
    (hshown : Transducer.Throughout (Scan.step buflen) (fun s _ => s.Shows text) (scanEvents gaps) (Scan.start sess buf))
    (hspares : Transducer.Throughout (Scan.step buflen) (Scan.Spares text) (scanEvents gaps) (Scan.start sess buf)) :
    ∃ t ∈ ((scanEvents gaps).foldl (Scan.step buflen) (Scan.start sess buf)).texts, text <:+: t := by
  have hfirst : (Scan.start sess buf).Shows text := hshown.1
  have hstart : (Scan.start sess buf).Found buflen text := by
    obtain ⟨r, hr⟩ := hfirst
    exact ⟨hbuf, .inr ⟨r, Nat.zero_le _, hr⟩⟩
  obtain ⟨-, hfound⟩ := Transducer.invariant_of_throughout (Scan.Found buflen text)
    (fun s e h hspares => found_step hbuflen s e h hspares) (scanEvents gaps) _ hstart hspares
  refine hfound.resolve_right ?_
  rintro ⟨r, hr, -⟩
  rw [row_run, count_call_scanEvents, hgaps] at hr
  have hlt := r.isLt
  have hzero : (Scan.start sess buf).row = 0 := rfl
  omega

theorem threeByTwo_fits : ((3 * 2 : Nat) : Int) ≤ intMax := by decide

def threeByTwo : Geometry := ⟨3, 2, Nat.succ_pos 2, Nat.two_pos, threeByTwo_fits⟩

def secondRow : Fin threeByTwo.rows := ⟨1, Nat.one_lt_two.trans (Nat.lt_succ_self 2)⟩

def thirdRow : Fin threeByTwo.rows := ⟨2, Nat.lt_succ_self 2⟩

/-- `a`, `b` and `c` in three rows, the cursor behind `c`. -/
def threeRows : Session threeByTwo := terminalProcessBytes (terminalInit threeByTwo) [97, 13, 10, 98, 13, 10, 99]

theorem lineFeed_inside : (streamEffect threeByTwo threeRows.screen.toPen threeRows.parser [10]).isSome = true := by decide

/-- A line feed after the first call: `c` goes up to the row that is read next. -/
theorem scan_finds_threeRows :
    ∃ t ∈ ((scanEvents [[[10]], []]).foldl (Scan.step 3) (Scan.start threeRows [0, 0, 0])).texts, [99] <:+: t :=
  scan_finds threeRows [0, 0, 0] 3 (by decide) (by decide) [[[10]], []] rfl [99]
    ⟨⟨thirdRow, by decide⟩, ⟨thirdRow, by decide⟩, ⟨secondRow, by decide⟩, ⟨secondRow, by decide⟩, trivial⟩
    ⟨trivial, .inr ⟨_, (Option.some_get lineFeed_inside).symm, thirdRow, secondRow, 0, by decide,
      ⟨by decide, by decide⟩, by decide⟩, trivial, trivial, trivial⟩

/-- A screen of two rows and two columns that shows `a` and `b`, the cursor behind `b`. -/
def twoRows : Session ⟨2, 2, by decide, by decide, by decide⟩ := terminalProcessBytes (terminalInit _) [97, 13, 10, 98]

/-- A line feed between the two calls: `b` is on the second row when the first is read, and on the first row when the
second is. -/
theorem scan_misses :
    ¬ ∀ (g : Geometry) (sess : Session g) (buf : List UInt8) (buflen : Nat), g.cols + 1 ≤ buflen → buflen ≤ buf.length →
      ∀ gaps : List (List (List UInt8)), gaps.length + 1 = g.rows → ∀ text : List UInt8,
        Transducer.Throughout (Scan.step buflen) (fun s _ => s.Shows text) (scanEvents gaps) (Scan.start sess buf) →
          ∃ t ∈ ((scanEvents gaps).foldl (Scan.step buflen) (Scan.start sess buf)).texts, text <:+: t := by
  intro h
  have hfound := h _ twoRows [0, 0, 0] 3 (by decide) (by decide) [[[10]]] rfl [98]
    ⟨⟨1, by decide⟩, ⟨1, by decide⟩, ⟨0, by decide⟩, trivial⟩
  revert hfound
  decide

end Ptywrap
