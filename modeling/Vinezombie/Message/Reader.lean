import Vinezombie.Library.Loop
import Vinezombie.Library.Scan
import Vinezombie.Message.Codec

/-!
# The blocking reader

The macros `read_msg!` and `read_buf!` of `ircmsg/codec.rs`, with which
`ClientCodec::read_owning_from` reads one message.  A call may fail with the error of the underlying
reader; what it has read so far stays in `buf`, and the next call goes on from there.

The underlying `BufRead` is given by what it delivers, piece by piece, with the failures in between.
`BufRead::read_until` on `Take` is the one of the standard library.

* `readUntil_cases`: what one `read_until` does; `readUntil_line`: what it does inside of a line.
* `read_cases`: what one call does, when the bytes still to come are lines.
* `calls_lines`: calls that go on after failures return the lines, each once and in order.
-/

namespace Vinezombie.Reader

open Library Library.Scan

/-! ## The underlying reader -/

/-- The failures of non-blocking I/O. -/
inductive Interruption where
  | wouldBlock
  | timedOut
  deriving DecidableEq, Repr

/-- What `fill_buf` comes to: some bytes, or a failure. -/
inductive Piece where
  | bytes (first : UInt8) (more : List UInt8)
  | fail (e : Interruption)
  deriving DecidableEq, Repr

/-- All bytes that a reader delivers. -/
def delivered : List Piece → List UInt8
  | [] => []
  | .bytes b bs :: reader => b :: bs ++ delivered reader
  | .fail _ :: reader => delivered reader

/-- How often a reader fails. -/
def failures : List Piece → ℕ
  | [] => 0
  | .bytes _ _ :: reader => failures reader
  | .fail _ :: reader => failures reader + 1

/-- `consume(amount)` while the piece `bs` is in the buffer of the reader. -/
def consume (amount : ℕ) (bs : List UInt8) (reader : List Piece) : List Piece :=
  match bs.drop amount with
  | [] => reader
  | c :: cs => .bytes c cs :: reader

/-- `BufRead::read_until` on a `Take` with the given limit: the count of bytes read or the failure,
the buffer and the reader.  What was read before a failure stays in the buffer. -/
def readUntil (delim : UInt8) (limit : ℕ) (reader : List Piece) (buf : List UInt8) (count : ℕ) :
    Except Interruption ℕ × List UInt8 × List Piece :=
  match limit, reader with
  | 0, reader => (.ok count, buf, reader)
  | _ + 1, [] => (.ok count, buf, [])
  | _ + 1, .fail e :: reader => (.error e, buf, reader)
  | limit + 1, .bytes b bs :: reader =>
    match ((b :: bs).take (limit + 1)).findIdx? (· == delim) with
    | some i =>
      (.ok (count + (i + 1)), buf ++ (b :: bs).take (i + 1), consume (i + 1) (b :: bs) reader)
    | none =>
      readUntil delim (limit + 1 - ((b :: bs).take (limit + 1)).length)
        (consume ((b :: bs).take (limit + 1)).length (b :: bs) reader)
        (buf ++ (b :: bs).take (limit + 1)) (count + ((b :: bs).take (limit + 1)).length)
termination_by limit
decreasing_by simp only [List.take_succ_cons, List.length_cons]; omega

/-! ## The macros -/

/-- The errors of a call. -/
inductive ReadError where
  | interrupted (e : Interruption)
  | unexpectedEof
  | parse (e : ParseError)
  deriving DecidableEq, Repr

/-- The loop of `read_buf!`, on the buffer from its end: nothing, when the buffer is used up, an
error, or the line that is parsed; and the buffer at that point. -/
def readBuf (foundNewline : Bool) :
    List UInt8 → Option (Except ParseError (List UInt8)) × List UInt8
  | [] => (none, [])
  | c :: rest =>
    if c = byte '\n' then readBuf true rest
    else if c = byte '\r' ∧ foundNewline = true then readBuf foundNewline rest
    else if c = byte '\r' ∨ c = 0 then
      (some (.error (.invalidLine (.byte c))), (c :: rest).reverse)
    else if foundNewline = true then (some (.ok (c :: rest).reverse), (c :: rest).reverse)
    else (some (.error .tooLong), (c :: rest).reverse)

/-- The buffer of the caller, and the reader. -/
structure State where
  buf : List UInt8
  reader : List Piece
  deriving DecidableEq, Repr

section Read

variable {M : Type} (limit : ℕ) (parse : List UInt8 → Except ParseError M)

/-- The end of a pass through the loop of `read_msg!`: `read_buf!`, and `parse` on what it takes out
of the buffer. -/
def finish (buf : List UInt8) (reader : List Piece) : Pass State (Except ReadError M × State) :=
  match readBuf false buf.reverse with
  | (none, buf) => .again ⟨buf, reader⟩
  | (some (.error e), buf) => .leave (.error (.parse e), ⟨buf, reader⟩)
  | (some (.ok line), _) => .leave ((parse line).mapError .parse, ⟨[], reader⟩)

/-- A pass through the loop of `read_msg!`. -/
def readMsg (s : State) : Pass State (Except ReadError M × State) :=
  if s.buf.length < limit then
    match readUntil (byte '\n') (limit - s.buf.length) s.reader s.buf 0 with
    | (.error e, buf, reader) => .leave (.error (.interrupted e), ⟨buf, reader⟩)
    | (.ok 0, buf, reader) => .leave (.error .unexpectedEof, ⟨buf, reader⟩)
    | (.ok _, buf, reader) => finish parse buf reader
  else finish parse s.buf s.reader

/-- One call. -/
def read (fuel : ℕ) (s : State) : Option (Except ReadError M × State) :=
  Loop.run (readMsg limit parse) fuel s

end Read

/-- `ClientCodec::read_owning_from`, with `ServerMsg::parse` as a given function. -/
def readOwningFrom {M : Type} (parse : List UInt8 → Except ParseError M) (fuel : ℕ) (s : State) :
    Option (Except ReadError M × State) :=
  read ServerMsg.maxLen parse fuel s

/-- What a number of calls return, one after the other, and where they leave the buffer and the
reader. -/
def calls {M : Type} (call : State → Option (Except ReadError M × State)) :
    ℕ → State → Option (List (Except ReadError M) × State)
  | 0, s => some ([], s)
  | n + 1, s =>
    match call s with
    | none => none
    | some (r, s) => (calls call n s).map fun p => (r :: p.1, p.2)

/-- The result of the parser, for an answer that is one, and no interruption and not the end. -/
def parsed {M : Type} : Except ReadError M → Option (Except ParseError M)
  | .ok m => some (.ok m)
  | .error (.parse e) => some (.error e)
  | .error _ => none

/-! ## Lines on the wire -/

/-- A line and its terminator: any number of CRs, and LF. -/
structure WireLine where
  content : List UInt8
  crs : ℕ
  valid : ∀ b ∈ content, b ≠ byte '\r' ∧ b ≠ byte '\n' ∧ b ≠ 0

namespace WireLine

/-- The line without its LF. -/
def body (l : WireLine) : List UInt8 := l.content ++ List.replicate l.crs (byte '\r')

/-- The line with its terminator. -/
def bytes (l : WireLine) : List UInt8 := l.body ++ [byte '\n']

/-- There is nothing but the terminator. -/
def isBlank (l : WireLine) : Bool := l.content.isEmpty

theorem ne_of_mem_body {l : WireLine} {b : UInt8} (hb : b ∈ l.body) : b ≠ byte '\n' := by
  rcases List.mem_append.mp hb with hb | hb
  · exact (l.valid b hb).2.1
  · rw [List.eq_of_mem_replicate hb]
    decide

end WireLine

/-! ## One `read_until` -/

@[simp] theorem delivered_consume (n : ℕ) (bs : List UInt8) (reader : List Piece) :
    delivered (consume n bs reader) = bs.drop n ++ delivered reader := by
  unfold consume
  cases bs.drop n with
  | nil => rfl
  | cons c cs => rfl

@[simp] theorem failures_consume (n : ℕ) (bs : List UInt8) (reader : List Piece) :
    failures (consume n bs reader) = failures reader := by
  unfold consume
  cases bs.drop n with
  | nil => rfl
  | cons c cs => rfl

/-- What `read_until` can come to: its result, the bytes that it reads, and the reader then. -/
inductive Reads (delim : UInt8) (limit : ℕ) (reader : List Piece) :
    Except Interruption Unit → List UInt8 → List Piece → Prop
  /-- It finds the delimiter. -/
  | found (u : List UInt8) (reader' : List Piece) : delim ∉ u → u.length < limit →
    delivered reader = u ++ delim :: delivered reader' → failures reader' = failures reader →
    Reads delim limit reader (.ok ()) (u ++ [delim]) reader'
  /-- It comes to the limit. -/
  | full (u : List UInt8) (reader' : List Piece) : delim ∉ u → u.length = limit →
    delivered reader = u ++ delivered reader' → failures reader' = failures reader →
    Reads delim limit reader (.ok ()) u reader'
  /-- It comes to the end of the stream. -/
  | ended (u : List UInt8) : delim ∉ u → u.length < limit → delivered reader = u →
    failures reader = 0 → Reads delim limit reader (.ok ()) u []
  /-- The reader fails. -/
  | failed (e : Interruption) (u : List UInt8) (reader' : List Piece) : delim ∉ u →
    u.length < limit → delivered reader = u ++ delivered reader' →
    failures reader' < failures reader → Reads delim limit reader (.error e) u reader'

/-- Bytes in front, none of which is the delimiter. -/
theorem Reads.append {delim : UInt8} {limit : ℕ} {reader reader₁ reader' : List Piece}
    {t u : List UInt8} {r : Except Interruption Unit}
    (h : Reads delim (limit - t.length) reader₁ r u reader') (ht : delim ∉ t)
    (hlen : t.length ≤ limit) (hdel : delivered reader = t ++ delivered reader₁)
    (hfail : failures reader₁ = failures reader) : Reads delim limit reader r (t ++ u) reader' := by
  have hmem : ∀ v, delim ∉ v → delim ∉ t ++ v := fun v hv => by simp [ht, hv]
  cases h with
  | found u _ hu hlt hbytes hf =>
    rw [← List.append_assoc]
    refine .found (t ++ u) reader' (hmem u hu) ?_ ?_ (hf.trans hfail)
    · rw [List.length_append]
      omega
    · rw [hdel, hbytes, List.append_assoc]
  | full _ _ hu hlt hbytes hf =>
    refine .full (t ++ u) reader' (hmem u hu) ?_ ?_ (hf.trans hfail)
    · rw [List.length_append]
      omega
    · rw [hdel, hbytes, List.append_assoc]
  | ended _ hu hlt hbytes hf =>
    refine .ended (t ++ u) (hmem u hu) ?_ ?_ (hfail ▸ hf)
    · rw [List.length_append]
      omega
    · rw [hdel, hbytes]
  | failed e _ _ hu hlt hbytes hf =>
    refine .failed e (t ++ u) reader' (hmem u hu) ?_ ?_ (hfail ▸ hf)
    · rw [List.length_append]
      omega
    · rw [hdel, hbytes, List.append_assoc]

/-- **What `read_until` does.** -/
theorem readUntil_cases (delim : UInt8) (limit : ℕ) (reader : List Piece) (buf : List UInt8)
    (count : ℕ) :
    ∃ r u reader', Reads delim limit reader r u reader' ∧
      readUntil delim limit reader buf count =
        (r.map fun _ => count + u.length, buf ++ u, reader') := by
  fun_induction readUntil delim limit reader buf count with
  | case1 buf count reader =>
    exact ⟨.ok (), [], reader, .full [] reader (by simp) rfl rfl rfl, by simp [Except.map]⟩
  | case2 buf count limit =>
    exact ⟨.ok (), [], [], .ended [] (by simp) (Nat.succ_pos _) rfl rfl, by simp [Except.map]⟩
  | case3 buf count limit e reader =>
    exact ⟨.error e, [], reader, .failed e [] reader (by simp) (Nat.succ_pos _) rfl
      (Nat.lt_succ_self _), by simp [Except.map]⟩
  | case4 buf count limit b bs reader i hidx =>
    obtain ⟨u, c, v, htake, hlen, hc, hnot⟩ := split_of_findIdx? hidx
    obtain rfl : c = delim := by simpa using hc
    have hpiece : b :: bs = u ++ c :: (v ++ (b :: bs).drop (limit + 1)) := by
      rw [← List.cons_append, ← List.append_assoc, ← htake, List.take_append_drop]
    have hlt : u.length < limit + 1 := by
      rw [hlen]
      exact (lt_length_of_findIdx? hidx).trans_le (List.length_take_le _ _)
    have hfront : (b :: bs).take (i + 1) = u ++ [c] := by
      rw [hpiece, List.append_cons]
      exact List.take_left' (by simp [hlen])
    refine ⟨.ok (), u ++ [c], consume (i + 1) (b :: bs) reader,
      .found u _ (fun h => absurd (hnot c h) (by simp)) hlt ?_ (failures_consume _ _ _), ?_⟩
    · rw [delivered_consume, delivered, List.append_cons u, ← hfront, ← List.append_assoc,
        List.take_append_drop]
    · rw [hfront, List.length_append, hlen]
      rfl
  | case5 buf count limit b bs reader hidx ih =>
    obtain ⟨r, u, reader', hreads, hread⟩ := ih
    have ht : delim ∉ (b :: bs).take (limit + 1) := fun h =>
      absurd (List.findIdx?_eq_none_iff.mp hidx delim h) (by simp)
    refine ⟨r, _, reader',
      hreads.append ht (List.length_take_le _ _) ?_ (failures_consume _ _ _), ?_⟩
    · rw [delivered_consume, ← List.append_assoc, delivered,
        List.prefix_iff_eq_append.mp (List.take_prefix _ _)]
    · rw [hread, List.length_append, List.append_assoc, Nat.add_assoc]

/-- **Inside of a line** `read_until` reads to the LF, or up to a failure before it. -/
theorem readUntil_line {delim : UInt8} {rest : List UInt8} (limit : ℕ) (reader : List Piece)
    (buf : List UInt8) (count : ℕ) (u : List UInt8) (hu : ∀ b ∈ u, b ≠ delim)
    (hbytes : delivered reader = u ++ delim :: rest) (hlimit : u.length < limit) :
    (∃ reader', readUntil delim limit reader buf count =
        (.ok (count + (u.length + 1)), buf ++ (u ++ [delim]), reader') ∧
      delivered reader' = rest ∧ failures reader' = failures reader) ∨
    ∃ e x y reader', u = x ++ y ∧
      readUntil delim limit reader buf count = (.error e, buf ++ x, reader') ∧
      delivered reader' = y ++ delim :: rest ∧ failures reader' < failures reader := by
  obtain ⟨r, v, reader', hreads, hread⟩ := readUntil_cases delim limit reader buf count
  have hnot : delim ∉ u := fun h => hu delim h rfl
  cases hreads with
  | found v _ hv _ hdel hfail =>
    rw [hbytes] at hdel
    obtain ⟨w, hw, hrest⟩ := exists_of_append_eq_append_cons hnot hdel
    cases w with
    | nil =>
      obtain rfl : v = u := by rw [hw, List.append_nil]
      refine .inl ⟨reader', ?_, (List.cons.inj hrest).2.symm, hfail⟩
      rw [hread, List.length_append]
      rfl
    | cons c w =>
      obtain rfl : delim = c := (List.cons.inj hrest).1
      refine absurd ?_ hv
      rw [hw]
      simp
  | full _ _ hv hlen hdel _ =>
    rw [hbytes] at hdel
    obtain ⟨w, rfl, -⟩ := exists_of_append_eq_append_cons hv hdel.symm
    rw [List.length_append] at hlimit
    omega
  | ended _ hv _ hdel _ =>
    refine absurd ?_ hv
    rw [← hdel, hbytes]
    simp
  | failed e _ _ hv _ hdel hfail =>
    rw [hbytes] at hdel
    obtain ⟨w, rfl, hrest⟩ := exists_of_append_eq_append_cons hv hdel.symm
    exact .inr ⟨e, v, w, reader', rfl, hread, hrest, hfail⟩

/-! ## One call -/

/-- Only failures are left in a reader that delivers no byte. -/
theorem readUntil_end (delim : UInt8) {limit : ℕ} {reader : List Piece} (buf : List UInt8)
    (count : ℕ) (hlimit : 0 < limit) (hbytes : delivered reader = []) :
    (reader = [] ∧ readUntil delim limit reader buf count = (.ok count, buf, [])) ∨
    ∃ e reader', reader = .fail e :: reader' ∧
      readUntil delim limit reader buf count = (.error e, buf, reader') := by
  obtain ⟨k, rfl⟩ := Nat.exists_eq_succ_of_ne_zero hlimit.ne'
  cases reader with
  | nil => exact .inl ⟨rfl, by rw [readUntil]⟩
  | cons piece reader =>
    cases piece with
    | bytes b bs => simp [delivered] at hbytes
    | fail e => exact .inr ⟨e, reader, rfl, by rw [readUntil]⟩

/-- `read_buf!` on CRs, once it has seen the LF. -/
theorem readBuf_crs (n : ℕ) (rest : List UInt8) :
    readBuf true (List.replicate n (byte '\r') ++ rest) = readBuf true rest := by
  induction n with
  | zero => rfl
  | succ n ih =>
    rw [List.replicate_succ, List.cons_append, readBuf, if_neg (by decide), if_pos ⟨rfl, rfl⟩, ih]

/-- **`read_buf!` on a line**: a blank one is dropped, any other is parsed. -/
theorem finish_line {M : Type} (parse : List UInt8 → Except ParseError M) (l : WireLine)
    (reader : List Piece) :
    finish parse l.bytes reader =
      if l.isBlank then .again ⟨[], reader⟩
      else .leave ((parse l.content).mapError .parse, ⟨[], reader⟩) := by
  have hbuf : readBuf false l.bytes.reverse = readBuf true l.content.reverse := by
    have hrev : l.bytes.reverse =
        byte '\n' :: (List.replicate l.crs (byte '\r') ++ l.content.reverse) := by
      simp [WireLine.bytes, WireLine.body]
    rw [hrev, readBuf, if_pos rfl, readBuf_crs]
  rw [finish, hbuf]
  cases hcontent : l.content.reverse with
  | nil =>
    rw [List.reverse_eq_nil_iff] at hcontent
    simp [readBuf, WireLine.isBlank, hcontent]
  | cons c rest =>
    have hc : c ∈ l.content := by
      rw [← List.mem_reverse, hcontent]
      exact List.mem_cons_self
    obtain ⟨hcr, hlf, hnul⟩ := l.valid c hc
    have hline : (c :: rest).reverse = l.content := by rw [← hcontent, List.reverse_reverse]
    have hblank : l.isBlank = false := by
      simpa [WireLine.isBlank] using List.ne_nil_of_mem hc
    rw [readBuf, if_neg hlf, if_neg (by simp [hcr]), if_neg (by simp [hcr, hnul]), if_pos rfl,
      hline, hblank]
    rfl

/-- A buffer and a reader from which these lines are still to be read: the first of them may be in
the buffer, up to its LF. -/
def Holds (s : State) (lines : List WireLine) : Prop :=
  s.buf ++ delivered s.reader = lines.flatMap WireLine.bytes ∧ byte '\n' ∉ s.buf

/-- What a call can come to while `lines` are to be read: `lines'` are to be read then. -/
inductive Answers {M : Type} (parse : List UInt8 → Except ParseError M) (s : State)
    (lines : List WireLine) : Except ReadError M → State → List WireLine → Prop
  /-- It is interrupted, having dropped blank lines at most. -/
  | interrupted (e : Interruption) (s' : State) (lines' : List WireLine) :
    lines'.filter (!·.isBlank) = lines.filter (!·.isBlank) →
    failures s'.reader < failures s.reader → Holds s' lines' →
    Answers parse s lines (.error (.interrupted e)) s' lines'
  /-- It returns what the parser makes of the next line. -/
  | line (l : WireLine) (s' : State) (lines' : List WireLine) :
    lines.filter (!·.isBlank) = l :: lines'.filter (!·.isBlank) →
    failures s'.reader = failures s.reader → Holds s' lines' →
    Answers parse s lines ((parse l.content).mapError .parse) s' lines'
  /-- It comes to the end. -/
  | eof : lines.filter (!·.isBlank) = [] → failures s.reader = 0 →
    Answers parse s lines (.error .unexpectedEof) ⟨[], []⟩ []

section Calls

variable {M : Type} {limit : ℕ} (parse : List UInt8 → Except ParseError M)

variable {parse} in
/-- A blank line in front makes no difference. -/
theorem Answers.cons_blank {s s₁ s' : State} {l : WireLine} {lines lines' : List WireLine}
    {r : Except ReadError M} (h : Answers parse s₁ lines r s' lines') (hl : l.isBlank = true)
    (hfail : failures s₁.reader = failures s.reader) :
    Answers parse s (l :: lines) r s' lines' := by
  have hfilter : (l :: lines).filter (!·.isBlank) = lines.filter (!·.isBlank) := by simp [hl]
  cases h with
  | interrupted e _ _ hlines hlt hholds =>
    exact .interrupted e s' lines' (hlines.trans hfilter.symm) (hfail ▸ hlt) hholds
  | line l' _ _ hlines heq hholds =>
    exact .line l' s' lines' (hfilter.trans hlines) (heq.trans hfail) hholds
  | eof hlines hzero => exact .eof (hfilter.trans hlines) (hfail ▸ hzero)

/-- The first pass of a call, when no line is to be read any more. -/
theorem readMsg_end (hlimit : 0 < limit) {s : State} (hs : Holds s []) :
    ∃ r s', readMsg limit parse s = .leave (r, s') ∧ Answers parse s [] r s' [] := by
  obtain ⟨hbuf, hbytes⟩ := List.append_eq_nil_iff.mp hs.1
  have hshort : s.buf.length < limit := by rw [hbuf]; exact hlimit
  rcases readUntil_end (byte '\n') s.buf 0 (Nat.sub_pos_of_lt hshort) hbytes with
    ⟨hreader, hread⟩ | ⟨e, reader', hreader, hread⟩
  · refine ⟨.error .unexpectedEof, ⟨[], []⟩, ?_, .eof rfl (by rw [hreader]; rfl)⟩
    rw [readMsg, if_pos hshort, hread, hbuf]
    rfl
  · refine ⟨.error (.interrupted e), ⟨[], reader'⟩, ?_, .interrupted e _ _ rfl ?_ ⟨?_, by simp⟩⟩
    · rw [readMsg, if_pos hshort, hread, hbuf]
    · rw [hreader]
      exact Nat.lt_succ_self _
    · rw [hreader] at hbytes
      exact hbytes

/-- A pass of a call that has to read the line `l`: it is interrupted before the LF, or it reads the
whole line, which `read_buf!` then looks at. -/
theorem readMsg_line {s : State} {l : WireLine} {lines : List WireLine}
    (hlen : l.bytes.length ≤ limit) (hs : Holds s (l :: lines)) :
    (∃ e s', readMsg limit parse s = .leave (.error (.interrupted e), s') ∧
      failures s'.reader < failures s.reader ∧ Holds s' (l :: lines)) ∨
    ∃ reader', readMsg limit parse s = finish parse l.bytes reader' ∧
      failures reader' = failures s.reader ∧ Holds ⟨[], reader'⟩ lines := by
  obtain ⟨hbytes, hlf⟩ := hs
  rw [List.flatMap_cons, WireLine.bytes, List.append_assoc, List.singleton_append] at hbytes
  obtain ⟨v, hbody, hrest⟩ := exists_of_append_eq_append_cons hlf hbytes
  have hv : ∀ b ∈ v, b ≠ byte '\n' := fun b hb =>
    WireLine.ne_of_mem_body (l := l) (by rw [hbody]; exact List.mem_append_right _ hb)
  have hlength : s.buf.length + v.length < limit := by
    rw [WireLine.bytes, hbody] at hlen
    simp only [List.length_append, List.length_singleton] at hlen
    omega
  rw [readMsg, if_pos (by omega)]
  rcases readUntil_line (limit - s.buf.length) s.reader s.buf 0 v hv hrest (by omega) with
    ⟨reader', hread, hdel, hfail⟩ | ⟨e, x, y, reader', rfl, hread, hdel, hfail⟩
  · refine .inr ⟨reader', ?_, hfail, hdel, by simp⟩
    rw [hread, Nat.zero_add, ← List.append_assoc, ← hbody]
    rfl
  · refine .inl ⟨e, ⟨s.buf ++ x, reader'⟩, by rw [hread], hfail, ?_, ?_⟩
    · show s.buf ++ x ++ delivered reader' = _
      rw [hdel, List.flatMap_cons, WireLine.bytes, hbody]
      simp
    · intro hmem
      rcases List.mem_append.mp hmem with hmem | hmem
      · exact hlf hmem
      · exact hv _ (List.mem_append_left _ hmem) rfl

/-- **What one call does.** -/
theorem read_cases (hlimit : 0 < limit) (lines : List WireLine) (s : State) (fuel : ℕ)
    (hlen : ∀ l ∈ lines, l.bytes.length ≤ limit) (hs : Holds s lines)
    (hfuel : lines.length < fuel) :
    ∃ r s' lines', read limit parse fuel s = some (r, s') ∧ Answers parse s lines r s' lines' ∧
      lines' <:+ lines := by
  obtain ⟨fuel, rfl⟩ := Nat.exists_eq_succ_of_ne_zero (show fuel ≠ 0 by omega)
  induction lines generalizing s fuel with
  | nil =>
    obtain ⟨r, s', hread, hanswer⟩ := readMsg_end parse hlimit hs
    exact ⟨r, s', [], Loop.run_succ_leave hread fuel, hanswer, List.suffix_refl _⟩
  | cons l lines ih =>
    rcases readMsg_line parse (hlen l List.mem_cons_self) hs with
      ⟨e, s', hread, hfail, hholds⟩ | ⟨reader', hread, hfail, hholds⟩
    · exact ⟨_, s', _, Loop.run_succ_leave hread fuel, .interrupted e s' _ rfl hfail hholds,
        List.suffix_refl _⟩
    · rw [finish_line] at hread
      by_cases hblank : l.isBlank = true
      · -- a blank line: the loop starts again with an empty buffer
        rw [if_pos hblank] at hread
        obtain ⟨fuel, rfl⟩ := Nat.exists_eq_succ_of_ne_zero (show fuel ≠ 0 by
          rw [List.length_cons] at hfuel; omega)
        obtain ⟨r, s', lines', hrun, hanswer, hsuffix⟩ := ih ⟨[], reader'⟩
          (fun l' hl' => hlen l' (List.mem_cons_of_mem _ hl')) hholds fuel
          (by rw [List.length_cons] at hfuel; omega)
        exact ⟨r, s', lines', (Loop.run_succ_again hread _).trans hrun,
          hanswer.cons_blank hblank hfail, hsuffix.trans (List.suffix_cons l lines)⟩
      · rw [if_neg hblank] at hread
        refine ⟨_, _, lines, Loop.run_succ_leave hread fuel, .line l _ lines ?_ hfail hholds,
          List.suffix_cons l lines⟩
        simp [hblank]

/-- The lines that are not blank, as the parser answers them. -/
def expected (lines : List WireLine) : List (Except ParseError M) :=
  (lines.filter (!·.isBlank)).map fun l => parse l.content

variable {parse}

@[simp] theorem parsed_mapError (r : Except ParseError M) :
    parsed (r.mapError ReadError.parse) = some r := by
  cases r with
  | ok m => rfl
  | error e => rfl

/-- What an answer takes off the lines that are expected. -/
theorem Answers.expected_eq {s s' : State} {lines lines' : List WireLine} {r : Except ReadError M}
    (h : Answers parse s lines r s' lines') :
    expected parse lines = (parsed r).toList ++ expected parse lines' := by
  cases h with
  | interrupted e _ _ hlines => simp [expected, parsed, hlines]
  | line l _ _ hlines => simp [expected, hlines]
  | eof hlines => simp [expected, parsed, hlines]

/-- Whoever is told of the end has had all lines. -/
theorem Answers.expected_of_eof {s s' : State} {lines lines' : List WireLine}
    {r : Except ReadError M} (h : Answers parse s lines r s' lines')
    (hr : r = .error .unexpectedEof) : expected parse lines = [] := by
  cases h with
  | interrupted => cases hr
  | line l =>
    cases hl : parse l.content with
    | ok m =>
      rw [hl] at hr
      cases hr
    | error e =>
      rw [hl] at hr
      cases hr
  | eof hlines => simp [expected, hlines]

theorem Answers.holds {s s' : State} {lines lines' : List WireLine} {r : Except ReadError M}
    (h : Answers parse s lines r s' lines') : Holds s' lines' := by
  cases h with
  | interrupted _ _ _ _ _ hholds => exact hholds
  | line _ _ _ _ _ hholds => exact hholds
  | eof => exact ⟨rfl, by simp⟩

/-- How many calls there are until the end is reached: one for every failure and for every line that
is not blank. -/
def remaining (s : State) (lines : List WireLine) : ℕ :=
  failures s.reader + (lines.filter (!·.isBlank)).length

/-- A call comes to the end, or brings the end nearer. -/
theorem Answers.remaining_lt {s s' : State} {lines lines' : List WireLine}
    {r : Except ReadError M} (h : Answers parse s lines r s' lines') :
    s' = ⟨[], []⟩ ∧ lines' = [] ∨ remaining s' lines' < remaining s lines := by
  cases h with
  | interrupted e _ _ hlines hlt =>
    refine .inr ?_
    rw [remaining, remaining, hlines]
    omega
  | line l _ _ hlines heq =>
    refine .inr ?_
    rw [remaining, remaining, hlines, List.length_cons]
    omega
  | eof => exact .inl ⟨rfl, rfl⟩

variable (parse)

/-- **Any number of calls** return the answers to some of the lines, in order; the others are still
to be read. -/
theorem calls_cases (hlimit : 0 < limit) (n : ℕ) (lines : List WireLine) (s : State) (fuel : ℕ)
    (hlen : ∀ l ∈ lines, l.bytes.length ≤ limit) (hs : Holds s lines)
    (hfuel : lines.length < fuel) :
    ∃ answers s' lines', calls (read limit parse fuel) n s = some (answers, s') ∧ Holds s' lines' ∧
      expected parse lines = answers.filterMap parsed ++ expected parse lines' ∧
      (∀ front back, answers = front ++ .error .unexpectedEof :: back →
        front.filterMap parsed = expected parse lines) ∧
      (remaining s lines < n ∨ s = ⟨[], []⟩ ∧ lines = [] → s' = ⟨[], []⟩ ∧ lines' = []) := by
  induction n generalizing s lines with
  | zero =>
    refine ⟨[], s, lines, rfl, hs, rfl, by simp, ?_⟩
    rintro (h | h)
    · omega
    · exact h
  | succ n ih =>
    obtain ⟨r, s₁, lines₁, hread, hanswer, hsuffix⟩ :=
      read_cases parse hlimit lines s fuel hlen hs hfuel
    obtain ⟨answers, s', lines', hcalls, hholds, hexp, heof, hend⟩ := ih lines₁ s₁
      (fun l hl => hlen l (hsuffix.subset hl)) hanswer.holds
      (by have := hsuffix.length_le; omega)
    have hcons (rest : List (Except ReadError M)) :
        (r :: rest).filterMap parsed = (parsed r).toList ++ rest.filterMap parsed := by
      rw [List.filterMap_cons]
      cases parsed r with
      | none => rfl
      | some a => rfl
    refine ⟨r :: answers, s', lines', ?_, hholds, ?_, fun front back hsplit => ?_,
      fun hn => hend ?_⟩
    · rw [calls, hread]
      simp only [hcalls, Option.map_some]
    · rw [hanswer.expected_eq, hexp, hcons, List.append_assoc]
    · cases front with
      | nil => exact (hanswer.expected_of_eof (List.cons.inj hsplit).1).symm
      | cons r' front =>
        obtain ⟨rfl, hrest⟩ := List.cons.inj hsplit
        rw [hcons, heof front back hrest, hanswer.expected_eq]
    · rcases hanswer.remaining_lt with hdone | hlt
      · exact .inr hdone
      · refine .inl ?_
        rcases hn with hn | ⟨rfl, rfl⟩
        · omega
        · simp [remaining, failures] at hlt

end Calls

/-- **The blocking reader reads every line once and in order.**  Let a reader deliver lines, blank
ones among them, in whatever pieces and with whatever failures in between.  Calls that go on after
each failure then return what the parser makes of the lines that are not blank: any number of calls
returns the first of these results, and from some number on all of them, with nothing left in the
buffer or in the reader.  What else a call returns is an interruption, until all lines have been
returned, and then the end. -/
theorem calls_lines {M : Type} (parse : List UInt8 → Except ParseError M) (lines : List WireLine)
    (hlen : ∀ l ∈ lines, l.bytes.length ≤ ServerMsg.maxLen) (reader : List Piece)
    (hreader : delivered reader = lines.flatMap WireLine.bytes) :
    ∃ fuel, ∀ n, ∃ answers s,
      calls (readOwningFrom parse fuel) n ⟨[], reader⟩ = some (answers, s) ∧
      answers.filterMap parsed <+: expected parse lines ∧
      (∀ front back, answers = front ++ .error .unexpectedEof :: back →
        front.filterMap parsed = expected parse lines) ∧
      (failures reader + (lines.filter (!·.isBlank)).length < n →
        answers.filterMap parsed = expected parse lines ∧ s = ⟨[], []⟩) := by
  refine ⟨lines.length + 1, fun n => ?_⟩
  obtain ⟨answers, s, lines', hcalls, -, hexp, heof, hend⟩ := calls_cases parse (by decide) n lines
    ⟨[], reader⟩ (lines.length + 1) hlen ⟨hreader, by simp⟩ (Nat.lt_succ_self _)
  refine ⟨answers, s, hcalls, ⟨_, hexp.symm⟩, heof, fun hn => ?_⟩
  obtain ⟨hs, rfl⟩ := hend (.inl hn)
  refine ⟨?_, hs⟩
  rw [hexp]
  exact (List.append_nil _).symm

/-- Two lines and a blank one, with a failure inside of a terminator. -/
theorem calls_lines_interrupted :
    ∃ fuel, ∀ n, ∃ answers s,
      calls (readOwningFrom (fun bs => (.ok bs : Except ParseError (List UInt8))) fuel) n
        ⟨[], [.bytes (byte 'P') (text "ING\r"), .fail .wouldBlock, .bytes (byte '\n') (text "\r"),
          .fail .timedOut, .bytes (byte '\n') (text "A\n")]⟩ = some (answers, s) ∧
      answers.filterMap parsed <+: [.ok (text "PING"), .ok (text "A")] ∧
      (∀ front back, answers = front ++ .error .unexpectedEof :: back →
        front.filterMap parsed = [.ok (text "PING"), .ok (text "A")]) ∧
      (4 < n → answers.filterMap parsed = [.ok (text "PING"), .ok (text "A")] ∧ s = ⟨[], []⟩) :=
  calls_lines (fun bs => .ok bs)
    [⟨text "PING", 1, by decide +kernel⟩, ⟨[], 1, by simp⟩, ⟨text "A", 0, by decide +kernel⟩]
    (by decide)
    [.bytes (byte 'P') (text "ING\r"), .fail .wouldBlock, .bytes (byte '\n') (text "\r"),
      .fail .timedOut, .bytes (byte '\n') (text "A\n")] (by decide)

end Vinezombie.Reader
