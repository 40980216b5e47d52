import Vinezombie.Message.Reader

/-!
# The end of the stream

`ClientCodec::read_owning_from` and `ClientCodec::read_borrowing_from` of `ircmsg/codec.rs`, where
the stream ends.  Both are documented to be resumable: the buffer may hold a partial message of a
call that failed with non-blocking I/O or with an unexpected EOF.

`read_until` returns successfully at a LF, at the limit and at the end of the stream, and
`read_buf!` tells these apart by the last byte of the buffer alone.  So an end of the stream inside
of a line is only reported as such by a call that has read nothing; one that has read the beginning
of the line reports that it is too long.

* `readMsg_cases`, `read_ends`: what a pass and a call can come to, on any stream.
* `admitted_iff`: the buffers that the documentation admits.
* `reports_iff`: when a call reports a short line at the end as the documentation says.
-/

namespace Vinezombie

open Library Library.Scan

namespace ServerMsg

/-- `ServerMsg::parse` on bytes, which are first made a `Line`. -/
def parseBytes (fuel : ℕ) (msg : List UInt8) : Option (Except ParseError ServerMsg) :=
  match Str.fromBytes .line msg with
  | .error e => some (.error (.invalidLine e))
  | .ok line => parse fuel line

end ServerMsg

/-! ## The parser and `TooLong` -/

/-- The errors of the loop are those of `parse_source`, and `InvalidKind`. -/
theorem Codec.parseLoop_error {S : Type} {fuel : ℕ} {parseSource : Word → Except ParseError S}
    {msg : Splitter .line} {tags : Tags} {source : Option S} {expectTags expectSource : Bool}
    {e : ParseError}
    (h : parseLoop fuel parseSource msg tags source expectTags expectSource = some (.error e)) :
    e = .invalidKind .empty ∨ ∃ word, parseSource word = .error e := by
  obtain ⟨word, msg', hnext, -, -⟩ := exists_nextWord msg
  rw [parseLoop, hnext] at h
  simp only at h
  split_ifs at h with hne hat hcolon
  · exact .inl (Except.error.inj (Option.some.inj h)).symm
  · split at h
    · cases h
    · exact parseLoop_error h
  · split at h
    · next e' he => exact .inr ⟨_, he.trans (congrArg _ (Except.error.inj (Option.some.inj h)))⟩
    · exact parseLoop_error h
  · cases h
termination_by expectTags.toNat + expectSource.toNat
decreasing_by
  · rw [hat.2, Bool.toNat_false, Bool.toNat_true]
    omega
  · rw [hcolon.2, Bool.toNat_false, Bool.toNat_true]
    omega

theorem UserHost.parse_ne_tooLong (string : Word) : UserHost.parse string ≠ .error .tooLong := by
  unfold UserHost.parse
  split
  · simp
  · simp only
    split_ifs
    · simp
    · simp

theorem Source.parse_ne_tooLong (word : Word) : Source.parse word ≠ .error .tooLong := by
  unfold Source.parse
  split
  · simp
  · split
    · simp
    · split_ifs
      · split
        · next e he =>
          intro h
          obtain rfl := Except.error.inj h
          exact UserHost.parse_ne_tooLong _ he
        · simp
      · simp only
        split_ifs
        · simp
        · simp
      · simp

theorem ServerMsgKindRaw.parseKind_ne_tooLong (kind : Word) (hne : kind.bytes ≠ []) :
    ServerMsgKindRaw.parseKind kind hne ≠ .error .tooLong := by
  unfold ServerMsgKindRaw.parseKind
  split
  · simp
  · split
    · simp
    · simp

/-- **The parser never reports that a line is too long.** -/
theorem ServerMsg.parseBytes_ne_tooLong (fuel : ℕ) (msg : List UInt8) :
    ServerMsg.parseBytes fuel msg ≠ some (.error .tooLong) := by
  unfold ServerMsg.parseBytes
  split
  · simp
  · next line _ =>
    intro h
    obtain ⟨r, hr, hmap⟩ := Option.map_eq_some_iff.mp h
    cases r with
    | ok parts => cases hmap
    | error e =>
      obtain rfl : e = .tooLong := Except.error.inj hmap
      rw [Codec.parse] at hr
      split at hr
      · cases hr
      · next e he =>
        obtain rfl := Except.error.inj (Option.some.inj hr)
        rcases Codec.parseLoop_error he with hkind | ⟨word, hword⟩
        · cases hkind
        · exact Source.parse_ne_tooLong word hword
      · split at hr
        · next e he =>
          obtain rfl := Except.error.inj (Option.some.inj hr)
          exact ServerMsgKindRaw.parseKind_ne_tooLong _ _ he
        · cases hr

namespace Reader

/-! ## The two functions -/

/-- The end of a call: `$parse_expr` on the line that is left in the buffer, and what stays there
then. -/
def parseLine {M : Type} (stays : List UInt8 → List UInt8)
    (parse : List UInt8 → Option (Except ParseError M)) :
    Except ReadError (List UInt8) × State → Option (Except ReadError M × State)
  | (.error e, s) => some (.error e, s)
  | (.ok line, s) => (parse line).map fun r => (r.mapError .parse, ⟨stays line, s.reader⟩)

/-- `read_msg!` with `ServerMsg::parse`, if this ends within the given number of passes. -/
def readServerMsg (stays : List UInt8 → List UInt8) (parseFuel fuel : ℕ) (s : State) :
    Option (Except ReadError ServerMsg × State) :=
  (read ServerMsg.maxLen .ok fuel s).bind (parseLine stays (ServerMsg.parseBytes parseFuel))

/-- `ClientCodec::read_owning_from`: `std::mem::take(buf)` leaves nothing. -/
def ClientCodec.readOwningFrom (parseFuel fuel : ℕ) (s : State) :
    Option (Except ReadError ServerMsg × State) :=
  readServerMsg (fun _ => []) parseFuel fuel s

/-- `ClientCodec::read_borrowing_from`: the message borrows from `buf`. -/
def ClientCodec.readBorrowingFrom (parseFuel fuel : ℕ) (s : State) :
    Option (Except ReadError ServerMsg × State) :=
  readServerMsg id parseFuel fuel s

/-- The end of a pass, with a parser and without one. -/
theorem finish_eq {M : Type} (parse : List UInt8 → Except ParseError M) (buf : List UInt8)
    (reader : List Piece) :
    (∃ s', finish parse buf reader = .again s' ∧
      finish (.ok : List UInt8 → Except ParseError _) buf reader = .again s') ∨
    ∃ r r', finish parse buf reader = .leave r' ∧ finish .ok buf reader = .leave r ∧
      parseLine (fun _ => []) (fun line => some (parse line)) r = some r' := by
  unfold finish
  rcases readBuf false buf.reverse with ⟨_ | e | line, buf'⟩
  · exact .inl ⟨_, rfl, rfl⟩
  · exact .inr ⟨_, _, rfl, rfl, rfl⟩
  · exact .inr ⟨_, _, rfl, rfl, rfl⟩

theorem readMsg_eq {M : Type} (limit : ℕ) (parse : List UInt8 → Except ParseError M) (s : State) :
    (∃ s', readMsg limit parse s = .again s' ∧
      readMsg limit (.ok : List UInt8 → Except ParseError _) s = .again s') ∨
    ∃ r r', readMsg limit parse s = .leave r' ∧ readMsg limit .ok s = .leave r ∧
      parseLine (fun _ => []) (fun line => some (parse line)) r = some r' := by
  unfold readMsg
  by_cases hlimit : s.buf.length < limit
  · rw [if_pos hlimit, if_pos hlimit]
    rcases readUntil (byte '\n') (limit - s.buf.length) s.reader s.buf 0 with
      ⟨e | n, buf, reader⟩
    · exact .inr ⟨_, _, rfl, rfl, rfl⟩
    · cases n with
      | zero => exact .inr ⟨_, _, rfl, rfl, rfl⟩
      | succ n => exact finish_eq parse buf reader
  · rw [if_neg hlimit, if_neg hlimit]
    exact finish_eq parse s.buf s.reader

/-- A call that parses is a call that takes the line, and then parses it. -/
theorem read_eq_bind {M : Type} (limit : ℕ) (parse : List UInt8 → Except ParseError M) (fuel : ℕ)
    (s : State) :
    read limit parse fuel s =
      (read limit .ok fuel s).bind (parseLine (fun _ => []) fun line => some (parse line)) := by
  unfold read
  induction fuel generalizing s with
  | zero => rfl
  | succ fuel ih =>
    rcases readMsg_eq limit parse s with ⟨s', h1, h2⟩ | ⟨r, r', h1, h2, hline⟩
    · rw [Loop.run_succ_again h1, Loop.run_succ_again h2, ih]
    · rw [Loop.run_succ_leave h1, Loop.run_succ_leave h2, Option.bind_some, hline]

/-! ## What a call can come to -/

/-- The beginning of a line, as it may be in the buffer: without a LF, and with room for more. -/
def Unfinished (limit : ℕ) (buf : List UInt8) : Prop := byte '\n' ∉ buf ∧ buf.length < limit

/-- A line of CRs only. -/
def blankLine (crs : ℕ) : List UInt8 := List.replicate crs (byte '\r') ++ [byte '\n']

/-- What a call can come to. -/
inductive Ends (limit : ℕ) : State → Except ReadError (List UInt8) × State → Prop
  /-- It is interrupted inside of a line. -/
  | interrupted (s : State) (e : Interruption) (s' : State) : Unfinished limit s'.buf →
    Ends limit s (.error (.interrupted e), s')
  /-- It finds the end of the stream before it has read a byte of the line. -/
  | eof (s : State) : s.reader = [] → Ends limit s (.error .unexpectedEof, s)
  /-- It has filled the buffer without finding a LF. -/
  | full (s : State) (e : ParseError) (s' : State) : byte '\n' ∉ s'.buf → s'.buf.length = limit →
    Ends limit s (.error (.parse e), s')
  /-- It has read the beginning of a line, and the stream ends there. -/
  | short (s : State) (e : ParseError) (s' : State) : s'.buf = s.buf ++ delivered s.reader →
    delivered s.reader ≠ [] → failures s.reader = 0 → Unfinished limit s'.buf →
    Ends limit s (.error (.parse e), s')
  /-- It has read a line with a terminator that `read_buf!` refuses. -/
  | refused (s : State) (e : InvalidString) (s' : State) :
    Ends limit s (.error (.parse (.invalidLine e)), s')
  /-- It has read a line for the parser. -/
  | line (s : State) (line : List UInt8) (s' : State) : Ends limit s (.ok line, s')
  /-- It has read a blank line, and goes on. -/
  | blank (s : State) (crs : ℕ) (reader' : List Piece)
    (r : Except ReadError (List UInt8) × State) : crs < limit →
    s.buf ++ delivered s.reader = blankLine crs ++ delivered reader' →
    failures reader' = failures s.reader → Ends limit ⟨[], reader'⟩ r → Ends limit s r

/-- `read_buf!` on what stands in front of the LF. -/
theorem readBuf_true {u : List UInt8} (hu : byte '\n' ∉ u) :
    (∃ crs, u = List.replicate crs (byte '\r') ∧ readBuf true u = (none, [])) ∨
    (∃ e buf, readBuf true u = (some (.error (.invalidLine e)), buf)) ∨
    ∃ line buf, readBuf true u = (some (.ok line), buf) := by
  induction u with
  | nil => exact .inl ⟨0, rfl, rfl⟩
  | cons c u ih =>
    have hc : c ≠ byte '\n' := fun h => hu (h ▸ List.mem_cons_self)
    rw [readBuf, if_neg hc]
    by_cases hcr : c = byte '\r'
    · rw [if_pos ⟨hcr, rfl⟩]
      rcases ih (fun h => hu (List.mem_cons_of_mem _ h)) with ⟨crs, rfl, hread⟩ | hread
      · exact .inl ⟨crs + 1, by rw [hcr, List.replicate_succ], hread⟩
      · exact .inr hread
    · rw [if_neg (fun h => hcr h.1)]
      by_cases hnul : c = byte '\r' ∨ c = 0
      · rw [if_pos hnul]
        exact .inr (.inl ⟨_, _, rfl⟩)
      · rw [if_neg hnul, if_pos rfl]
        exact .inr (.inr ⟨_, _, rfl⟩)

/-- `read_buf!` on a line with its LF. -/
theorem finish_terminated {u : List UInt8} (hu : byte '\n' ∉ u) (reader : List Piece) :
    (∃ crs, u = List.replicate crs (byte '\r') ∧
      finish (.ok : List UInt8 → Except ParseError _) (u ++ [byte '\n']) reader =
        .again ⟨[], reader⟩) ∨
    (∃ e s', finish (.ok : List UInt8 → Except ParseError _) (u ++ [byte '\n']) reader =
      .leave (.error (.parse (.invalidLine e)), s')) ∨
    ∃ line s', finish (.ok : List UInt8 → Except ParseError _) (u ++ [byte '\n']) reader =
      .leave (.ok line, s') := by
  have hbuf : readBuf false (u ++ [byte '\n']).reverse = readBuf true u.reverse := by
    rw [List.reverse_append, List.reverse_singleton, List.singleton_append, readBuf, if_pos rfl]
  unfold finish
  rw [hbuf]
  rcases readBuf_true (u := u.reverse) (by simpa using hu) with
    ⟨crs, hcrs, hread⟩ | ⟨e, buf, hread⟩ | ⟨line, buf, hread⟩
  · refine .inl ⟨crs, ?_, by rw [hread]⟩
    rw [← List.reverse_reverse u, hcrs, List.reverse_replicate]
  · exact .inr (.inl ⟨e, _, by rw [hread]⟩)
  · exact .inr (.inr ⟨line, _, by rw [hread]; rfl⟩)

/-- `read_buf!` without a LF: some error, and nothing is taken out of the buffer. -/
theorem finish_unterminated {buf : List UInt8} (hne : buf ≠ []) (hbuf : byte '\n' ∉ buf)
    (reader : List Piece) :
    ∃ e, finish (.ok : List UInt8 → Except ParseError _) buf reader =
      .leave (.error (.parse e), ⟨buf, reader⟩) := by
  unfold finish
  obtain ⟨c, rest, hrev⟩ := List.exists_cons_of_ne_nil (List.reverse_ne_nil_iff.mpr hne)
  have hback : (c :: rest).reverse = buf := by rw [← hrev, List.reverse_reverse]
  have hc : c ≠ byte '\n' := by
    rintro rfl
    refine hbuf ?_
    rw [← hback]
    simp
  rw [hrev, readBuf, if_neg hc, if_neg (by simp)]
  by_cases hbad : c = byte '\r' ∨ c = 0
  · rw [if_pos hbad, hback]
    exact ⟨_, rfl⟩
  · rw [if_neg hbad, if_neg (by simp), hback]
    exact ⟨_, rfl⟩

/-- A pass in which `read_until` has read something. -/
theorem readMsg_of_pos {limit n : ℕ} {s : State} {buf : List UInt8} {reader : List Piece}
    (hs : s.buf.length < limit) (hn : n ≠ 0)
    (hread : readUntil (byte '\n') (limit - s.buf.length) s.reader s.buf 0 = (.ok n, buf, reader)) :
    readMsg limit (.ok : List UInt8 → Except ParseError _) s = finish .ok buf reader := by
  obtain ⟨n, rfl⟩ := Nat.exists_eq_succ_of_ne_zero hn
  rw [readMsg, if_pos hs, hread]
  rfl

theorem eq_nil_of_delivered_of_failures {reader : List Piece} (hdel : delivered reader = [])
    (hfail : failures reader = 0) : reader = [] := by
  cases reader with
  | nil => rfl
  | cons piece reader =>
    cases piece with
    | bytes b bs => simp [delivered] at hdel
    | fail e => simp [failures] at hfail

/-- **What a pass does.** -/
theorem readMsg_cases {limit : ℕ} {s : State} (hs : Unfinished limit s.buf) :
    (∃ r, readMsg limit .ok s = .leave r ∧ Ends limit s r) ∨
    ∃ crs reader', readMsg limit (.ok : List UInt8 → Except ParseError _) s =
        .again ⟨[], reader'⟩ ∧ crs < limit ∧
      s.buf ++ delivered s.reader = blankLine crs ++ delivered reader' ∧
      failures reader' = failures s.reader := by
  obtain ⟨hlf, hlen⟩ := hs
  obtain ⟨r, u, reader', hreads, hread⟩ :=
    readUntil_cases (byte '\n') (limit - s.buf.length) s.reader s.buf 0
  have hmem : ∀ v, byte '\n' ∉ v → byte '\n' ∉ s.buf ++ v := fun v hv => by simp [hlf, hv]
  cases hreads with
  | found u _ hu hlt hdel hfail =>
    have hpass := readMsg_of_pos hlen (by simp) hread
    rw [← List.append_assoc] at hpass
    rcases finish_terminated (hmem u hu) reader' with
      ⟨crs, hcrs, hfin⟩ | ⟨e, s', hfin⟩ | ⟨line, s', hfin⟩
    · refine .inr ⟨crs, reader', hpass.trans hfin, ?_, ?_, hfail⟩
      · have hlength := congrArg List.length hcrs
        rw [List.length_append, List.length_replicate] at hlength
        omega
      · rw [hdel, List.append_cons, ← List.append_assoc, ← List.append_assoc, hcrs, blankLine]
    · exact .inl ⟨_, hpass.trans hfin, .refused s e s'⟩
    · exact .inl ⟨_, hpass.trans hfin, .line s line s'⟩
  | full _ _ hu hfull hdel hfail =>
    have hlength : (s.buf ++ u).length = limit := by
      rw [List.length_append]
      omega
    have hpos : 0 + u.length ≠ 0 := by omega
    have hpass := readMsg_of_pos hlen hpos hread
    have hne : s.buf ++ u ≠ [] := List.ne_nil_of_length_pos (by omega)
    obtain ⟨e, hfin⟩ := finish_unterminated hne (hmem u hu) reader'
    exact .inl ⟨_, hpass.trans hfin, .full s e _ (hmem u hu) hlength⟩
  | ended _ hu hlt hdel hfail =>
    cases u with
    | nil =>
      have hreader := eq_nil_of_delivered_of_failures hdel hfail
      refine .inl ⟨(.error .unexpectedEof, s), ?_, .eof s hreader⟩
      rw [readMsg, if_pos hlen, hread, ← hreader, List.append_nil]
      rfl
    | cons c u =>
      have hpass := readMsg_of_pos hlen (by simp) hread
      obtain ⟨e, hfin⟩ := finish_unterminated (by simp) (hmem _ hu) []
      refine .inl ⟨_, hpass.trans hfin, .short s e _ ?_ ?_ hfail ⟨hmem _ hu, ?_⟩⟩
      · rw [hdel]
      · rw [hdel]
        exact List.cons_ne_nil c u
      · rw [List.length_append]
        omega
  | failed e _ _ hu hlt hdel hfail =>
    refine .inl ⟨(.error (.interrupted e), ⟨s.buf ++ u, reader'⟩), ?_,
      .interrupted s e _ ⟨hmem u hu, ?_⟩⟩
    · rw [readMsg, if_pos hlen, hread]
      rfl
    · rw [List.length_append]
      omega

/-- **What a call does**, from a buffer with the beginning of a line. -/
theorem read_ends {limit fuel : ℕ} {s : State} {r : Except ReadError (List UInt8) × State}
    (hlimit : 0 < limit) (hs : Unfinished limit s.buf) (h : read limit .ok fuel s = some r) :
    Ends limit s r := by
  unfold read at h
  induction fuel generalizing s with
  | zero => simp at h
  | succ fuel ih =>
    rcases readMsg_cases hs with ⟨r', hpass, hends⟩ | ⟨crs, reader', hpass, hcrs, hbytes, hfail⟩
    · rw [Loop.run_succ_leave hpass] at h
      exact Option.some.inj h ▸ hends
    · rw [Loop.run_succ_again hpass] at h
      exact .blank s crs reader' r hcrs hbytes hfail (ih ⟨by simp, hlimit⟩ h)

/-! ## A stream that ends inside of a line -/

/-- The stream ends inside of a line, of which there is `rest`, and the call comes there: the lines
before are blank. -/
def EndsInside (limit : ℕ) (s : State) (rest : List UInt8) : Prop :=
  failures s.reader = 0 ∧ rest ≠ [] ∧ Unfinished limit rest ∧
    ∃ blanks : List ℕ, (∀ crs ∈ blanks, crs < limit) ∧
      s.buf ++ delivered s.reader = blanks.flatMap blankLine ++ rest

/-- A blank line in front of the stream. -/
theorem EndsInside.cons_blank {limit crs : ℕ} {s : State} {reader' : List Piece}
    {rest : List UInt8} (h : EndsInside limit ⟨[], reader'⟩ rest) (hcrs : crs < limit)
    (hbytes : s.buf ++ delivered s.reader = blankLine crs ++ delivered reader')
    (hfail : failures reader' = failures s.reader) : EndsInside limit s rest := by
  obtain ⟨hzero, hne, hrest, blanks, hblanks, heq⟩ := h
  refine ⟨hfail ▸ hzero, hne, hrest, crs :: blanks, List.forall_mem_cons.mpr ⟨hcrs, hblanks⟩, ?_⟩
  rw [hbytes, List.flatMap_cons, List.append_assoc, ← heq]
  rfl

theorem not_mem_replicate_cr (crs : ℕ) : byte '\n' ∉ List.replicate crs (byte '\r') := by
  intro h
  exact absurd (List.eq_of_mem_replicate h) (by decide)

/-- Behind the blank line the stream ends inside of the same line, and there is something left of
it. -/
theorem EndsInside.of_blank {limit crs : ℕ} {s : State} {reader' : List Piece}
    {rest : List UInt8} (h : EndsInside limit s rest)
    (hbytes : s.buf ++ delivered s.reader = blankLine crs ++ delivered reader')
    (hfail : failures reader' = failures s.reader) :
    EndsInside limit ⟨[], reader'⟩ rest ∧ delivered reader' ≠ [] := by
  obtain ⟨hzero, hne, hrest, blanks, hblanks, heq⟩ := h
  rw [hbytes] at heq
  cases blanks with
  | nil =>
    -- the LF of the blank line would be one of the last line
    refine absurd ?_ hrest.1
    rw [List.flatMap_nil, List.nil_append] at heq
    rw [← heq]
    simp [blankLine]
  | cons crs' blanks =>
    rw [List.flatMap_cons, blankLine, blankLine, List.append_assoc, List.append_assoc,
      List.append_assoc] at heq
    obtain ⟨v, hv, hrest'⟩ :=
      exists_of_append_eq_append_cons (not_mem_replicate_cr crs) heq
    cases v with
    | cons c v =>
      refine absurd ?_ (not_mem_replicate_cr crs')
      rw [hv, ← (List.cons.inj hrest').1]
      simp
    | nil =>
      have hdel : delivered reader' = blanks.flatMap blankLine ++ rest := (List.cons.inj hrest').2
      refine ⟨⟨hfail.trans hzero, hne, hrest, blanks,
        fun k hk => hblanks k (List.mem_cons_of_mem _ hk), hdel⟩, ?_⟩
      rw [hdel]
      exact List.append_ne_nil_of_right_ne_nil _ hne

/-- With nothing left to read, the line is in the buffer. -/
theorem EndsInside.eq_buf {limit : ℕ} {s : State} {rest : List UInt8} (h : EndsInside limit s rest)
    (hs : byte '\n' ∉ s.buf) (hdel : delivered s.reader = []) : s.buf = rest := by
  obtain ⟨-, -, -, blanks, -, heq⟩ := h
  rw [hdel, List.append_nil] at heq
  cases blanks with
  | nil => exact heq
  | cons crs blanks =>
    refine absurd ?_ hs
    rw [heq, List.flatMap_cons]
    simp [blankLine]

/-- The end of the stream. -/
theorem read_eof {limit : ℕ} {s : State} (hs : s.buf.length < limit) (hreader : s.reader = []) :
    read limit (.ok : List UInt8 → Except ParseError _) 1 s = some (.error .unexpectedEof, s) := by
  obtain ⟨k, hk⟩ := Nat.exists_eq_succ_of_ne_zero (Nat.sub_ne_zero_of_lt hs)
  refine Loop.run_succ_leave ?_ 0
  rw [readMsg, if_pos hs, hreader, hk, readUntil, ← hreader]
  rfl

section Ends

variable {limit : ℕ} {s s' : State}

/-- What is left in the buffer by a call that may be resumed. -/
theorem Ends.unfinished {r : Except ReadError (List UInt8) × State} {e : ReadError}
    (h : Ends limit s r) (hlimit : 0 < limit) (hs : Unfinished limit s.buf) (hr : r.1 = .error e)
    (he : e = .unexpectedEof ∨ ∃ i, e = .interrupted i) : Unfinished limit r.2.buf := by
  induction h with
  | interrupted s e s' hs' => exact hs'
  | eof s hreader => exact hs
  | blank s crs reader' r hcrs hbytes hfail hends ih => exact ih ⟨by simp, hlimit⟩ hr
  | full s e' s' =>
    obtain rfl := Except.error.inj hr
    simp at he
  | short s e' s' =>
    obtain rfl := Except.error.inj hr
    simp at he
  | refused s e' s' =>
    obtain rfl := Except.error.inj hr
    simp at he
  | line s line s' => cases hr

/-- **`TooLong`** is reported of a full buffer, or by a call that has read up to the end of the
stream, inside of a line. -/
theorem Ends.tooLong {r : Except ReadError (List UInt8) × State} (h : Ends limit s r)
    (hs : byte '\n' ∉ s.buf) (hr : r.1 = .error (.parse .tooLong)) :
    byte '\n' ∉ r.2.buf ∧ r.2.buf.length = limit ∨
      ∃ rest, EndsInside limit s rest ∧ delivered s.reader ≠ [] := by
  induction h with
  | interrupted s e s' hs' => cases hr
  | eof s hreader => cases hr
  | full s e s' hlf hlen => exact .inl ⟨hlf, hlen⟩
  | short s e s' hbuf hne hzero hs' =>
    refine .inr ⟨s'.buf, ⟨hzero, ?_, hs', [], by simp, hbuf.symm⟩, hne⟩
    rw [hbuf]
    exact List.append_ne_nil_of_right_ne_nil _ hne
  | refused s e s' => cases hr
  | line s line s' => cases hr
  | blank s crs reader' r hcrs hbytes hfail hends ih =>
    refine (ih (by simp) hr).imp_right ?_
    rintro ⟨rest, hinside, -⟩
    refine ⟨rest, hinside.cons_blank hcrs hbytes hfail, fun hnil => hs ?_⟩
    rw [hnil, List.append_nil] at hbytes
    rw [hbytes]
    simp [blankLine]

/-- **An unexpected EOF** is reported by a call that finds nothing left of the line. -/
theorem Ends.unexpectedEof {r : Except ReadError (List UInt8) × State} {rest : List UInt8}
    (h : Ends limit s r) (hr : r.1 = .error .unexpectedEof) (hs : EndsInside limit s rest) :
    delivered s.reader = [] := by
  induction h with
  | interrupted s e s' hs' => cases hr
  | eof s hreader => rw [hreader]; rfl
  | full s e s' hlf hlen => cases hr
  | short s e s' hbuf hne hzero hs' => cases hr
  | refused s e s' => cases hr
  | line s line s' => cases hr
  | blank s crs reader' r hcrs hbytes hfail hends ih =>
    obtain ⟨hinside, hne⟩ := hs.of_blank hbytes hfail
    exact absurd (ih hr hinside) hne

end Ends

/-! ## What the documentation says -/

/-- The buffers with which a function may be called: an empty one, or one with which an earlier call
has failed, because of non-blocking I/O or at an unexpected EOF. -/
inductive Admitted (call : ℕ → State → Option (Except ReadError ServerMsg × State)) :
    List UInt8 → Prop
  | empty : Admitted call []
  | failed {buf : List UInt8} {reader : List Piece} {fuel : ℕ} {e : ReadError} {s' : State} :
    Admitted call buf → call fuel ⟨buf, reader⟩ = some (.error e, s') →
    (e = .unexpectedEof ∨ ∃ i, e = .interrupted i) → Admitted call s'.buf

/-- A later call returns the line of which the buffer holds the beginning: the reader supplies what
is missing of it. -/
def Resumes (call : ℕ → State → Option (Except ReadError ServerMsg × State))
    (parse : List UInt8 → Option (Except ParseError ServerMsg)) (buf : List UInt8) : Prop :=
  ∀ (l : WireLine) (missing more : List UInt8) (reader : List Piece), l.isBlank = false →
    l.bytes.length ≤ ServerMsg.maxLen → l.bytes = buf ++ missing →
    delivered reader = missing ++ more → failures reader = 0 →
    ∃ fuel s', call fuel ⟨buf, reader⟩ =
      (parse l.content).map fun r => (r.mapError ReadError.parse, s')

/-- What a call has to report. -/
structure Reports (call : ℕ → State → Option (Except ReadError ServerMsg × State))
    (parse : List UInt8 → Option (Except ParseError ServerMsg)) (s : State) : Prop where
  /-- `TooLong` says that the buffer is full, without a terminator in it. -/
  tooLong : ∀ fuel s', call fuel s = some (.error (.parse .tooLong), s') →
    byte '\n' ∉ s'.buf ∧ s'.buf.length = ServerMsg.maxLen
  /-- A stream that ends inside of a shorter line is an unexpected EOF.  The buffer then holds what
  there is of the line, and a later call goes on from there. -/
  eof : ∀ rest, EndsInside ServerMsg.maxLen s rest →
    ∃ fuel s', call fuel s = some (.error .unexpectedEof, s') ∧ s'.buf = rest ∧
      Resumes call parse s'.buf

section ReadServerMsg

variable {stays : List UInt8 → List UInt8} {parseFuel fuel : ℕ} {s s' : State}

/-- An error of a call is one of `read_msg!`, or one of the parser. -/
theorem readServerMsg_error {e : ReadError}
    (h : readServerMsg stays parseFuel fuel s = some (.error e, s')) :
    read ServerMsg.maxLen .ok fuel s = some (.error e, s') ∨
      ∃ line e', e = .parse e' ∧ ServerMsg.parseBytes parseFuel line = some (.error e') := by
  obtain ⟨⟨r, s₁⟩, hread, hline⟩ := Option.bind_eq_some_iff.mp h
  cases r with
  | error e₁ =>
    obtain ⟨he, rfl⟩ := Prod.mk.inj (Option.some.inj hline)
    obtain rfl := Except.error.inj he
    exact .inl hread
  | ok line =>
    obtain ⟨r, hr, hpair⟩ := Option.map_eq_some_iff.mp hline
    obtain ⟨he, -⟩ := Prod.mk.inj hpair
    cases r with
    | ok msg => cases he
    | error e' => exact .inr ⟨line, e', (Except.error.inj he).symm, hr⟩

theorem Admitted.unfinished {buf : List UInt8}
    (h : Admitted (readServerMsg stays parseFuel) buf) : Unfinished ServerMsg.maxLen buf := by
  induction h with
  | empty => exact ⟨by simp, by decide⟩
  | failed _ hcall he ih =>
    rcases readServerMsg_error hcall with hread | ⟨line, e', rfl, -⟩
    · exact (read_ends (by decide) ih hread).unfinished (by decide) ih rfl he
    · simp at he

/-- `read_until` on a piece without the delimiter. -/
theorem readUntil_piece {delim b : UInt8} {bs : List UInt8} {limit : ℕ} (hnot : delim ∉ b :: bs)
    (hlen : (b :: bs).length < limit) (reader : List Piece) (buf : List UInt8) (count : ℕ) :
    readUntil delim limit (.bytes b bs :: reader) buf count =
      readUntil delim (limit - (b :: bs).length) reader (buf ++ b :: bs)
        (count + (b :: bs).length) := by
  obtain ⟨k, rfl⟩ := Nat.exists_eq_succ_of_ne_zero (Nat.ne_of_gt (Nat.zero_lt_of_lt hlen))
  have htake : (b :: bs).take (k + 1) = b :: bs := List.take_of_length_le hlen.le
  have hidx : (b :: bs).findIdx? (· == delim) = none := by
    rw [List.findIdx?_eq_none_iff]
    intro c hc
    simpa using fun h : c = delim => hnot (h ▸ hc)
  rw [readUntil, htake, hidx]
  simp only [consume, List.drop_length]

/-- A pass from an empty buffer, on a reader that fails behind the beginning of a line. -/
theorem readMsg_piece_fail {limit : ℕ} {b : UInt8} {bs : List UInt8}
    (h : Unfinished limit (b :: bs)) (e : Interruption) :
    readMsg limit (.ok : List UInt8 → Except ParseError _) ⟨[], [.bytes b bs, .fail e]⟩ =
      .leave (.error (.interrupted e), ⟨b :: bs, []⟩) := by
  obtain ⟨k, hk⟩ := Nat.exists_eq_succ_of_ne_zero (Nat.sub_ne_zero_of_lt h.2)
  simp only [readMsg, List.length_nil, Nat.sub_zero]
  rw [if_pos (Nat.zero_lt_of_lt h.2), readUntil_piece h.1 h.2, hk, readUntil]
  rfl

/-- **The admitted buffers** are the beginnings of lines. -/
theorem admitted_iff {buf : List UInt8} :
    Admitted (readServerMsg stays parseFuel) buf ↔ Unfinished ServerMsg.maxLen buf := by
  refine ⟨Admitted.unfinished, fun h => ?_⟩
  cases buf with
  | nil => exact .empty
  | cons b bs =>
    have hcall : readServerMsg stays parseFuel 1 ⟨[], [.bytes b bs, .fail .wouldBlock]⟩ =
        some (.error (.interrupted .wouldBlock), ⟨b :: bs, []⟩) := by
      rw [readServerMsg, read, Loop.run_succ_leave (readMsg_piece_fail h _)]
      rfl
    exact .failed .empty hcall (.inr ⟨.wouldBlock, rfl⟩)

/-- A call from a buffer with the beginning of a line, when the reader supplies the end of it. -/
theorem resumes_of_unfinished {buf : List UInt8} (hbuf : byte '\n' ∉ buf) :
    Resumes (readServerMsg stays parseFuel) (ServerMsg.parseBytes parseFuel) buf := by
  intro l missing more reader hblank hlen hbytes hdel hfail
  obtain ⟨v, hbody, rfl⟩ := exists_of_append_eq_append_cons hbuf hbytes.symm
  have hlength : buf.length + v.length + 1 ≤ ServerMsg.maxLen := by
    rw [WireLine.bytes, hbody] at hlen
    simpa only [List.length_append, List.length_singleton] using hlen
  have hv : ∀ b ∈ v, b ≠ byte '\n' := fun b hb =>
    WireLine.ne_of_mem_body (l := l) (by rw [hbody]; exact List.mem_append_right _ hb)
  rw [List.append_assoc, List.singleton_append] at hdel
  rcases readUntil_line (ServerMsg.maxLen - buf.length) reader buf 0 v hv hdel (by omega) with
    ⟨reader', hread, -, -⟩ | ⟨e, x, y, reader', -, -, -, hlt⟩
  · have hpass := readMsg_of_pos (s := ⟨buf, reader⟩) (show buf.length < _ by omega) (by omega)
      hread
    rw [← List.append_assoc, ← hbody] at hpass
    have hline := hpass.trans (finish_line .ok l reader')
    rw [hblank] at hline
    refine ⟨1, ⟨stays l.content, reader'⟩, ?_⟩
    rw [readServerMsg, read, Loop.run_succ_leave hline]
    rfl
  · omega

/-- **When a short line at the end of the stream is reported as one.** -/
theorem reports_iff_of_admitted (hs : Admitted (readServerMsg stays parseFuel) s.buf) :
    Reports (readServerMsg stays parseFuel) (ServerMsg.parseBytes parseFuel) s ↔
      ∀ rest, EndsInside ServerMsg.maxLen s rest → delivered s.reader = [] := by
  have hbuf := hs.unfinished
  constructor
  · intro h rest hrest
    obtain ⟨fuel, s', hcall, -⟩ := h.eof rest hrest
    rcases readServerMsg_error hcall with hread | ⟨line, e', he, -⟩
    · exact (read_ends (by decide) hbuf hread).unexpectedEof rfl hrest
    · cases he
  · intro h
    refine ⟨fun fuel s' hcall => ?_, fun rest hrest => ?_⟩
    · rcases readServerMsg_error hcall with hread | ⟨line, e', he, hparse⟩
      · rcases (read_ends (by decide) hbuf hread).tooLong hbuf.1 rfl with hfull | ⟨rest, hrest, hne⟩
        · exact hfull
        · exact absurd (h rest hrest) hne
      · obtain rfl := ReadError.parse.inj he
        exact absurd hparse (ServerMsg.parseBytes_ne_tooLong _ _)
    · have hdel := h rest hrest
      obtain rfl := hrest.eq_buf hbuf.1 hdel
      have hread := read_eof hbuf.2 (eq_nil_of_delivered_of_failures hdel hrest.1)
      refine ⟨1, s, ?_, rfl, resumes_of_unfinished hbuf.1⟩
      rw [readServerMsg, hread]
      rfl

end ReadServerMsg

/-- **The end of the stream inside of a line.**  A call with an admitted buffer reports `TooLong`
only of a full buffer, and a shorter line at the end of the stream as an unexpected EOF from which a
later call goes on, if and only if it does not itself read a part of that line: the stream does not
end inside of a line that is short enough, or nothing was left of it when the call began. -/
theorem reports_iff (parseFuel : ℕ) (s : State) :
    (Admitted (ClientCodec.readOwningFrom parseFuel) s.buf →
      (Reports (ClientCodec.readOwningFrom parseFuel) (ServerMsg.parseBytes parseFuel) s ↔
        ∀ rest, EndsInside ServerMsg.maxLen s rest → delivered s.reader = [])) ∧
    (Admitted (ClientCodec.readBorrowingFrom parseFuel) s.buf →
      (Reports (ClientCodec.readBorrowingFrom parseFuel) (ServerMsg.parseBytes parseFuel) s ↔
        ∀ rest, EndsInside ServerMsg.maxLen s rest → delivered s.reader = [])) :=
  ⟨reports_iff_of_admitted, reports_iff_of_admitted⟩

/-- The beginning of a line in the buffer, and nothing in the reader. -/
theorem reports_iff_nothing_left :
    Reports (ClientCodec.readOwningFrom 1) (ServerMsg.parseBytes 1) ⟨text "PI", []⟩ :=
  ((reports_iff 1 ⟨text "PI", []⟩).1 (admitted_iff.mpr ⟨by decide, by decide⟩)).mpr fun _ _ => rfl

/-- A stream that ends behind `PING`: the call has read these bytes, and reports `TooLong`. -/
theorem not_reports_ping :
    Admitted (ClientCodec.readOwningFrom 1) [] ∧
    EndsInside ServerMsg.maxLen ⟨[], [.bytes (byte 'P') (text "ING")]⟩ (text "PING") ∧
    ClientCodec.readOwningFrom 1 1 ⟨[], [.bytes (byte 'P') (text "ING")]⟩ =
      some (.error (.parse .tooLong), ⟨text "PING", []⟩) ∧
    ¬ Reports (ClientCodec.readOwningFrom 1) (ServerMsg.parseBytes 1)
      ⟨[], [.bytes (byte 'P') (text "ING")]⟩ := by
  have hread : readUntil (byte '\n') (ServerMsg.maxLen - 0)
      [.bytes (byte 'P') (text "ING")] [] 0 = (.ok 4, text "PING", []) := by
    rw [readUntil_piece (by decide) (by decide)]
    exact readUntil.eq_2 ..
  have hpass := readMsg_of_pos (s := ⟨[], [.bytes (byte 'P') (text "ING")]⟩) (by decide)
    (by decide) hread
  have hcall : ClientCodec.readOwningFrom 1 1 ⟨[], [.bytes (byte 'P') (text "ING")]⟩ =
      some (.error (.parse .tooLong), ⟨text "PING", []⟩) := by
    rw [ClientCodec.readOwningFrom, readServerMsg, read, Loop.run_succ_leave hpass]
    rfl
  refine ⟨.empty, ⟨rfl, by decide, ⟨by decide, by decide⟩, [], by simp, rfl⟩, hcall, fun h => ?_⟩
  exact absurd (h.tooLong 1 _ hcall).2 (by decide)

end Reader

end Vinezombie
