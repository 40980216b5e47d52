import Vinezombie.Message.Framing

/-!
# The stream codecs

The `tokio_codec` module of `ircmsg/codec.rs`: encoders that append a message and CRLF to a buffer,
and decoders that cut lines off the front of one.  The buffers are byte queues.  A decoder is driven
as `Framed` drives it: bytes are appended as they arrive, and `decode` is called until it asks for
more or fails.

A cut includes the terminator at which it was made.  `decode` checks that the cut is a line, so it
refuses every line that is terminated, whatever the line says.

* `scrollBuf_incomplete`, `scrollBuf_complete`: where a stream is cut.
* `feed_error`: a stream that begins with a terminated line is refused, in whatever chunks it comes.
* `roundTrip_iff`: only the empty list of messages survives being encoded and decoded.
-/

namespace Vinezombie

open Library Library.Scan

/-- The two errors that `decode` turns into an `io::Error`. -/
inductive DecodeError where
  | line (e : InvalidString)
  | msg (e : ParseError)
  deriving DecidableEq, Repr

namespace TokioCodec

/-! ## The codecs -/

/-- The loop of `scroll_buf` with its three variables: how much leading whitespace there is, and
where to cut behind it. -/
def scrollLoop (limit : ℕ) : List UInt8 → Bool → ℕ → ℕ → ℕ × Option ℕ
  | [], _, trimmedWs, _ => (trimmedWs, none)
  | b :: rest, leadingWs, trimmedWs, endIdx =>
    if leadingWs && isAsciiWhitespace b then scrollLoop limit rest true (trimmedWs + 1) endIdx
    else if limit ≤ endIdx + 1 ∨ b = byte '\n' ∨ b = 0 then (trimmedWs, some (endIdx + 1))
    else scrollLoop limit rest false trimmedWs (endIdx + 1)

/-- `scroll_buf`, with the buffer that is left. -/
def scrollBuf (buf : List UInt8) (limit : ℕ) : Option ℕ × List UInt8 :=
  ((scrollLoop limit buf true 0 0).2, buf.drop (scrollLoop limit buf true 0 0).1)

/-- The two `Decoder::decode` functions, with the buffer that is left. -/
def decode {M : Type} (maxLen : ℕ) (parse : Line → Option (Except ParseError M))
    (src : List UInt8) : Option (Except DecodeError (Option M) × List UInt8) :=
  match scrollBuf src maxLen with
  | (none, src) => some (.ok none, src)
  | (some splitAt, src) =>
    match Str.fromBytes .line (src.take splitAt) with
    | .error e => some (.error (.line e), src.drop splitAt)
    | .ok line =>
      match parse line with
      | none => none
      | some (.error e) => some (.error (.msg e), src.drop splitAt)
      | some (.ok msg) => some (.ok (some msg), src.drop splitAt)

/-- `Decoder for ClientCodec`. -/
def decodeServerMsg (fuel : ℕ) (src : List UInt8) :
    Option (Except DecodeError (Option ServerMsg) × List UInt8) :=
  decode ServerMsg.maxLen (ServerMsg.parse fuel) src

/-- `Decoder for ServerCodec`. -/
def decodeClientMsg (fuel : ℕ) (src : List UInt8) :
    Option (Except DecodeError (Option ClientMsg) × List UInt8) :=
  decode ClientMsg.maxLen (ClientMsg.parse fuel) src

/-- The two `Encoder::encode` functions, for a message that is written as `line`. -/
def encode (line dst : List UInt8) : List UInt8 := dst ++ line ++ text "\r\n"

/-- `Encoder<ServerMsg> for ServerCodec`. -/
def encodeServerMsg (item : ServerMsg) (dst : List UInt8) : List UInt8 := encode item.writeTo dst

/-- `Encoder<ClientMsg> for ClientCodec`. -/
def encodeClientMsg (item : ClientMsg) (dst : List UInt8) : List UInt8 := encode item.writeTo dst

/-! ## Streams -/

section Feed

variable {M : Type} (dec : List UInt8 → Option (Except DecodeError (Option M) × List UInt8))

/-- One call of `decode`, in a loop that collects messages until there is none, or an error. -/
def drainBody (st : List UInt8 × List M) :
    Pass (List UInt8 × List M) (Option (List UInt8 × List M × Option DecodeError)) :=
  match dec st.1 with
  | none => .leave none
  | some (.ok none, buf) => .leave (some (buf, st.2, none))
  | some (.ok (some msg), buf) => .again (buf, st.2 ++ [msg])
  | some (.error e, buf) => .leave (some (buf, st.2, some e))

/-- The messages that come out of a stream that arrives in chunks, and the error at which the
decoder was left, if it was. -/
def feed (fuel : ℕ) : List (List UInt8) → List UInt8 → List M → Option (List M × Option DecodeError)
  | [], _, msgs => some (msgs, none)
  | chunk :: chunks, buf, msgs =>
    match (Loop.run (drainBody dec) fuel (buf ++ chunk, msgs)).join with
    | none => none
    | some (buf, msgs, none) => feed fuel chunks buf msgs
    | some (_, msgs, some e) => some (msgs, some e)

end Feed

/-! ## Where a stream is cut -/

/-- Bytes that neither end a line nor reach the limit are passed over. -/
theorem scrollLoop_append (limit : ℕ) (rest l : List UInt8) (trimmedWs endIdx : ℕ)
    (hl : ∀ b ∈ l, b ≠ byte '\n' ∧ b ≠ 0) (hlt : endIdx + l.length < limit) :
    scrollLoop limit (l ++ rest) false trimmedWs endIdx =
      scrollLoop limit rest false trimmedWs (endIdx + l.length) := by
  induction l generalizing endIdx with
  | nil => rfl
  | cons b l ih =>
    rw [List.length_cons] at hlt
    obtain ⟨h1, h2⟩ := hl b List.mem_cons_self
    have hgo : ¬ (limit ≤ endIdx + 1 ∨ b = byte '\n' ∨ b = 0) := by
      rintro (h | h | h)
      · omega
      · exact h1 h
      · exact h2 h
    rw [List.cons_append, scrollLoop, Bool.false_and, if_neg (by simp), if_neg hgo,
      ih (endIdx + 1) (fun c hc => hl c (List.mem_cons_of_mem _ hc)) (by omega),
      List.length_cons, Nat.add_assoc, Nat.add_comm 1]

/-- A byte that is not whitespace ends the leading whitespace. -/
theorem scrollLoop_leading {limit : ℕ} {l : List UInt8} (trimmedWs endIdx : ℕ)
    (h : ∀ b ∈ l.head?, isAsciiWhitespace b = false) :
    scrollLoop limit l true trimmedWs endIdx = scrollLoop limit l false trimmedWs endIdx := by
  cases l with
  | nil => rfl
  | cons b l => rw [scrollLoop, scrollLoop, h b rfl, Bool.and_false, Bool.and_false]

/-- **An incomplete line** is left in the buffer. -/
theorem scrollBuf_incomplete {limit : ℕ} {l : List UInt8}
    (hws : ∀ b ∈ l.head?, isAsciiWhitespace b = false) (hl : ∀ b ∈ l, b ≠ byte '\n' ∧ b ≠ 0)
    (hlt : l.length < limit) : scrollBuf l limit = (none, l) := by
  have hloop : scrollLoop limit l true 0 0 = (0, none) := by
    have happ := scrollLoop_append limit [] l 0 0 hl (by omega)
    rw [List.append_nil] at happ
    rw [scrollLoop_leading 0 0 hws, happ]
    rfl
  rw [scrollBuf, hloop, List.drop_zero]

/-- **A complete line** is cut behind its terminator. -/
theorem scrollBuf_complete (limit : ℕ) (l rest : List UInt8)
    (hws : ∀ b ∈ (l ++ byte '\n' :: rest).head?, isAsciiWhitespace b = false)
    (hl : ∀ b ∈ l, b ≠ byte '\n' ∧ b ≠ 0) (hle : l.length + 1 ≤ limit) :
    scrollBuf (l ++ byte '\n' :: rest) limit =
      (some (l.length + 1), l ++ byte '\n' :: rest) := by
  have hloop : scrollLoop limit (l ++ byte '\n' :: rest) true 0 0 = (0, some (l.length + 1)) := by
    rw [scrollLoop_leading 0 0 hws, scrollLoop_append limit _ l 0 0 hl (by omega),
      scrollLoop, Bool.false_and, if_neg (by simp), if_pos (.inr (.inl rfl)), Nat.zero_add]
  rw [scrollBuf, hloop, List.drop_zero]

/-! ## What is decoded -/

variable {M : Type} {maxLen : ℕ} {parse : Line → Option (Except ParseError M)}

/-- A line, not empty, that begins with no whitespace. -/
structure Plain (line : Line) : Prop where
  ne_nil : line.bytes ≠ []
  head : ∀ b ∈ line.bytes.head?, isAsciiWhitespace b = false

theorem Plain.head_append {line : Line} (h : Plain line) (rest : List UInt8) :
    ∀ b ∈ (line.bytes ++ rest).head?, isAsciiWhitespace b = false := by
  obtain ⟨c, cs, hc⟩ := List.exists_cons_of_ne_nil h.ne_nil
  rw [hc, List.cons_append, List.head?_cons]
  intro b hb
  exact h.head b (by rw [hc]; exact hb)

/-- The bytes before the LF of a terminated line. -/
theorem ne_of_mem_terminated (line : Line) :
    ∀ b ∈ line.bytes ++ [byte '\r'], b ≠ byte '\n' ∧ b ≠ 0 := by
  intro b hb
  rcases List.mem_append.mp hb with hb | hb
  · exact (line.ne_of_mem hb).2
  · rw [List.mem_singleton.mp hb]
    decide

variable (parse) in
/-- **A terminated line is refused**: its cut ends in CR and LF. -/
theorem decode_terminated {line : Line} (h : Plain line) (hlen : line.bytes.length + 2 ≤ maxLen)
    (rest : List UInt8) :
    ∃ e buf, decode maxLen parse (line.bytes ++ text "\r\n" ++ rest) =
      some (.error (.line e), buf) := by
  have hsplit : line.bytes ++ text "\r\n" ++ rest =
      (line.bytes ++ [byte '\r']) ++ byte '\n' :: rest := by
    simp [text]
  have hcut := scrollBuf_complete maxLen (line.bytes ++ [byte '\r']) rest
    (by rw [List.append_assoc]; exact h.head_append _) (ne_of_mem_terminated line)
    (by rw [List.length_append, List.length_singleton]; omega)
  have hinvalid : StringType.line.findInvalid
      (((line.bytes ++ [byte '\r']) ++ byte '\n' :: rest).take
        ((line.bytes ++ [byte '\r']).length + 1)) ≠ none := by
    intro hnone
    have hcr := (StringType.line.findInvalid_eq_none_iff.mp hnone).2 (byte '\r') (by
      rw [List.take_length_add_append]
      simp)
    exact absurd hcr (by decide)
  obtain ⟨e, he⟩ := Option.ne_none_iff_exists'.mp hinvalid
  refine ⟨e, ((line.bytes ++ [byte '\r']) ++ byte '\n' :: rest).drop
    ((line.bytes ++ [byte '\r']).length + 1), ?_⟩
  rw [hsplit, decode, hcut]
  simp only [Str.fromBytes_of_findInvalid_some he]

/-- A line that has not arrived whole is waited for. -/
theorem decode_incomplete {line : Line} (h : Plain line) (hlen : line.bytes.length + 2 ≤ maxLen)
    {buf : List UInt8} (hbuf : buf <+: line.bytes ++ [byte '\r']) :
    decode maxLen parse buf = some (.ok none, buf) := by
  have hcut : scrollBuf buf maxLen = (none, buf) := by
    refine scrollBuf_incomplete ?_ (fun b hb => ne_of_mem_terminated line b (hbuf.subset hb)) ?_
    · intro b hb
      obtain ⟨rest, hrest⟩ := hbuf
      refine h.head_append [byte '\r'] b ?_
      rw [← hrest]
      exact List.mem_head?_append_of_mem_head? hb
    · have := hbuf.length_le
      rw [List.length_append, List.length_singleton] at this
      omega
  rw [decode, hcut]

/-- **A stream that begins with a terminated line ends in an error**, in whatever chunks it
comes. -/
theorem feed_error {line : Line} (h : Plain line) (hlen : line.bytes.length + 2 ≤ maxLen)
    (rest : List UInt8) (fuel : ℕ) (chunks : List (List UInt8)) (buf : List UInt8)
    (hbuf : buf <+: line.bytes ++ [byte '\r'])
    (hstream : buf ++ chunks.flatten = line.bytes ++ text "\r\n" ++ rest) :
    ∀ r, feed (decode maxLen parse) fuel chunks buf [] = some r → r.2 ≠ none := by
  intro r hr
  induction chunks generalizing buf with
  | nil =>
    have h1 := hbuf.length_le
    have h2 := congrArg List.length hstream
    simp [text] at h1 h2
    omega
  | cons chunk chunks ih =>
    rw [List.flatten_cons, ← List.append_assoc] at hstream
    have hprefix : buf ++ chunk <+: line.bytes ++ text "\r\n" ++ rest := ⟨_, hstream⟩
    have hcr : line.bytes ++ [byte '\r'] <+: line.bytes ++ text "\r\n" ++ rest :=
      ⟨byte '\n' :: rest, by simp [text]⟩
    cases fuel with
    | zero => exact absurd hr (by simp [feed])
    | succ fuel =>
      rw [feed] at hr
      by_cases hle : (buf ++ chunk).length ≤ (line.bytes ++ [byte '\r']).length
      · -- the line is not complete yet
        have hbuf' := List.prefix_of_prefix_length_le hprefix hcr hle
        have hbody : drainBody (decode maxLen parse) (buf ++ chunk, []) =
            .leave (some (buf ++ chunk, [], none)) := by
          rw [drainBody, decode_incomplete h hlen hbuf']
        rw [Loop.run_succ_leave hbody] at hr
        exact ih (buf ++ chunk) hbuf' hstream hr
      · have hcrlf : line.bytes ++ text "\r\n" <+: buf ++ chunk := by
          refine List.prefix_of_prefix_length_le (List.prefix_append _ rest) hprefix ?_
          simp [text] at hle ⊢
          omega
        obtain ⟨rest', hrest'⟩ := hcrlf
        obtain ⟨e, buf', hdec⟩ := decode_terminated parse h hlen rest'
        have hbody : drainBody (decode maxLen parse) (buf ++ chunk, []) =
            .leave (some (buf', [], some (.line e))) := by
          rw [drainBody, ← hrest', hdec]
        rw [Loop.run_succ_leave hbody] at hr
        rw [← Option.some.inj hr]
        simp

/-- The empty stream, in whatever chunks it comes, is no message and no error. -/
theorem feed_empty (hmax : 0 < maxLen) {chunks : List (List UInt8)} (h : chunks.flatten = []) :
    feed (decode maxLen parse) 1 chunks [] [] = some ([], none) := by
  induction chunks with
  | nil => rfl
  | cons chunk chunks ih =>
    obtain ⟨rfl, hchunks⟩ := List.append_eq_nil_iff.mp h
    have hdec : decode maxLen parse [] = some (.ok none, []) := by
      rw [decode, scrollBuf_incomplete (by simp) (by simp) hmax]
    have hbody : drainBody (decode maxLen parse) ([], []) = .leave (some ([], [], none)) := by
      rw [drainBody, hdec]
    rw [feed, List.append_nil, Loop.run_succ_leave hbody]
    exact ih hchunks

/-- What the encoders leave in a buffer, message by message. -/
theorem foldl_encode (write : M → List UInt8) (msgs : List M) (dst : List UInt8) :
    msgs.foldl (fun dst item => encode (write item) dst) dst =
      dst ++ msgs.flatMap fun item => write item ++ text "\r\n" := by
  induction msgs generalizing dst with
  | nil => simp
  | cons m msgs ih => rw [List.foldl_cons, ih, encode, List.flatMap_cons]; simp

/-- Only the empty list of messages comes back, for messages that are written as plain lines. -/
theorem feed_foldl_encode_iff (parse : ℕ → Line → Option (Except ParseError M))
    (toLine : M → Line) (hplain : ∀ m, Plain (toLine m)) (hmax : 0 < maxLen) (msgs : List M)
    (chunks : List (List UInt8))
    (hlen : ∀ m ∈ msgs, (encode (toLine m).bytes []).length ≤ maxLen)
    (hchunks : chunks.flatten = msgs.foldl (fun dst m => encode (toLine m).bytes dst) []) :
    (∃ fuel, feed (decode maxLen (parse fuel)) fuel chunks [] [] = some (msgs, none)) ↔
      msgs = [] := by
  rw [foldl_encode, List.nil_append] at hchunks
  constructor
  · rintro ⟨fuel, hfeed⟩
    cases msgs with
    | nil => rfl
    | cons m msgs =>
      have hm : (toLine m).bytes.length + 2 ≤ maxLen := by
        simpa [encode, text] using hlen m List.mem_cons_self
      rw [List.flatMap_cons] at hchunks
      exact absurd rfl (feed_error (hplain m) hm _ fuel chunks [] (List.nil_prefix) hchunks _ hfeed)
  · rintro rfl
    exact ⟨1, feed_empty hmax hchunks⟩

end TokioCodec

theorem ServerMsg.plain_toLine (m : ServerMsg) : TokioCodec.Plain m.toLine where
  ne_nil := Codec.writeTo_ne_nil m.kind.asBytes_ne_nil _ _ _
  head := fun _ hb => head?_dropWhile_eq_false (by
    rw [show m.toLine.bytes = m.writeTo from rfl, ServerMsg.writeTo,
      ← Codec.dropWhile_writeTo m.kind.asBytes_ne_nil
        (fun _ => ServerMsgKindRaw.asBytes_alphanumeric)] at hb
    exact hb)

theorem ClientMsg.plain_toLine (m : ClientMsg) : TokioCodec.Plain m.toLine := by
  have hne : m.cmd.bytes ≠ [] := (ServerMsgKindRaw.cmd m.cmd).asBytes_ne_nil
  refine ⟨Codec.writeTo_ne_nil hne m.tags none m.args, fun b hb =>
    head?_dropWhile_eq_false (l := m.writeTo) ?_⟩
  rw [ClientMsg.writeTo, Codec.dropWhile_writeTo hne fun _ => ClientMsg.cmd_alphanumeric]
  exact hb

namespace TokioCodec

/-- **No message survives being encoded and decoded.**  Whatever the chunks in which the encoded
messages arrive, the decoder yields exactly the messages and no error only when there are none. -/
theorem roundTrip_iff (chunks : List (List UInt8)) :
    (∀ msgs : List ClientMsg,
      (∀ m ∈ msgs, (encodeClientMsg m []).length ≤ ClientMsg.maxLen) →
      chunks.flatten = msgs.foldl (fun dst m => encodeClientMsg m dst) [] →
      ((∃ fuel, feed (decodeClientMsg fuel) fuel chunks [] [] = some (msgs, none)) ↔ msgs = [])) ∧
    ∀ msgs : List ServerMsg,
      (∀ m ∈ msgs, (encodeServerMsg m []).length ≤ ServerMsg.maxLen) →
      chunks.flatten = msgs.foldl (fun dst m => encodeServerMsg m dst) [] →
      ((∃ fuel, feed (decodeServerMsg fuel) fuel chunks [] [] = some (msgs, none)) ↔
        msgs = []) := by
  refine ⟨fun msgs => ?_, fun msgs => ?_⟩
  · exact feed_foldl_encode_iff ClientMsg.parse ClientMsg.toLine ClientMsg.plain_toLine
      (by decide) msgs chunks
  · exact feed_foldl_encode_iff ServerMsg.parse ServerMsg.toLine ServerMsg.plain_toLine
      (by decide) msgs chunks

/-- A message without tags and arguments, in one chunk. -/
theorem roundTrip_iff_ping :
    ¬ ∃ fuel, feed (decodeClientMsg fuel) fuel [text "PING\r\n"] [] [] =
      some ([⟨Tags.new, .fromStr "PING", Args.empty⟩], none) :=
  fun h => absurd (((roundTrip_iff [text "PING\r\n"]).1
    [⟨Tags.new, .fromStr "PING", Args.empty⟩] (by decide) (by decide)).mp h) (by simp)

/-- **A message that does not come back**, although its encoding is short and its line parses. -/
theorem not_roundTrip_ping :
    (encodeClientMsg ⟨Tags.new, .fromStr "PING", Args.empty⟩ []).length ≤
        ClientMsg.maxLen ∧
      ClientMsg.parse 0 (ClientMsg.toLine ⟨Tags.new, .fromStr "PING", Args.empty⟩) =
        some (.ok ⟨Tags.new, .fromStr "PING", Args.empty⟩) ∧
      ∀ fuel, feed (decodeClientMsg fuel) fuel
          [encodeClientMsg ⟨Tags.new, .fromStr "PING", Args.empty⟩ []] [] [] ≠
        some ([⟨Tags.new, .fromStr "PING", Args.empty⟩], none) := by
  refine ⟨by decide, by decide +kernel, fun fuel hfeed => ?_⟩
  have herror := feed_error
    (ClientMsg.plain_toLine ⟨Tags.new, .fromStr "PING", Args.empty⟩) (by decide) [] fuel
    _ [] List.nil_prefix (by decide) _ hfeed
  exact herror rfl

end TokioCodec

end Vinezombie
