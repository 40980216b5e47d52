import Vinezombie.Library.Machine
import Vinezombie.Message.TokioCodec

/-!
# Which lines of a stream the decoders deliver

A line of a stream is what stands between two LFs.  The decoders of `tokio_codec` cut their buffer
at an LF, at a NUL, and where a cut has reached `MAX_LEN`.  The first two kinds of cut contain the
byte at which they were made and are refused; only a cut made at the limit can be delivered.  Such
a cut is a whole line when the line happens to be `MAX_LEN` bytes long, and otherwise a piece of a
longer one: the blocking reader refuses an overlong line (`ParseError::TooLong`), the decoder
delivers a piece of it as a message.

A `Session` is a decoder in the middle of a stream.  Its events are the arrival of any number of
bytes and calls of `decode`, in any order, also after a call that failed.

* `decode_eq_ok_some_iff`: what is delivered, by what stands in the buffer.
* `length_trimLine_eq_iff`: a piece is a whole line when the line is no longer than the piece.
* `fromLines_iff`: every delivery of a run is a whole line exactly when no call of `decode` meets a
  piece of a longer line.
-/

namespace Vinezombie.TokioCodec

open Library Library.Scan

/-! ## Sessions -/

/-- A decoder in the middle of a stream: what has left its buffer, its buffer, and what is still to
arrive. -/
structure Session where
  taken : List UInt8
  buf : List UInt8
  coming : List UInt8

/-- What happens to a decoder. -/
inductive Event where
  /-- At most this many bytes arrive. -/
  | arrive (n : ℕ)
  | decode

/-- A message, and where in the stream the bytes stand from which it was parsed. -/
structure Delivery (M : Type) where
  msg : M
  before : List UInt8
  cut : List UInt8
  after : List UInt8

namespace Session

/-- The session before anything of the stream has arrived. -/
def start (stream : List UInt8) : Session := ⟨[], [], stream⟩

/-- The leading whitespace of the buffer, which `scroll_buf` removes. -/
def blank (s : Session) : List UInt8 := s.buf.takeWhile isAsciiWhitespace

/-- What is left of the buffer without it. -/
def pending (s : Session) : List UInt8 := s.buf.dropWhile isAsciiWhitespace

/-- One event.  A call of `decode` that does not return changes nothing. -/
def step {M : Type} (maxLen : ℕ) (parse : Line → Option (Except ParseError M)) (s : Session) :
    Event → Option (Delivery M) × Session
  | .arrive n => (none, { s with buf := s.buf ++ s.coming.take n, coming := s.coming.drop n })
  | .decode =>
    match TokioCodec.decode maxLen parse s.buf with
    | none => (none, s)
    | some (.ok (some msg), buf) =>
      (some ⟨msg, s.taken ++ s.blank, s.pending.take (s.pending.length - buf.length),
          buf ++ s.coming⟩,
        ⟨s.taken ++ s.buf.take (s.buf.length - buf.length), buf, s.coming⟩)
    | some (_, buf) => (none, ⟨s.taken ++ s.buf.take (s.buf.length - buf.length), buf, s.coming⟩)

end Session

/-! ## Lines -/

/-- The line of a stream in which the boundary between `before` and `after` lies. -/
def lineAround (before after : List UInt8) : List UInt8 :=
  before.rtakeWhile (· != byte '\n') ++ after.takeWhile (· != byte '\n')

/-- A line without leading whitespace and without CRs at its end. -/
def trimLine (line : List UInt8) : List UInt8 :=
  (line.dropWhile isAsciiWhitespace).rdropWhile (· == byte '\r')

namespace Delivery

variable {M : Type}

/-- Only whitespace stands before the cut in its line, and CRs and an LF end the line behind it. -/
structure IsLine (d : Delivery M) : Prop where
  begins : ∃ lines blank, d.before = lines ++ blank ∧ (∀ b ∈ blank, isAsciiWhitespace b = true) ∧
    (lines = [] ∨ lines.getLast? = some (byte '\n'))
  ends : ∃ n rest, d.after = List.replicate n (byte '\r') ++ byte '\n' :: rest

/-- The message was parsed from a complete line of the stream. -/
structure FromLine (parse : Line → Option (Except ParseError M)) (stream : List UInt8)
    (d : Delivery M) : Prop where
  stands : d.before ++ d.cut ++ d.after = stream
  parsed : ∃ line : Line, line.bytes = d.cut ∧ parse line = some (.ok d.msg)
  isLine : d.IsLine

end Delivery

/-- Should `decode` be called now, and should the buffer hold `MAX_LEN` bytes that are a line for
the parser and make a message, then the line of the stream in which they stand is ended, and is
`MAX_LEN` bytes long. -/
def MeetsNoOverlong {M : Type} (maxLen : ℕ) (parse : Line → Option (Except ParseError M))
    (s : Session) : Event → Prop
  | .arrive _ => True
  | .decode => ∀ (line : Line) (rest : List UInt8) (msg : M), s.pending = line.bytes ++ rest →
      line.bytes.length = maxLen → parse line = some (.ok msg) →
      byte '\n' ∈ rest ++ s.coming ∧
        (trimLine (lineAround (s.taken ++ s.blank) (s.pending ++ s.coming))).length = maxLen

/-! ## What is delivered -/

variable {M : Type} {maxLen : ℕ} {parse : Line → Option (Except ParseError M)}

/-- The loop removes the leading whitespace. -/
theorem scrollLoop_blank (limit : ℕ) (l : List UInt8) (trimmedWs : ℕ) :
    scrollLoop limit l true trimmedWs 0 =
      scrollLoop limit (l.dropWhile isAsciiWhitespace) false
        (trimmedWs + (l.takeWhile isAsciiWhitespace).length) 0 := by
  induction l generalizing trimmedWs with
  | nil => rfl
  | cons b l ih =>
    by_cases hb : isAsciiWhitespace b = true
    · rw [scrollLoop, hb, Bool.and_true, if_pos rfl, ih, List.dropWhile_cons_of_pos hb,
        List.takeWhile_cons_of_pos hb, List.length_cons]
      congr 1
      omega
    · rw [List.dropWhile_cons_of_neg hb, List.takeWhile_cons_of_neg hb]
      exact scrollLoop_leading trimmedWs 0 (by simpa using hb)

/-- Behind the whitespace, a cut ends at an LF, at a NUL, or at the limit. -/
theorem scrollLoop_cut {limit : ℕ} (l : List UInt8) (trimmedWs endIdx : ℕ)
    (hlt : endIdx < limit) :
    (scrollLoop limit l false trimmedWs endIdx).1 = trimmedWs ∧
      ∀ n ∈ (scrollLoop limit l false trimmedWs endIdx).2,
        ∃ init b rest, l = init ++ b :: rest ∧ n = endIdx + init.length + 1 ∧
          (n = limit ∨ b = byte '\n' ∨ b = 0) := by
  induction l generalizing endIdx with
  | nil => exact ⟨rfl, fun n hn => absurd hn (by simp [scrollLoop])⟩
  | cons b l ih =>
    rw [scrollLoop, Bool.false_and, if_neg (by simp)]
    by_cases hstop : limit ≤ endIdx + 1 ∨ b = byte '\n' ∨ b = 0
    · rw [if_pos hstop]
      refine ⟨rfl, fun n hn => ⟨[], b, l, rfl, (Option.some.inj hn).symm, ?_⟩⟩
      rw [← Option.some.inj hn]
      rcases hstop with h | h
      · exact .inl (by omega)
      · exact .inr h
    · rw [if_neg hstop]
      obtain ⟨htrim, hcut⟩ := ih (endIdx + 1) (by omega)
      refine ⟨htrim, fun n hn => ?_⟩
      obtain ⟨init, c, rest, rfl, hlen, hend⟩ := hcut n hn
      exact ⟨b :: init, c, rest, rfl, by rw [List.length_cons]; omega, hend⟩

/-- The cuts of `scroll_buf`, and what it leaves of the buffer. -/
theorem scrollBuf_eq (hmax : 0 < maxLen) (src : List UInt8) :
    (scrollBuf src maxLen).2 = src.dropWhile isAsciiWhitespace ∧
      (scrollBuf src maxLen).1 =
        (scrollLoop maxLen (src.dropWhile isAsciiWhitespace) false
          (src.takeWhile isAsciiWhitespace).length 0).2 := by
  have hloop := scrollLoop_blank maxLen src 0
  rw [Nat.zero_add] at hloop
  rw [scrollBuf, hloop]
  refine ⟨?_, rfl⟩
  show src.drop _ = _
  rw [(scrollLoop_cut _ _ 0 hmax).1, drop_length_takeWhile]

/-- A line of the greatest length is cut off behind its last byte, whatever follows. -/
theorem scrollLoop_line (hmax : 0 < maxLen) {line : Line} (hlen : line.bytes.length = maxLen)
    (buf : List UInt8) (leading : ℕ) :
    (scrollLoop maxLen (line.bytes ++ buf) false leading 0).2 = some maxLen := by
  have hne : line.bytes ≠ [] := by
    intro h
    rw [h, List.length_nil] at hlen
    omega
  have hlast := List.dropLast_concat_getLast hne
  have hbefore : ∀ b ∈ line.bytes.dropLast, b ≠ byte '\n' ∧ b ≠ 0 :=
    fun b hb => (Line.ne_of_mem line (List.dropLast_subset _ hb)).2
  have hshort : line.bytes.dropLast.length + 1 = maxLen := by
    rw [List.length_dropLast]
    omega
  rw [← hlast, List.append_assoc, scrollLoop_append _ _ _ _ _ hbefore (by omega),
    List.singleton_append, scrollLoop, Bool.false_and, if_neg (by simp),
    if_pos (.inl (by omega)), Nat.zero_add, hshort]

/-- **What `decode` delivers**: `MAX_LEN` bytes behind the leading whitespace that are a line. -/
theorem decode_eq_ok_some_iff (hmax : 0 < maxLen) {src buf : List UInt8} {msg : M} :
    decode maxLen parse src = some (.ok (some msg), buf) ↔
      ∃ line : Line, src.dropWhile isAsciiWhitespace = line.bytes ++ buf ∧
        line.bytes.length = maxLen ∧ parse line = some (.ok msg) := by
  obtain ⟨hleft, hcut⟩ := scrollBuf_eq hmax src
  have hpair : scrollBuf src maxLen = (_, _) := Prod.ext hcut hleft
  rw [decode, hpair]
  constructor
  · intro h
    cases hloop : (scrollLoop maxLen (src.dropWhile isAsciiWhitespace) false
        (src.takeWhile isAsciiWhitespace).length 0).2 with
    | none => simp [hloop] at h
    | some n =>
      simp only [hloop] at h
      cases hline : Str.fromBytes .line ((src.dropWhile isAsciiWhitespace).take n) with
      | error e => simp [hline] at h
      | ok line =>
        simp only [hline] at h
        have hbytes := Str.fromBytes_eq_ok_iff.mp hline
        obtain ⟨init, b, rest, hsplit, hn, hend⟩ := (scrollLoop_cut _ _ 0 hmax).2 n hloop
        have hmem : b ∈ line.bytes := by
          rw [hbytes, hsplit, List.append_cons, List.take_left' (by simp; omega)]
          simp
        obtain ⟨-, hlf, hnul⟩ := Line.ne_of_mem line hmem
        have hlen : n = maxLen := by simpa [hlf, hnul] using hend
        cases hparse : parse line with
        | none => simp [hparse] at h
        | some r =>
          cases r with
          | error e => simp [hparse] at h
          | ok m =>
            simp only [hparse, Option.some.injEq, Prod.mk.injEq, Except.ok.injEq] at h
            obtain ⟨rfl, rfl⟩ := h
            refine ⟨line, ?_, ?_, hparse⟩
            · rw [hbytes, List.take_append_drop]
            · have := congrArg List.length hsplit
              simp only [List.length_append, List.length_cons] at this
              rw [hbytes, List.length_take]
              omega
  · rintro ⟨line, hsrc, hlen, hparse⟩
    have hloop : (scrollLoop maxLen (src.dropWhile isAsciiWhitespace) false
        (src.takeWhile isAsciiWhitespace).length 0).2 = some maxLen := by
      rw [hsrc]
      exact scrollLoop_line hmax hlen buf _
    have hline : Str.fromBytes .line ((src.dropWhile isAsciiWhitespace).take maxLen) =
        .ok line := by
      rw [Str.fromBytes_eq_ok_iff, hsrc, List.take_left' hlen]
    simp only [hloop, hline, hparse, Option.some.injEq, Prod.mk.injEq, true_and]
    rw [hsrc, List.drop_left' hlen]

/-! ## When a cut is a whole line -/

/-- A cut that begins with no whitespace and has no CR stays when its line is trimmed. -/
theorem trimLine_eq {u c v : List UInt8} (hhead : ∀ b ∈ c.head?, isAsciiWhitespace b = false)
    (hcr : ∀ b ∈ c, b ≠ byte '\r') (hne : c ≠ []) :
    trimLine (u ++ (c ++ v)) =
      u.dropWhile isAsciiWhitespace ++ c ++ v.rdropWhile (· == byte '\r') := by
  have hfirst : ∀ b ∈ (c ++ v).head?, isAsciiWhitespace b = false := by
    obtain ⟨b, c', rfl⟩ := List.exists_cons_of_ne_nil hne
    exact hhead
  have hlast : ∀ b ∈ (u.dropWhile isAsciiWhitespace ++ c).getLast?, (b == byte '\r') = false := by
    intro b hb
    rw [List.getLast?_append_of_ne_nil _ hne] at hb
    simpa using hcr b (List.mem_of_getLast? hb)
  rw [trimLine, dropWhile_append_eq u hfirst, ← List.append_assoc, rdropWhile_append_eq v hlast]

/-- **A cut is its whole line when the line is as long.** -/
theorem length_trimLine_eq_iff {u c v : List UInt8}
    (hhead : ∀ b ∈ c.head?, isAsciiWhitespace b = false) (hcr : ∀ b ∈ c, b ≠ byte '\r')
    (hne : c ≠ []) :
    (trimLine (u ++ (c ++ v))).length = c.length ↔
      (∀ b ∈ u, isAsciiWhitespace b = true) ∧ ∀ b ∈ v, b = byte '\r' := by
  rw [trimLine_eq hhead hcr hne, List.length_append, List.length_append]
  have hu : (u.dropWhile isAsciiWhitespace).length = 0 ↔ ∀ b ∈ u, isAsciiWhitespace b = true := by
    rw [List.length_eq_zero_iff, List.dropWhile_eq_nil_iff]
  have hv : (v.rdropWhile (· == byte '\r')).length = 0 ↔ ∀ b ∈ v, b = byte '\r' := by
    rw [List.length_eq_zero_iff, List.rdropWhile_eq_nil_iff]
    simp
  rw [← hu, ← hv]
  omega

/-- A line begins behind the last LF. -/
theorem rtakeWhile_blank_iff {before : List UInt8} :
    (∀ b ∈ before.rtakeWhile (· != byte '\n'), isAsciiWhitespace b = true) ↔
      ∃ lines blank, before = lines ++ blank ∧ (∀ b ∈ blank, isAsciiWhitespace b = true) ∧
        (lines = [] ∨ lines.getLast? = some (byte '\n')) := by
  constructor
  · intro h
    refine ⟨before.rdropWhile (· != byte '\n'), _, List.rdropWhile_append_rtakeWhile.symm, h, ?_⟩
    by_cases hnil : before.rdropWhile (· != byte '\n') = []
    · exact .inl hnil
    · have hlast := List.rdropWhile_last_not _ _ hnil
      refine .inr ?_
      rw [List.getLast?_eq_some_getLast hnil]
      simpa using hlast
  · rintro ⟨lines, blank, rfl, hblank, hend⟩ b hb
    have hsuffix : (lines ++ blank).rtakeWhile (· != byte '\n') <:+ blank := by
      rcases hend with rfl | hend
      · exact List.rtakeWhile_suffix _ _
      · rw [rtakeWhile_append_eq blank (by rw [hend]; simp)]
        exact List.rtakeWhile_suffix _ _
    exact hblank b (hsuffix.subset hb)

/-- A line that is ended, with nothing but CRs in it, begins with CRs and an LF. -/
theorem takeWhile_cr_iff {after : List UInt8} :
    byte '\n' ∈ after ∧ (∀ b ∈ after.takeWhile (· != byte '\n'), b = byte '\r') ↔
      ∃ n rest, after = List.replicate n (byte '\r') ++ byte '\n' :: rest := by
  constructor
  · rintro ⟨hmem, hcr⟩
    have hsplit := List.takeWhile_append_dropWhile (p := (· != byte '\n')) (l := after)
    rw [List.eq_replicate_of_mem hcr] at hsplit
    cases hrest : after.dropWhile (· != byte '\n') with
    | nil =>
      have hall := List.dropWhile_eq_nil_iff.mp hrest _ hmem
      exact absurd hall (by simp)
    | cons b rest =>
      have hb : (b != byte '\n') = false :=
        head?_dropWhile_eq_false (p := (· != byte '\n')) (l := after) (by rw [hrest]; rfl)
      rw [hrest, show b = byte '\n' by simpa using hb] at hsplit
      exact ⟨_, rest, hsplit.symm⟩
  · rintro ⟨n, rest, rfl⟩
    have hcr : ∀ b ∈ List.replicate n (byte '\r'), b = byte '\r' :=
      fun b hb => List.eq_of_mem_replicate hb
    refine ⟨by simp, ?_⟩
    rw [takeWhile_append_of_stop (fun b hb => by rw [hcr b hb]; decide) (by simp)]
    exact hcr

/-! ## Runs -/

/-- What is left of a buffer is an end of it. -/
theorem suffix_of_decode {src buf : List UInt8} {r : Except DecodeError (Option M)}
    (h : decode maxLen parse src = some (r, buf)) : buf <:+ src := by
  have hscroll : (scrollBuf src maxLen).2 <:+ src := List.drop_suffix _ _
  rw [decode] at h
  generalize scrollBuf src maxLen = cut at h hscroll
  obtain ⟨splitAt, left⟩ := cut
  cases splitAt with
  | none =>
    rw [← (Prod.mk.inj (Option.some.inj h)).2]
    exact hscroll
  | some n =>
    have hdrop : left.drop n <:+ src := (List.drop_suffix n left).trans hscroll
    simp only at h
    split at h
    · rw [← (Prod.mk.inj (Option.some.inj h)).2]
      exact hdrop
    · split at h
      · exact absurd h (by simp)
      · rw [← (Prod.mk.inj (Option.some.inj h)).2]
        exact hdrop
      · rw [← (Prod.mk.inj (Option.some.inj h)).2]
        exact hdrop

namespace Session

/-- The stream of which a session is in the middle. -/
def stream (s : Session) : List UInt8 := s.taken ++ s.buf ++ s.coming

/-- Nothing of the stream is lost. -/
theorem stream_step (s : Session) (e : Event) : (s.step maxLen parse e).2.stream = s.stream := by
  have htake : ∀ {r : Except DecodeError (Option M)} {buf : List UInt8},
      TokioCodec.decode maxLen parse s.buf = some (r, buf) →
      s.taken ++ s.buf.take (s.buf.length - buf.length) ++ buf ++ s.coming = s.stream := by
    intro r buf h
    obtain ⟨front, hfront⟩ := suffix_of_decode h
    have hlen : s.buf.length - buf.length = front.length := by
      rw [← hfront, List.length_append, Nat.add_sub_cancel]
    rw [stream, hlen, ← hfront, List.take_left, ← List.append_assoc s.taken]
  cases e with
  | arrive n => simp [step, stream]
  | decode =>
    rw [step]
    split
    · rfl
    · rename_i h
      exact htake h
    · rename_i h
      exact htake h

/-- A call of `decode` that delivers. -/
theorem step_decode_of_ok (hmax : 0 < maxLen) {s : Session} {line : Line} {rest : List UInt8}
    {msg : M} (hpending : s.pending = line.bytes ++ rest) (hlen : line.bytes.length = maxLen)
    (hparse : parse line = some (.ok msg)) :
    s.step maxLen parse .decode =
      (some ⟨msg, s.taken ++ s.blank, line.bytes, rest ++ s.coming⟩,
        ⟨s.taken ++ s.blank ++ line.bytes, rest, s.coming⟩) := by
  have hdecode := (decode_eq_ok_some_iff hmax).mpr ⟨line, hpending, hlen, hparse⟩
  have hbuf : s.buf = s.blank ++ line.bytes ++ rest := by
    rw [List.append_assoc, ← hpending]
    exact List.takeWhile_append_dropWhile.symm
  have hcut : s.pending.take (s.pending.length - rest.length) = line.bytes := by
    rw [hpending, List.length_append, Nat.add_sub_cancel, List.take_left]
  have htaken : s.buf.take (s.buf.length - rest.length) = s.blank ++ line.bytes := by
    rw [hbuf, List.length_append, Nat.add_sub_cancel, List.take_left]
  rw [step, hdecode]
  simp only [hcut, htaken, List.append_assoc]

/-- The lines in the buffer of which a call of `decode` makes a message. -/
theorem exists_of_step_decode (hmax : 0 < maxLen) {s : Session} {d : Delivery M}
    (h : (s.step maxLen parse .decode).1 = some d) :
    ∃ (line : Line) (rest : List UInt8), s.pending = line.bytes ++ rest ∧
      line.bytes.length = maxLen ∧ parse line = some (.ok d.msg) := by
  rw [step] at h
  split at h
  · exact absurd h (by simp)
  · rename_i msg buf hdecode
    obtain ⟨line, hpending, hlen, hparse⟩ := (decode_eq_ok_some_iff hmax).mp hdecode
    refine ⟨line, buf, hpending, hlen, ?_⟩
    rw [hparse, ← Option.some.inj h]
  · exact absurd h (by simp)

end Session

/-- A cut at the limit is a line of the stream exactly when its line is no longer. -/
theorem isLine_iff {s : Session} (hmax : 0 < maxLen) {line : Line} {rest : List UInt8} (msg : M)
    (hpending : s.pending = line.bytes ++ rest) (hlen : line.bytes.length = maxLen) :
    Delivery.IsLine ⟨msg, s.taken ++ s.blank, line.bytes, rest ++ s.coming⟩ ↔
      byte '\n' ∈ rest ++ s.coming ∧
        (trimLine (lineAround (s.taken ++ s.blank) (s.pending ++ s.coming))).length = maxLen := by
  have hne : line.bytes ≠ [] := by
    intro h
    rw [h, List.length_nil] at hlen
    omega
  have hhead : ∀ b ∈ line.bytes.head?, isAsciiWhitespace b = false := by
    intro b hb
    refine head?_dropWhile_eq_false (l := s.buf) ?_
    rw [show s.buf.dropWhile isAsciiWhitespace = _ from hpending]
    exact List.mem_head?_append_of_mem_head? hb
  have haround : lineAround (s.taken ++ s.blank) (s.pending ++ s.coming) =
      (s.taken ++ s.blank).rtakeWhile (· != byte '\n') ++
        (line.bytes ++ (rest ++ s.coming).takeWhile (· != byte '\n')) := by
    rw [lineAround, hpending, List.append_assoc, List.takeWhile_append_of_pos]
    intro b hb
    simpa using (Line.ne_of_mem line hb).2.1
  have htrim := length_trimLine_eq_iff (u := (s.taken ++ s.blank).rtakeWhile (· != byte '\n'))
    (v := (rest ++ s.coming).takeWhile (· != byte '\n')) hhead
    (fun b hb => (Line.ne_of_mem line hb).1) hne
  rw [haround, ← hlen, htrim, rtakeWhile_blank_iff]
  constructor
  · rintro ⟨hbegins, hends⟩
    obtain ⟨hlf, hcr⟩ := takeWhile_cr_iff.mpr hends
    exact ⟨hlf, hbegins, hcr⟩
  · rintro ⟨hlf, hbegins, hcr⟩
    exact ⟨hbegins, takeWhile_cr_iff.mp ⟨hlf, hcr⟩⟩

/-- **One event delivers a whole line or nothing**, exactly when it does not meet a piece of an
overlong line. -/
theorem step_fromLine_iff (hmax : 0 < maxLen) (s : Session) (e : Event) :
    (∀ d ∈ (s.step maxLen parse e).1, d.FromLine parse s.stream) ↔
      MeetsNoOverlong maxLen parse s e := by
  cases e with
  | arrive n => simp [Session.step, MeetsNoOverlong]
  | decode =>
    constructor
    · intro h line rest msg hpending hlen hparse
      have hd := h _ (congrArg Prod.fst (Session.step_decode_of_ok hmax hpending hlen hparse))
      exact (isLine_iff hmax msg hpending hlen).mp hd.isLine
    · intro h d hd
      obtain ⟨line, rest, hpending, hlen, hparse⟩ := Session.exists_of_step_decode hmax hd
      have hd' := congrArg Prod.fst (Session.step_decode_of_ok hmax hpending hlen hparse)
      rw [Option.mem_def.mp hd] at hd'
      have hline := (isLine_iff hmax d.msg hpending hlen).mpr
        (h line rest d.msg hpending hlen hparse)
      rw [Option.some.inj hd'] at hline ⊢
      refine ⟨?_, ⟨line, rfl, hparse⟩, hline⟩
      show s.taken ++ s.blank ++ line.bytes ++ (rest ++ s.coming) = s.stream
      rw [Session.stream, ← List.takeWhile_append_dropWhile (p := isAsciiWhitespace) (l := s.buf),
        show s.buf.dropWhile isAsciiWhitespace = _ from hpending, Session.blank]
      simp

/-- The deliveries of a run. -/
def deliveries (maxLen : ℕ) (parse : Line → Option (Except ParseError M)) (s : Session)
    (events : List Event) : List (Delivery M) :=
  (Machine.outputs (Session.step maxLen parse) s events).filterMap id

theorem mem_deliveries_cons {s : Session} {e : Event} {events : List Event} {d : Delivery M} :
    d ∈ deliveries maxLen parse s (e :: events) ↔
      d ∈ (s.step maxLen parse e).1 ∨
        d ∈ deliveries maxLen parse (s.step maxLen parse e).2 events := by
  simp only [deliveries, Machine.outputs, List.mem_filterMap, List.mem_cons, id_eq, Option.mem_def]
  constructor
  · rintro ⟨a, rfl | ha, hd⟩
    · exact .inl hd
    · exact .inr ⟨a, ha, hd⟩
  · rintro (hd | ⟨a, ha, hd⟩)
    · exact ⟨_, .inl rfl, hd⟩
    · exact ⟨a, .inr ha, hd⟩

/-- **A run delivers whole lines only**, exactly when none of its calls of `decode` meets a piece
of an overlong line. -/
theorem fromLines_iff (hmax : 0 < maxLen) (s : Session) (events : List Event) :
    (∀ d ∈ deliveries maxLen parse s events, d.FromLine parse s.stream) ↔
      Machine.Throughout (Session.step maxLen parse) (MeetsNoOverlong maxLen parse) s events := by
  induction events generalizing s with
  | nil => simp [deliveries, Machine.outputs, Machine.Throughout]
  | cons e events ih =>
    have hrest := ih (s.step maxLen parse e).2
    rw [s.stream_step e] at hrest
    rw [Machine.Throughout, ← step_fromLine_iff hmax, ← hrest]
    constructor
    · intro h
      exact ⟨fun d hd => h d (mem_deliveries_cons.mpr (.inl hd)),
        fun d hd => h d (mem_deliveries_cons.mpr (.inr hd))⟩
    · rintro ⟨hfirst, hlater⟩ d hd
      rcases mem_deliveries_cons.mp hd with hd | hd
      · exact hfirst d hd
      · exact hlater d hd

/-- **The decoders deliver whole lines** in exactly those runs in which no call of `decode` finds,
behind the leading whitespace of its buffer, `MAX_LEN` bytes that make a message and that stand in a
longer line or in one that is never ended. -/
theorem decoders_fromLine_iff (fuel : ℕ) (stream : List UInt8) (events : List Event) :
    ((∀ d ∈ deliveries ServerMsg.maxLen (ServerMsg.parse fuel) (Session.start stream) events,
        d.FromLine (ServerMsg.parse fuel) stream) ↔
      Machine.Throughout (Session.step ServerMsg.maxLen (ServerMsg.parse fuel))
        (MeetsNoOverlong ServerMsg.maxLen (ServerMsg.parse fuel)) (Session.start stream) events) ∧
    ((∀ d ∈ deliveries ClientMsg.maxLen (ClientMsg.parse fuel) (Session.start stream) events,
        d.FromLine (ClientMsg.parse fuel) stream) ↔
      Machine.Throughout (Session.step ClientMsg.maxLen (ClientMsg.parse fuel))
        (MeetsNoOverlong ClientMsg.maxLen (ClientMsg.parse fuel)) (Session.start stream)
        events) := by
  exact ⟨fromLines_iff (by decide) (Session.start stream) events,
    fromLines_iff (by decide) (Session.start stream) events⟩

/-- A command of `n` letters. -/
def longCmd (n : ℕ) (hn : 0 < n) : Cmd where
  bytes := List.replicate n (byte 'A')
  valid := StringType.cmd.findInvalid_eq_none_iff.mpr (by
    obtain ⟨k, rfl⟩ := Nat.exists_eq_succ_of_ne_zero hn.ne'
    refine ⟨rfl, fun b hb => ?_⟩
    rw [List.eq_of_mem_replicate hb]
    rfl)

/-- A line of `n` letters makes a message. -/
theorem exists_parse_letters (n : ℕ) (hn : 0 < n) :
    ∃ (fuel : ℕ) (msg : ServerMsg) (line : Line), line.bytes = List.replicate n (byte 'A') ∧
      ServerMsg.parse fuel line = some (.ok msg) := by
  obtain ⟨fuel, msg, hparse, -⟩ := ServerMsg.parse_toLine
    ⟨Tags.new, none, .cmd (longCmd n hn), Args.empty⟩ (by simp)
  refine ⟨fuel, msg, _, ?_, hparse⟩
  exact List.append_nil _

theorem dropWhile_letters {n : ℕ} (hn : 0 < n) (rest : List UInt8) :
    (List.replicate n (byte 'A') ++ rest).dropWhile isAsciiWhitespace =
        List.replicate n (byte 'A') ++ rest ∧
      (List.replicate n (byte 'A') ++ rest).takeWhile isAsciiWhitespace = [] := by
  obtain ⟨k, rfl⟩ := Nat.exists_eq_succ_of_ne_zero hn.ne'
  have hA : ¬ isAsciiWhitespace (byte 'A') = true := by decide
  exact ⟨List.dropWhile_cons_of_neg hA, List.takeWhile_cons_of_neg hA⟩

/-- A line of letters that is twice as long as the limit is delivered in two pieces. -/
theorem deliveries_letters (hmax : 0 < maxLen) {line : Line} {msg : M}
    (hline : line.bytes = List.replicate maxLen (byte 'A')) (hparse : parse line = some (.ok msg)) :
    deliveries maxLen parse
        (Session.start (List.replicate (2 * maxLen) (byte 'A') ++ [byte '\n']))
        [.arrive (2 * maxLen + 1), .decode, .decode] =
      [⟨msg, [], line.bytes, line.bytes ++ [byte '\n']⟩,
        ⟨msg, line.bytes, line.bytes, [byte '\n']⟩] := by
  have hlen : line.bytes.length = maxLen := by rw [hline, List.length_replicate]
  have hstream : List.replicate (2 * maxLen) (byte 'A') ++ [byte '\n'] =
      line.bytes ++ (line.bytes ++ [byte '\n']) := by
    rw [Nat.two_mul, List.replicate_add, hline, List.append_assoc]
  have harrive : (Session.start (line.bytes ++ (line.bytes ++ [byte '\n']))).step maxLen parse
      (.arrive (2 * maxLen + 1)) = (none, ⟨[], line.bytes ++ (line.bytes ++ [byte '\n']), []⟩) := by
    rw [Session.step, Session.start, List.take_of_length_le (by simp; omega),
      List.drop_of_length_le (by simp; omega), List.nil_append]
  have hblank : ∀ taken rest, Session.pending ⟨taken, line.bytes ++ rest, []⟩ = line.bytes ++ rest ∧
      Session.blank ⟨taken, line.bytes ++ rest, []⟩ = [] := by
    intro taken rest
    rw [hline]
    exact dropWhile_letters hmax rest
  have hstep : ∀ taken rest, Session.step maxLen parse ⟨taken, line.bytes ++ rest, []⟩ .decode =
      (some ⟨msg, taken, line.bytes, rest⟩, ⟨taken ++ line.bytes, rest, []⟩) := by
    intro taken rest
    have h := Session.step_decode_of_ok hmax (hblank taken rest).1 hlen hparse
    rw [(hblank taken rest).2] at h
    simpa using h
  rw [hstream, deliveries, Machine.outputs, Machine.outputs, Machine.outputs, Machine.outputs,
    harrive, hstep, hstep, List.nil_append]
  rfl

/-- **One line, two messages**: a command of twice `MAX_LEN` letters is delivered as two commands of
`MAX_LEN` letters, and neither is a line of the stream. -/
theorem not_fromLine_overlong :
    ∃ fuel, (deliveries ServerMsg.maxLen (ServerMsg.parse fuel)
        (Session.start (List.replicate (2 * ServerMsg.maxLen) (byte 'A') ++ [byte '\n']))
        [.arrive (2 * ServerMsg.maxLen + 1), .decode, .decode]).map Delivery.cut =
          [List.replicate ServerMsg.maxLen (byte 'A'), List.replicate ServerMsg.maxLen (byte 'A')] ∧
      ∀ d ∈ deliveries ServerMsg.maxLen (ServerMsg.parse fuel)
        (Session.start (List.replicate (2 * ServerMsg.maxLen) (byte 'A') ++ [byte '\n']))
        [.arrive (2 * ServerMsg.maxLen + 1), .decode, .decode],
        ¬ d.FromLine (ServerMsg.parse fuel)
          (List.replicate (2 * ServerMsg.maxLen) (byte 'A') ++ [byte '\n']) := by
  obtain ⟨fuel, msg, line, hline, hparse⟩ := exists_parse_letters ServerMsg.maxLen (by decide)
  have hall := deliveries_letters (by decide) hline hparse
  have hletter : byte 'A' ∈ line.bytes := by
    rw [hline]
    exact List.mem_replicate.mpr ⟨by decide, rfl⟩
  have hA : ∀ b ∈ line.bytes, b = byte 'A' := fun b hb => List.eq_of_mem_replicate (hline ▸ hb)
  refine ⟨fuel, ?_, ?_⟩
  · rw [hall, ← hline]
    rfl
  · rw [hall]
    intro d hd hfrom
    rcases List.mem_pair.mp hd with rfl | rfl
    · -- letters follow the first piece
      obtain ⟨n, rest, hafter⟩ := hfrom.isLine.ends
      obtain ⟨b, bs, hbs⟩ := List.exists_cons_of_ne_nil (List.ne_nil_of_mem hletter)
      have hb : b = byte 'A' := hA b (by rw [hbs]; exact List.mem_cons_self)
      rw [hbs, hb, List.cons_append] at hafter
      cases n with
      | zero => exact absurd (List.cons.inj hafter).1 (by decide)
      | succ n => exact absurd (List.cons.inj hafter).1 (by decide)
    · -- and precede the second
      obtain ⟨lines, blank, hbefore, hblank, hends⟩ := hfrom.isLine.begins
      rcases hends with rfl | hends
      · have hmem : byte 'A' ∈ blank := by
          rw [← List.nil_append blank, ← hbefore]
          exact hletter
        exact absurd (hblank _ hmem) (by decide)
      · have hlf : byte '\n' ∈ line.bytes := by
          rw [show line.bytes = lines ++ blank from hbefore]
          exact List.mem_append_left _ (List.mem_of_getLast? hends)
        exact absurd (hA _ hlf) (by decide)

end Vinezombie.TokioCodec
