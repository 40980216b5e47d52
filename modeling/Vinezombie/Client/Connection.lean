import Vinezombie.Client.Logic
import Vinezombie.Message.ReaderEnd

/-!
# Connections with time limits

`client/conn/time.rs`: a message is read through `TimeLimitedSync`, which looks at the clock before
each read, and fails once the time for the whole message is over.

The reading half of a connection is given by what its `fill_buf` comes to, call by call.  The other
half and the clock are the functions of `Connection`, on a state of the type `W`.

* `readUntil`, `readMsg`, `read`: the reader of `Message.Reader` through time limits.
* `Undisturbed.read`: what reading leaves of the other half.
* `readMsg_eq`: a pass is one of that reader, on a connection that delivers the same bytes and may
  fail more often.
* `read_cases`: what a call comes to, when the bytes still to come are lines.
-/

namespace Vinezombie

open Library

/-- An error of a run, as far as `run` tells errors apart. -/
inductive IoError (E : Type) where
  | read (e : Reader.ReadError)
  /-- Another error of the connection. -/
  | conn (e : E)
  /-- "read timeout". -/
  | readTimeout
  deriving DecidableEq

/-- What `fill_buf` of a connection comes to. -/
inductive Fill (E : Type) where
  | bytes (first : UInt8) (more : List UInt8)
  | fail (e : Reader.Interruption)
  | broken (e : E)
  deriving DecidableEq

/-- The writing half of a connection and its time limits, and the clock of the system. -/
class Connection (W : Type) (E : outParam Type) where
  writeAll : List UInt8 → W → Except E Unit × W
  flush : W → Except E Unit × W
  setReadTimeout : Option ℕ → W → Except E Unit × W
  setWriteTimeout : Option ℕ → W → Except E Unit × W
  /-- `Instant::now`. -/
  now : W → ℕ × W
  /-- `std::thread::sleep`. -/
  sleep : ℕ → W → W

/-- A connection that keeps what is written, with a clock that moves when somebody sleeps. -/
structure MemoryConn where
  written : List UInt8
  clock : ℕ
  deriving DecidableEq

instance : Connection MemoryConn Empty where
  writeAll bytes w := (.ok (), { w with written := w.written ++ bytes })
  flush w := (.ok (), w)
  setReadTimeout _ w := (.ok (), w)
  setWriteTimeout _ w := (.ok (), w)
  now w := (w.clock, w)
  sleep wait w := { w with clock := w.clock + wait }

/-- `filter_time_error`. -/
def filterTimeError {E R : Type} : Except (IoError E) R → Except (IoError E) (Option R)
  | .ok v => .ok (some v)
  | .error (.read (.interrupted _)) => .ok none
  | .error .readTimeout => .ok none
  | .error e => .error e

theorem filterTimeError_error {E R : Type} (e : IoError E) :
    filterTimeError (.error e : Except (IoError E) R) = .error e ∨
      filterTimeError (.error e : Except (IoError E) R) = .ok none := by
  cases e with
  | read e =>
    cases e with
    | interrupted i => exact .inr rfl
    | unexpectedEof => exact .inl rfl
    | parse p => exact .inl rfl
  | conn e => exact .inl rfl
  | readTimeout => exact .inr rfl

/-- `timeout_fallback`. -/
def timeoutFallback (newTimeout oldTimeout : Option ℕ) : Option ℕ × Bool :=
  if newTimeout.isSome then (newTimeout, true) else (oldTimeout, false)

namespace TimeLimitedSync

variable {W E : Type} [Connection W E]

/-- `TimeLimitedSync::new`: the deadline, and whether it is the queue's. -/
def new (clockMax : ℕ) (writeAfter : Option ℕ) (timeouts : TimeLimits) (w : W) :
    Except (IoError E) (Option ℕ × Bool) × TimeLimits × W :=
  let (told, w) :=
    if timeouts.updateWrite then Connection.setWriteTimeout timeouts.write w else (.ok ⟨⟩, w)
  let timeouts := (timeouts.tellConn told.isOk).2
  match told with
  | .error e => (.error (.conn e), timeouts, w)
  | .ok _ =>
    let (read, constrained) := timeoutFallback writeAfter timeouts.read
    match read with
    | none => (.ok (none, constrained), timeouts, w)
    | some dur =>
      let (now, w) := Connection.now w
      (.ok (Instant.checkedAdd clockMax now dur, constrained), timeouts, w)

/-- Only the connection can fail there. -/
theorem new_error {clockMax : ℕ} {writeAfter : Option ℕ} {timeouts : TimeLimits} {w : W}
    {e : IoError E} (h : (new clockMax writeAfter timeouts w).1 = .error e) :
    ∃ e', e = .conn e' := by
  unfold new at h
  simp only at h
  split at h
  · exact ⟨_, (Except.error.inj h).symm⟩
  · split at h
    · cases h
    · cases h

theorem new_constrained {clockMax : ℕ} {writeAfter deadline : Option ℕ} {timeouts : TimeLimits}
    {w : W} {constrained : Bool}
    (h : (new clockMax writeAfter timeouts w).1 = .ok (deadline, constrained)) :
    constrained = writeAfter.isSome := by
  have hfallback : ∀ old, (timeoutFallback writeAfter old).2 = writeAfter.isSome := by
    intro old
    unfold timeoutFallback
    cases writeAfter with
    | none => rfl
    | some wait => rfl
  unfold new at h
  simp only at h
  split at h
  · cases h
  · split at h
    · exact (Prod.mk.inj (Except.ok.inj h)).2.symm.trans (hfallback _)
    · exact (Prod.mk.inj (Except.ok.inj h)).2.symm.trans (hfallback _)

/-- `update_timeout`. -/
def updateTimeout (deadline : Option ℕ) (w : W) : Except (IoError E) Unit × W :=
  match deadline with
  | none => (.ok ⟨⟩, w)
  | some deadline =>
    let (now, w) := Connection.now w
    if deadline - now ≠ 0 then
      let (told, w) := Connection.setReadTimeout (some (deadline - now)) w
      (told.mapError .conn, w)
    else (.error (.read (.interrupted .timedOut)), w)

/-- `consume` of the connection. -/
def consume (amount : ℕ) (bs : List UInt8) (reader : List (Fill E)) : List (Fill E) :=
  match bs.drop amount with
  | [] => reader
  | c :: cs => .bytes c cs :: reader

/-- `BufRead::read_until` on a `Take`, as `Reader.readUntil`, with `fill_buf` of
`TimeLimitedSync`. -/
def readUntil (deadline : Option ℕ) (delim : UInt8) (limit : ℕ) (reader : List (Fill E)) (w : W)
    (buf : List UInt8) (count : ℕ) : Except (IoError E) ℕ × List UInt8 × List (Fill E) × W :=
  match limit with
  | 0 => (.ok count, buf, reader, w)
  | limit + 1 =>
    match updateTimeout deadline w with
    | (.error e, w) => (.error e, buf, reader, w)
    | (.ok _, w) =>
      match reader with
      | [] => (.ok count, buf, [], w)
      | .fail e :: reader => (.error (.read (.interrupted e)), buf, reader, w)
      | .broken e :: reader => (.error (.conn e), buf, reader, w)
      | .bytes b bs :: reader =>
        match ((b :: bs).take (limit + 1)).findIdx? (· == delim) with
        | some i =>
          (.ok (count + (i + 1)), buf ++ (b :: bs).take (i + 1),
            consume (i + 1) (b :: bs) reader, w)
        | none =>
          readUntil deadline delim (limit + 1 - ((b :: bs).take (limit + 1)).length)
            (consume ((b :: bs).take (limit + 1)).length (b :: bs) reader) w
            (buf ++ (b :: bs).take (limit + 1)) (count + ((b :: bs).take (limit + 1)).length)
termination_by limit
decreasing_by simp only [List.take_succ_cons, List.length_cons]; omega

/-- The buffer of the caller, the reading half and the rest of the connection. -/
structure State (W E : Type) where
  buf : List UInt8
  reader : List (Fill E)
  writer : W

/-- What a pass of `read_msg!` decides about the buffer, with the rest of the connection. -/
def decided (reader : List (Fill E)) (w : W) :
    Pass Reader.State (Except Reader.ReadError (List UInt8) × Reader.State) →
    Pass (State W E) (Except (IoError E) (List UInt8) × State W E)
  | .again s => .again ⟨s.buf, reader, w⟩
  | .leave (r, s) => .leave (r.mapError .read, ⟨s.buf, reader, w⟩)

/-- A pass through the loop of `read_msg!`, up to the line that is parsed. -/
def readMsg (deadline : Option ℕ) (limit : ℕ) (s : State W E) :
    Pass (State W E) (Except (IoError E) (List UInt8) × State W E) :=
  if s.buf.length < limit then
    match readUntil deadline (byte '\n') (limit - s.buf.length) s.reader s.writer s.buf 0 with
    | (.error e, buf, reader, w) => .leave (.error e, ⟨buf, reader, w⟩)
    | (.ok 0, buf, reader, w) => .leave (.error (.read .unexpectedEof), ⟨buf, reader, w⟩)
    | (.ok _, buf, reader, w) => decided reader w (Reader.finish .ok buf [])
  else decided s.reader s.writer (Reader.finish .ok s.buf [])

/-- `read_msg!`, up to the line that is parsed. -/
def read (deadline : Option ℕ) (limit fuel : ℕ) (s : State W E) :
    Option (Except (IoError E) (List UInt8) × State W E) :=
  Loop.run (readMsg deadline limit) fuel s

/-! ## The other half -/

/-- What neither the clock nor time limits change of the writing half. -/
structure Undisturbed (P : W → Prop) : Prop where
  now : ∀ w, P w → P (Connection.now w).2
  setReadTimeout : ∀ timeout w, P w → P (Connection.setReadTimeout timeout w).2
  setWriteTimeout : ∀ timeout w, P w → P (Connection.setWriteTimeout timeout w).2

namespace Undisturbed

variable {P : W → Prop}

theorem new (h : Undisturbed P) {w : W} (hw : P w) (clockMax : ℕ) (writeAfter : Option ℕ)
    (timeouts : TimeLimits) : P (new clockMax writeAfter timeouts w).2.2 := by
  have htold : P (if timeouts.updateWrite then Connection.setWriteTimeout timeouts.write w
      else (.ok ⟨⟩, w)).2 := by
    split
    · exact h.setWriteTimeout _ w hw
    · exact hw
  unfold TimeLimitedSync.new
  simp only
  split
  · exact htold
  · split
    · exact htold
    · exact h.now _ htold

theorem updateTimeout (h : Undisturbed P) {w w' : W} (hw : P w) {deadline : Option ℕ}
    {r : Except (IoError E) Unit} (hr : updateTimeout deadline w = (r, w')) : P w' := by
  obtain rfl : (TimeLimitedSync.updateTimeout deadline w).2 = w' := congrArg Prod.snd hr
  unfold TimeLimitedSync.updateTimeout
  cases deadline with
  | none => exact hw
  | some deadline =>
    simp only
    split
    · exact h.setReadTimeout _ _ (h.now w hw)
    · exact h.now w hw

theorem readUntil (h : Undisturbed P) {w : W} (hw : P w) (deadline : Option ℕ) (delim : UInt8)
    (limit : ℕ) (reader : List (Fill E)) (buf : List UInt8) (count : ℕ) :
    P (readUntil deadline delim limit reader w buf count).2.2.2 := by
  fun_induction TimeLimitedSync.readUntil deadline delim limit reader w buf count with
  | case1 reader w buf count => exact hw
  | case2 reader w buf count limit e w₁ htime => exact h.updateTimeout hw htime
  | case3 w buf count limit _ w₁ htime => exact h.updateTimeout hw htime
  | case4 w buf count limit _ w₁ htime e reader => exact h.updateTimeout hw htime
  | case5 w buf count limit _ w₁ htime e reader => exact h.updateTimeout hw htime
  | case6 w buf count limit _ w₁ htime b bs reader i hidx => exact h.updateTimeout hw htime
  | case7 w buf count limit _ w₁ htime b bs reader hidx ih =>
    exact ih (h.updateTimeout hw htime)

theorem readMsg (h : Undisturbed P) {s : State W E} (hs : P s.writer) (deadline : Option ℕ)
    (limit : ℕ) :
    (∀ s', readMsg deadline limit s = .again s' → P s'.writer) ∧
      ∀ r s', readMsg deadline limit s = .leave (r, s') → P s'.writer := by
  have hdecided : ∀ (reader : List (Fill E)) (w : W) (buf : List UInt8), P w →
      (∀ s', decided reader w (Reader.finish .ok buf []) = .again s' → P s'.writer) ∧
        ∀ r s', decided reader w (Reader.finish .ok buf []) = .leave (r, s') → P s'.writer := by
    intro reader w buf hw
    cases Reader.finish (.ok : List UInt8 → Except ParseError _) buf [] with
    | again s₁ =>
      refine ⟨fun s' hs' => ?_, fun r s' hs' => (by cases hs')⟩
      obtain rfl := Pass.again.inj hs'
      exact hw
    | leave p =>
      refine ⟨fun s' hs' => (by cases hs'), fun r s' hs' => ?_⟩
      obtain ⟨-, rfl⟩ := Prod.mk.inj (Pass.leave.inj hs')
      exact hw
  unfold TimeLimitedSync.readMsg
  split
  · have hread := h.readUntil hs deadline (byte '\n') (limit - s.buf.length) s.reader s.buf 0
    rcases hr : TimeLimitedSync.readUntil deadline (byte '\n') (limit - s.buf.length) s.reader
      s.writer s.buf 0 with ⟨e | _ | n, buf, reader, w⟩
    · rw [hr] at hread
      refine ⟨fun s' hs' => (by cases hs'), fun r s' hs' => ?_⟩
      obtain ⟨-, rfl⟩ := Prod.mk.inj (Pass.leave.inj hs')
      exact hread
    · rw [hr] at hread
      refine ⟨fun s' hs' => (by cases hs'), fun r s' hs' => ?_⟩
      obtain ⟨-, rfl⟩ := Prod.mk.inj (Pass.leave.inj hs')
      exact hread
    · rw [hr] at hread
      exact hdecided reader w buf hread
  · exact hdecided s.reader s.writer s.buf hs

/-- **A call leaves it**, however it ends. -/
theorem read (h : Undisturbed P) {s s' : State W E} (hs : P s.writer) {deadline : Option ℕ}
    {limit fuel : ℕ} {r : Except (IoError E) (List UInt8)}
    (hread : read deadline limit fuel s = some (r, s')) : P s'.writer := by
  induction fuel generalizing s with
  | zero => cases hread
  | succ fuel ih =>
    obtain ⟨hagain, hleave⟩ := h.readMsg hs deadline limit
    unfold TimeLimitedSync.read at hread ih
    cases hpass : TimeLimitedSync.readMsg deadline limit s with
    | again s₁ =>
      rw [Loop.run_succ_again hpass] at hread
      exact ih (hagain s₁ hpass) hread
    | leave p =>
      rw [Loop.run_succ_leave hpass] at hread
      exact hleave r s' (hpass.trans (congrArg _ (Option.some.inj hread)))

end Undisturbed

/-! ## The reader of `Message.Reader` -/

/-- The bytes that the reading half delivers. -/
def delivered : List (Fill E) → List UInt8
  | [] => []
  | .bytes b bs :: reader => b :: bs ++ delivered reader
  | .fail _ :: reader => delivered reader
  | .broken _ :: reader => delivered reader

/-- Any error as a failure of non-blocking I/O. -/
def asInterruption : IoError E → Reader.Interruption
  | .read (.interrupted e) => e
  | _ => .timedOut

/-- The same reading half without errors that end a connection. -/
def plain : List (Fill E) → List Reader.Piece
  | [] => []
  | .bytes b bs :: reader => .bytes b bs :: plain reader
  | .fail e :: reader => .fail e :: plain reader
  | .broken e :: reader => .fail (asInterruption (.conn e)) :: plain reader

omit [Connection W E] in
@[simp] theorem delivered_plain (reader : List (Fill E)) :
    Reader.delivered (plain reader) = delivered reader := by
  induction reader with
  | nil => rfl
  | cons fill reader ih =>
    cases fill with
    | bytes b bs => rw [plain, Reader.delivered, delivered, ih]
    | fail e => rw [plain, Reader.delivered, delivered, ih]
    | broken e => rw [plain, Reader.delivered, delivered, ih]

theorem plain_consume (n : ℕ) (bs : List UInt8) (reader : List (Fill E)) :
    plain (consume n bs reader) = Reader.consume n bs (plain reader) := by
  unfold consume Reader.consume
  cases bs.drop n with
  | nil => rfl
  | cons c cs => rfl

theorem delivered_consume (n : ℕ) (bs : List UInt8) (reader : List (Fill E)) :
    delivered (consume n bs reader) = bs.drop n ++ delivered reader := by
  rw [← delivered_plain, plain_consume, Reader.delivered_consume, delivered_plain]

/-- **`read_until` through time limits** is `read_until` on a reader that delivers the same bytes. -/
theorem readUntil_eq (deadline : Option ℕ) (delim : UInt8) (limit : ℕ) (reader : List (Fill E))
    (w : W) (buf : List UInt8) (count : ℕ) :
    ∃ r buf' reader' w' pieces pieces',
      readUntil deadline delim limit reader w buf count = (r, buf', reader', w') ∧
      Reader.readUntil delim limit pieces buf count = (r.mapError asInterruption, buf', pieces') ∧
      Reader.delivered pieces = delivered reader ∧
      Reader.delivered pieces' = delivered reader' := by
  fun_induction readUntil deadline delim limit reader w buf count with
  | case1 reader w buf count =>
    exact ⟨.ok count, buf, reader, w, plain reader, plain reader, rfl,
      by rw [Reader.readUntil]; rfl, delivered_plain _, delivered_plain _⟩
  | case2 reader w buf count limit e w' htime =>
    exact ⟨.error e, buf, reader, w', .fail (asInterruption e) :: plain reader, plain reader, rfl,
      by rw [Reader.readUntil]; rfl, delivered_plain _, delivered_plain _⟩
  | case3 w buf count limit _ w' htime =>
    exact ⟨.ok count, buf, [], w', [], [], rfl, by rw [Reader.readUntil]; rfl, rfl, rfl⟩
  | case4 w buf count limit _ w' htime e reader =>
    exact ⟨_, buf, reader, w', plain (.fail e :: reader), plain reader, rfl,
      by rw [plain, Reader.readUntil]; rfl, delivered_plain _, delivered_plain _⟩
  | case5 w buf count limit _ w' htime e reader =>
    exact ⟨_, buf, reader, w', plain (.broken e :: reader), plain reader, rfl,
      by rw [plain, Reader.readUntil]; rfl, delivered_plain _, delivered_plain _⟩
  | case6 w buf count limit _ w' htime b bs reader i hidx =>
    refine ⟨_, _, _, w', plain (.bytes b bs :: reader), plain (consume (i + 1) (b :: bs) reader),
      rfl, ?_, delivered_plain _, delivered_plain _⟩
    rw [plain, Reader.readUntil, hidx, plain_consume]
    rfl
  | case7 w buf count limit _ w' htime b bs reader hidx ih =>
    by_cases hlimit : limit + 1 ≤ (b :: bs).length
    · -- the limit is reached inside of the bytes at hand
      have hzero : limit + 1 - ((b :: bs).take (limit + 1)).length = 0 := by
        rw [List.length_take_of_le hlimit, Nat.sub_self]
      refine ⟨_, _, _, w', plain (.bytes b bs :: reader), plain (consume _ (b :: bs) reader),
        by rw [hzero, readUntil], ?_, delivered_plain _, delivered_plain _⟩
      rw [plain, Reader.readUntil, hidx, plain_consume]
      simp only
      rw [hzero, Reader.readUntil]
      rfl
    · obtain ⟨r, buf', reader', w'', pieces, pieces', hread, hpieces, hdel, hdel'⟩ := ih
      have hall : (b :: bs).take (limit + 1) = b :: bs := List.take_of_length_le (by omega)
      refine ⟨r, buf', reader', w'', .bytes b bs :: pieces, pieces', hread, ?_, ?_, hdel'⟩
      · rw [Reader.readUntil, hidx]
        simp only
        rw [← hpieces, hall, Reader.consume, List.drop_length]
      · rw [delivered_consume, hall, List.drop_length, List.nil_append] at hdel
        rw [Reader.delivered, delivered, hdel]

/-- An error as `Message.Reader` has it. -/
def asRead : IoError E → Reader.ReadError
  | .read e => e
  | e => .interrupted (asInterruption e)

section Pass

variable {deadline : Option ℕ} {limit : ℕ}

/-- The errors that a connection can have inside of a message. -/
theorem readUntil_error {delim : UInt8} {reader : List (Fill E)} {w : W} {buf : List UInt8}
    {count : ℕ} {e : IoError E}
    (h : (readUntil deadline delim limit reader w buf count).1 = .error e) :
    (∃ i, e = .read (.interrupted i)) ∨ ∃ e', e = .conn e' := by
  fun_induction readUntil deadline delim limit reader w buf count with
  | case1 reader w buf count => cases h
  | case2 reader w buf count limit e₁ w₁ htime =>
    obtain rfl := Except.error.inj h
    unfold updateTimeout at htime
    split at htime
    · cases htime
    · simp only at htime
      split at htime
      · have htold := congrArg Prod.fst htime
        simp only at htold
        cases hset : (Connection.setReadTimeout (W := W) (some _) _).1 with
        | ok _ => rw [hset] at htold; cases htold
        | error e' =>
          rw [hset] at htold
          exact .inr ⟨e', (Except.error.inj htold).symm⟩
      · exact .inl ⟨.timedOut, (Except.error.inj (Prod.mk.inj htime).1).symm⟩
  | case3 w buf count limit _ w₁ htime => cases h
  | case4 w buf count limit _ w₁ htime e' reader => exact .inl ⟨e', (Except.error.inj h).symm⟩
  | case5 w buf count limit _ w₁ htime e' reader => exact .inr ⟨e', (Except.error.inj h).symm⟩
  | case6 w buf count limit _ w₁ htime b bs reader i hidx => cases h
  | case7 w buf count limit _ w₁ htime b bs reader hidx ih => exact ih h

/-- **A pass through time limits** is a pass of the reader, on the same bytes. -/
theorem readMsg_eq (deadline : Option ℕ) (limit : ℕ) (s : State W E) :
    ∃ pieces pieces', Reader.delivered pieces = delivered s.reader ∧
      ((∃ s', readMsg deadline limit s = .again s' ∧
        Reader.readMsg limit (.ok : List UInt8 → Except ParseError _) ⟨s.buf, pieces⟩ =
          .again ⟨s'.buf, pieces'⟩ ∧ Reader.delivered pieces' = delivered s'.reader) ∨
      ∃ r s', readMsg deadline limit s = .leave (r, s') ∧ r ≠ .error .readTimeout ∧
        Reader.readMsg limit .ok ⟨s.buf, pieces⟩ =
          .leave (r.mapError asRead, ⟨s'.buf, pieces'⟩) ∧
        Reader.delivered pieces' = delivered s'.reader) := by
  have hfinish : ∀ (buf : List UInt8) (pieces : List Reader.Piece) (reader : List (Fill E)) (w : W),
      Reader.delivered pieces = delivered reader →
      (∃ s', decided reader w (Reader.finish .ok buf []) = .again s' ∧
        Reader.finish (.ok : List UInt8 → Except ParseError _) buf pieces =
          .again ⟨s'.buf, pieces⟩ ∧ Reader.delivered pieces = delivered s'.reader) ∨
      ∃ r s', decided reader w (Reader.finish .ok buf []) = .leave (r, s') ∧
        r ≠ .error .readTimeout ∧
        Reader.finish .ok buf pieces = .leave (r.mapError asRead, ⟨s'.buf, pieces⟩) ∧
        Reader.delivered pieces = delivered s'.reader := by
    intro buf pieces reader w hdel
    unfold Reader.finish
    rcases Reader.readBuf false buf.reverse with ⟨_ | e | line, buf'⟩
    · exact .inl ⟨⟨buf', reader, w⟩, rfl, rfl, hdel⟩
    · exact .inr ⟨.error (.read (.parse e)), ⟨buf', reader, w⟩, rfl, by simp, rfl, hdel⟩
    · exact .inr ⟨.ok line, ⟨[], reader, w⟩, rfl, by simp, rfl, hdel⟩
  unfold readMsg Reader.readMsg
  by_cases hlimit : s.buf.length < limit
  · obtain ⟨r, buf', reader', w', pieces, pieces', hread, hpieces, hdel, hdel'⟩ :=
      readUntil_eq deadline (byte '\n') (limit - s.buf.length) s.reader s.writer s.buf 0
    refine ⟨pieces, pieces', hdel, ?_⟩
    simp only [hlimit, if_true, hread, hpieces]
    cases r with
    | error e =>
      refine .inr ⟨.error e, ⟨buf', reader', w'⟩, rfl, ?_, ?_, hdel'⟩
      · rcases readUntil_error (congrArg Prod.fst hread) with ⟨i, rfl⟩ | ⟨e', rfl⟩
        · simp
        · simp
      · rcases readUntil_error (congrArg Prod.fst hread) with ⟨i, rfl⟩ | ⟨e', rfl⟩
        · rfl
        · rfl
    | ok n =>
      cases n with
      | zero => exact .inr ⟨_, ⟨buf', reader', w'⟩, rfl, by simp, rfl, hdel'⟩
      | succ n => exact hfinish buf' pieces' reader' w' hdel'
  · refine ⟨plain s.reader, plain s.reader, delivered_plain _, ?_⟩
    simp only [hlimit, if_false]
    exact hfinish s.buf _ s.reader s.writer (delivered_plain _)

end Pass

/-! ## One call -/

/-- A buffer and a reading half from which these lines are still to be read. -/
def Holds (s : State W E) (lines : List Reader.WireLine) : Prop :=
  s.buf ++ delivered s.reader = lines.flatMap Reader.WireLine.bytes ∧ byte '\n' ∉ s.buf

/-- What a call can come to while `lines` are to be read: `lines'` are to be read then. -/
inductive Hears (lines : List Reader.WireLine) :
    Except (IoError E) (List UInt8) → State W E → List Reader.WireLine → Prop
  /-- A time error, or another one of the connection. -/
  | failed (e : IoError E) (s' : State W E) (lines' : List Reader.WireLine) :
    (∃ i, e = .read (.interrupted i)) ∨ (∃ e', e = .conn e') →
    lines'.filter (!·.isBlank) = lines.filter (!·.isBlank) → Holds s' lines' →
    Hears lines (.error e) s' lines'
  /-- The next line. -/
  | line (l : Reader.WireLine) (s' : State W E) (lines' : List Reader.WireLine) :
    lines.filter (!·.isBlank) = l :: lines'.filter (!·.isBlank) → s'.buf = [] → Holds s' lines' →
    Hears lines (.ok l.content) s' lines'
  /-- The end. -/
  | eof (s' : State W E) : lines.filter (!·.isBlank) = [] → Holds s' [] →
    Hears lines (.error (.read .unexpectedEof)) s' []

section Call

variable {deadline : Option ℕ} {limit : ℕ}

omit [Connection W E] in
theorem holds_iff {s : State W E} {pieces : List Reader.Piece} {lines : List Reader.WireLine}
    (h : Reader.delivered pieces = delivered s.reader) :
    Reader.Holds ⟨s.buf, pieces⟩ lines ↔ Holds s lines := by
  unfold Reader.Holds Holds
  rw [h]

omit [Connection W E] in
/-- An error that is a failure of non-blocking I/O for the reader. -/
theorem failed_of_asRead {r : Except (IoError E) (List UInt8)} {i : Reader.Interruption}
    (hne : r ≠ .error .readTimeout) (h : r.mapError asRead = .error (.interrupted i)) :
    ∃ e, r = .error e ∧ ((∃ i, e = .read (.interrupted i)) ∨ ∃ e', e = .conn e') := by
  cases r with
  | ok line => cases h
  | error e =>
    refine ⟨e, rfl, ?_⟩
    have hread : asRead e = .interrupted i := Except.error.inj h
    cases e with
    | read e => exact .inl ⟨i, congrArg _ hread⟩
    | conn e => exact .inr ⟨e, rfl⟩
    | readTimeout => exact absurd rfl hne

omit [Connection W E] in
theorem eq_of_asRead_eof {r : Except (IoError E) (List UInt8)}
    (h : r.mapError asRead = .error .unexpectedEof) : r = .error (.read .unexpectedEof) := by
  cases r with
  | ok line => cases h
  | error e =>
    have hread : asRead e = .unexpectedEof := Except.error.inj h
    cases e with
    | read e => exact congrArg _ (congrArg _ hread)
    | conn e => cases hread
    | readTimeout => cases hread

omit [Connection W E] in
theorem eq_of_asRead_ok {r : Except (IoError E) (List UInt8)} {line : List UInt8}
    (h : r.mapError asRead = .ok line) : r = .ok line := by
  cases r with
  | ok line' => exact congrArg _ (Except.ok.inj h)
  | error e => cases h

omit [Connection W E] in
/-- A blank line in front makes no difference. -/
theorem Hears.cons_blank {l : Reader.WireLine} {lines lines' : List Reader.WireLine}
    {r : Except (IoError E) (List UInt8)} {s' : State W E} (h : Hears lines r s' lines')
    (hl : l.isBlank = true) : Hears (l :: lines) r s' lines' := by
  have hfilter : (l :: lines).filter (!·.isBlank) = lines.filter (!·.isBlank) := by simp [hl]
  cases h with
  | failed e _ _ he hlines hholds => exact .failed e s' lines' he (hlines.trans hfilter.symm) hholds
  | line l' _ _ hlines hbuf hholds => exact .line l' s' lines' (hfilter.trans hlines) hbuf hholds
  | eof _ hlines hholds => exact .eof s' (hfilter.trans hlines) hholds

/-- The first pass, when no line is to be read any more. -/
theorem readMsg_end (deadline : Option ℕ) (hlimit : 0 < limit) {s : State W E}
    (hs : Holds s []) :
    ∃ r s', readMsg deadline limit s = .leave (r, s') ∧ Hears [] r s' [] := by
  obtain ⟨pieces, pieces', hdel, hpass⟩ := readMsg_eq deadline limit s
  obtain ⟨r', s₁, hread, hanswer⟩ :=
    Reader.readMsg_end (.ok : List UInt8 → Except ParseError _) hlimit ((holds_iff hdel).mpr hs)
  rcases hpass with ⟨s', hmsg, hagain, -⟩ | ⟨r, s', hmsg, hne, hleave, hdel'⟩
  · rw [hread] at hagain
    cases hagain
  · rw [hread] at hleave
    obtain ⟨rfl, rfl⟩ := Prod.mk.inj (Pass.leave.inj hleave)
    refine ⟨r, s', hmsg, ?_⟩
    have hholds : Holds s' [] := (holds_iff hdel').mp hanswer.holds
    generalize hr : r.mapError asRead = r₁ at hanswer
    generalize (⟨s'.buf, pieces'⟩ : Reader.State) = s₁ at hanswer
    cases hanswer with
    | interrupted e =>
      obtain ⟨e, rfl, he⟩ := failed_of_asRead hne hr
      exact .failed e s' [] he rfl hholds
    | line l _ _ hlines => exact absurd hlines (by simp)
    | eof =>
      rw [eq_of_asRead_eof hr]
      exact .eof s' rfl hholds

/-- **What one call does.** -/
theorem read_cases (hlimit : 0 < limit) (lines : List Reader.WireLine) (s : State W E) (fuel : ℕ)
    (hlen : ∀ l ∈ lines, l.bytes.length ≤ limit) (hs : Holds s lines)
    (hfuel : lines.length < fuel) :
    ∃ r s' lines', read deadline limit fuel s = some (r, s') ∧ Hears lines r s' lines' ∧
      lines' <:+ lines := by
  obtain ⟨fuel, rfl⟩ := Nat.exists_eq_succ_of_ne_zero (show fuel ≠ 0 by omega)
  induction lines generalizing s fuel with
  | nil =>
    obtain ⟨r, s', hmsg, hhears⟩ := readMsg_end deadline hlimit hs
    exact ⟨r, s', [], Loop.run_succ_leave hmsg fuel, hhears, List.suffix_refl _⟩
  | cons l lines ih =>
    obtain ⟨pieces, pieces', hdel, hpass⟩ := readMsg_eq deadline limit s
    have hholds := (holds_iff hdel).mpr hs
    rcases Reader.readMsg_line (.ok : List UInt8 → Except ParseError _)
        (hlen l List.mem_cons_self) hholds with
      ⟨e, s₁, hread, -, hholds₁⟩ | ⟨reader', hread, -, hholds₁⟩
    · rcases hpass with ⟨s', hmsg, hagain, -⟩ | ⟨r, s', hmsg, hne, hleave, hdel'⟩
      · rw [hread] at hagain
        cases hagain
      · rw [hread] at hleave
        obtain ⟨hr, rfl⟩ := Prod.mk.inj (Pass.leave.inj hleave)
        obtain ⟨e, rfl, he⟩ := failed_of_asRead hne hr.symm
        exact ⟨_, s', _, Loop.run_succ_leave hmsg fuel,
          .failed e s' _ he rfl ((holds_iff hdel').mp hholds₁), List.suffix_refl _⟩
    · rw [Reader.finish_line] at hread
      by_cases hblank : l.isBlank = true
      · -- a blank line: the loop starts again with an empty buffer
        rw [if_pos hblank] at hread
        rcases hpass with ⟨s', hmsg, hagain, hdel'⟩ | ⟨r, s', hmsg, hne, hleave, hdel'⟩
        · rw [hread] at hagain
          obtain ⟨hbuf, rfl⟩ := Reader.State.mk.inj (Pass.again.inj hagain)
          obtain ⟨fuel, rfl⟩ := Nat.exists_eq_succ_of_ne_zero (show fuel ≠ 0 by
            rw [List.length_cons] at hfuel; omega)
          rw [hbuf] at hholds₁
          obtain ⟨r, s'', lines', hrun, hhears, hsuffix⟩ := ih s'
            (fun l' hl' => hlen l' (List.mem_cons_of_mem _ hl')) ((holds_iff hdel').mp hholds₁) fuel
            (by rw [List.length_cons] at hfuel; omega)
          exact ⟨r, s'', lines', (Loop.run_succ_again hmsg _).trans hrun, hhears.cons_blank hblank,
            hsuffix.trans (List.suffix_cons l lines)⟩
        · rw [hread] at hleave
          cases hleave
      · rw [if_neg hblank] at hread
        rcases hpass with ⟨s', hmsg, hagain, -⟩ | ⟨r, s', hmsg, hne, hleave, hdel'⟩
        · rw [hread] at hagain
          cases hagain
        · rw [hread] at hleave
          obtain ⟨hr, hs'⟩ := Prod.mk.inj (Pass.leave.inj hleave)
          obtain ⟨hbuf, rfl⟩ := Reader.State.mk.inj hs'
          obtain rfl := eq_of_asRead_ok hr.symm
          rw [hbuf] at hholds₁
          refine ⟨_, s', lines, Loop.run_succ_leave hmsg fuel,
            .line l s' lines ?_ hbuf.symm ((holds_iff hdel').mp hholds₁), List.suffix_cons l lines⟩
          simp [hblank]

end Call

end TimeLimitedSync

end Vinezombie
