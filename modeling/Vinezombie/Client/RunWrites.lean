import Vinezombie.Client.Run
import Vinezombie.Message.TokioCodec

/-!
# What a client writes

As long as the connection does not fail, what has been written are the messages that were taken out
of the queue, each as one line, in order, whatever else happens in between; and a server that reads
the lines has the messages.

* `Writes`: what is relied on of a connection.
* `written_runs`: what has been written after any calls.
* `server_reads`: what the reader of a server makes of it.
-/

namespace Vinezombie

open Library

namespace Client

/-- `written` is what has been written to a connection: `write_all` adds to it what it is given, and
nothing else does. -/
structure Writes {W E : Type} [Connection W E] (written : W → List UInt8) : Prop where
  writeAll : ∀ bytes w w',
    Connection.writeAll bytes w = (.ok (), w') → written w' = written w ++ bytes
  flush : ∀ w, written (Connection.flush w).2 = written w
  setReadTimeout : ∀ timeout w, written (Connection.setReadTimeout timeout w).2 = written w
  setWriteTimeout : ∀ timeout w, written (Connection.setWriteTimeout timeout w).2 = written w
  now : ∀ w : W, written (Connection.now w).2 = written w
  sleep : ∀ duration (w : W), written (Connection.sleep duration w) = written w

variable {I A L Adj H W E T : Type} [LinearOrder I] [Connection W E] {clockMax : ℕ}
  {written : W → List UInt8}

theorem Writes.undisturbed (h : Writes written) (bytes : List UInt8) :
    TimeLimitedSync.Undisturbed fun w : W => written w = bytes where
  now w hw := (h.now w).trans hw
  setReadTimeout timeout w hw := (h.setReadTimeout timeout w).trans hw
  setWriteTimeout timeout w hw := (h.setWriteTimeout timeout w).trans hw

/-! ## Flushing -/

/-- The bytes of messages on the wire. -/
def wire (sent : List (Queue.Taken ClientMsg)) : List UInt8 := sent.flatMap fun p => p.msg.wire

theorem wire_append (sent sent' : List (Queue.Taken ClientMsg)) :
    wire (sent ++ sent') = wire sent ++ wire sent' :=
  List.flatMap_append

omit [LinearOrder I] in
theorem written_popLoop (hw : Writes written) {w w' : W} {q q' : Queue ClientMsg L Adj}
    {bufO bufO' : List UInt8} {timeout : Option ℕ}
    (h : (popLoop clockMax w q bufO).2 = some (timeout, w', q', bufO')) :
    written w' = written w := by
  fun_induction popLoop clockMax w q bufO with
  | case1 w q bufO hpop => cases h
  | case2 w q bufO q₁ hpop =>
    obtain ⟨-, rfl, -⟩ : none = timeout ∧ w = w' ∧ q₁ = q' ∧ bufO = bufO' := by simpa using h
    rfl
  | case3 w q bufO wait q₁ hpop =>
    obtain ⟨-, rfl, -⟩ : some wait = timeout ∧ (Connection.now w).2 = w' ∧ q₁ = q' ∧
        bufO = bufO' := by
      simpa using h
    exact hw.now w
  | case4 w q bufO popped q₁ hpop sent r hr ih =>
    rw [hr] at ih
    rw [ih h, hw.now, hw.now]

/-- **What a flush writes**, if it does not fail. -/
theorem written_flushPartial (hw : Writes written) {c c' : Client I A L Adj H W E T}
    {timeout : Option ℕ} (hbuf : c.conn.bufO = [])
    (h : (flushPartial clockMax c).2 = some (.ok timeout, c')) :
    written c'.conn.writer = written c.conn.writer ++ wire (flushPartial clockMax c).1 ∧
      c'.conn.bufO = [] := by
  unfold flushPartial at h ⊢
  split at h
  · rename_i hempty
    obtain ⟨-, rfl⟩ := Prod.mk.inj (Option.some.inj h)
    rw [if_pos hempty]
    exact ⟨(List.append_nil _).symm, hbuf⟩
  · rename_i hempty
    rw [if_neg hempty]
    obtain ⟨q₁, -, hspec⟩ := popLoop_spec clockMax c.conn.writer c.logic.queue c.conn.bufO
    rcases hp : popLoop clockMax c.conn.writer c.logic.queue c.conn.bufO with
      ⟨sent, _ | ⟨timeout', w, q, bufO⟩⟩
    · rw [hp] at h
      cases h
    · have hsame := written_popLoop hw (congrArg Prod.snd hp)
      rw [hp] at h hspec
      obtain ⟨-, hbufO, -⟩ := hspec timeout' w q bufO rfl
      simp only at h ⊢
      rcases hwrite : Connection.writeAll bufO w with ⟨_ | _, w₁⟩
      · rw [hwrite] at h
        cases h
      · rcases hflush : Connection.flush w₁ with ⟨_ | _, w₂⟩
        · simp only [hwrite, hflush] at h
          cases h
        · simp only [hwrite, hflush] at h ⊢
          obtain ⟨-, rfl⟩ := Prod.mk.inj (Option.some.inj h)
          have hw₂ := hw.flush w₁
          rw [hflush] at hw₂
          rw [hbuf, List.nil_append] at hbufO
          refine ⟨?_, rfl⟩
          rw [hw₂, hw.writeAll bufO w w₁ hwrite, hsame, hbufO]
          rfl

/-! ## Runs -/

section Runs

variable [Adjuster Adj ClientMsg] [Handlers.Handler H (ClientState I A × Queue ClientMsg L Adj)]
  [TimeoutFn T (ClientLogic I A L Adj H)] {parseFuel fuel : ℕ}

/-- The account of what is written: the buffer is empty, and what was taken out of the queue is on
its way. -/
def Written (written : W → List UInt8) (before : List UInt8) (log : RunLog)
    (c : Client I A L Adj H W E T) : Prop :=
  written c.conn.writer = before ++ wire log.sent ∧ c.conn.bufO = []

/-- The errors that leave the connection alone. -/
def NotConn (e : IoError E) : Prop := ∀ e', e ≠ .conn e'

/-- **What is written is accounted for.** -/
theorem account_written (hw : Writes written) (before : List UInt8) :
    Account clockMax parseFuel fuel
      (Written written before : RunLog → Client I A L Adj H W E T → Prop) (fun _ => True)
      NotConn where
  safe _ _ _ := trivial
  time e he e' he' := by
    subst he'
    cases he
  flush log c h := by
    refine ⟨trivial, fun r c' hr hfine => ?_⟩
    cases r with
    | error e =>
      obtain ⟨e', rfl⟩ := flushPartial_error clockMax hr
      exact absurd rfl (hfine _ rfl e')
    | ok timeout =>
      obtain ⟨hsent, hbuf⟩ := written_flushPartial hw h.2 hr
      refine ⟨?_, hbuf⟩
      rw [hsent, h.1, RunLog.sent_append, wire_append, List.append_assoc]
      rfl
  sleep log c wait h := ⟨(hw.sleep wait c.conn.writer).trans h.1, h.2⟩
  limits log c waitFor h := ⟨(hw.undisturbed _).new h.1 clockMax waitFor c.logic.timeout, h.2⟩
  failed log c deadline e c' h hread _ :=
    ⟨readMsg_writer (hw.undisturbed _) h.1 hread, (readMsg_logic hread).2.2.trans h.2⟩
  timeoutFn log c f h _ := h
  heard log c deadline msg c' h hread := by
    have hsent : (log.append ⟨[msg], [(c'.logic.runOnce msg).2.handlers.lastRunResults
        (c'.logic.runOnce msg).1], []⟩).sent = log.sent := by simp
    have hwriter := readMsg_writer (hw.undisturbed _) h.1 hread
    refine ⟨?_, (readMsg_logic hread).2.2.trans h.2⟩
    rw [hsent]
    exact hwriter

/-- **What is written** by a client that nothing was to be written of, over any calls: the messages
that were taken out of its queue, in order. -/
theorem written_runs (hw : Writes written) {c : Client I A L Adj H W E T}
    (hbuf : c.conn.bufO = []) (calls : List (Call I A L Adj H T))
    (hfine : ∀ a ∈ (runs clockMax parseFuel fuel c calls).2.1, a.Fine NotConn)
    {c' : Client I A L Adj H W E T}
    (hc' : (runs clockMax parseFuel fuel c calls).2.2 = some c') :
    written c'.conn.writer =
      written c.conn.writer ++ wire (runs clockMax parseFuel fuel c calls).1.sent := by
  have h : Account clockMax parseFuel fuel
      (Written written (written c.conn.writer) : RunLog → Client I A L Adj H W E T → Prop)
      (fun _ => True) NotConn := account_written hw _
  have hstart : Written written (written c.conn.writer) .empty c := ⟨(List.append_nil _).symm, hbuf⟩
  have hinv := (h.runs calls (fun f _ log c hc => hc) (fun f _ log c hc => hc) hstart hfine).2 c' hc'
  rw [RunLog.empty_append] at hinv
  exact hinv.1

theorem writes_memory : Writes MemoryConn.written where
  writeAll bytes w w' h := by
    rw [← (Prod.mk.inj h).2]
  flush _ := rfl
  setReadTimeout _ _ := rfl
  setWriteTimeout _ _ := rfl
  now _ := rfl
  sleep _ _ := rfl

theorem fine_pinged : ∀ a ∈ (runs (10 ^ 30) 100 100 pinged [.run 5]).2.1, a.Fine NotConn := by
  intro a ha
  rw [pinged_answers] at ha
  rw [List.mem_singleton.mp ha]
  rintro e ⟨rfl⟩ e'
  simp

theorem written_runs_pinged : wire (runs (10 ^ 30) 100 100 pinged [.run 5]).1.sent =
    text "NAMES\r\nPONG a\r\n" := by
  obtain ⟨c', hc', hwritten⟩ := Option.map_eq_some_iff.mp pinged_written
  have hsent := written_runs writes_memory (c := pinged) rfl [.run 5] fine_pinged hc'
  rw [hwritten] at hsent
  exact hsent.symm

/-! ## The server -/

/-- A message as a line. -/
def wireLine (msg : ClientMsg) : Reader.WireLine where
  content := msg.writeTo
  crs := 1
  valid _ hb := msg.toLine.ne_of_mem hb

theorem bytes_wireLine (msg : ClientMsg) : (wireLine msg).bytes = msg.wire := by
  simp only [Reader.WireLine.bytes, Reader.WireLine.body, wireLine, ClientMsg.wire,
    List.append_assoc]
  rfl

theorem flatMap_wireLine (sent : List (Queue.Taken ClientMsg)) :
    (sent.map fun p => wireLine p.msg).flatMap Reader.WireLine.bytes = wire sent := by
  rw [List.flatMap_map]
  exact List.flatMap_congr fun p _ => bytes_wireLine p.msg

theorem isBlank_wireLine (msg : ClientMsg) : (wireLine msg).isBlank = false := by
  have hne : msg.writeTo ≠ [] := msg.plain_toLine.ne_nil
  simp [Reader.WireLine.isBlank, wireLine, hne]

/-- The lines of messages, as a reader is expected to return them. -/
theorem expected_wireLine (sent : List (Queue.Taken ClientMsg)) :
    Reader.expected (.ok : List UInt8 → Except ParseError (List UInt8))
        (sent.map fun p => wireLine p.msg) =
      sent.map fun p => .ok p.msg.writeTo := by
  unfold Reader.expected
  rw [List.filter_eq_self.mpr, List.map_map]
  · rfl
  · intro l hl
    obtain ⟨p, -, rfl⟩ := List.mem_map.mp hl
    rw [isBlank_wireLine]
    rfl

/-- **What a server reads.**  What a client has written, over any calls, may reach the blocking
reader of a server in any pieces and with any failures.  If no message is too long for it, any number
of reads returns the first of the lines of the messages that were taken out of the queue, and from
some number on all of them; and the parser finds in each line the command of the message, and its
tags and arguments as far as their text holds them. -/
theorem server_reads (hw : Writes written) {c : Client I A L Adj H W E T}
    (hbuf : c.conn.bufO = []) (hnone : written c.conn.writer = [])
    (calls : List (Call I A L Adj H T))
    (hfine : ∀ a ∈ (runs clockMax parseFuel fuel c calls).2.1, a.Fine NotConn)
    {c' : Client I A L Adj H W E T}
    (hc' : (runs clockMax parseFuel fuel c calls).2.2 = some c')
    (hlen : ∀ p ∈ (runs clockMax parseFuel fuel c calls).1.sent,
      p.msg.wire.length ≤ ClientMsg.maxLen)
    (reader : List Reader.Piece) (hreader : Reader.delivered reader = written c'.conn.writer) :
    (∃ fuel', ∀ n, ∃ answers s,
      Reader.calls (Reader.read ClientMsg.maxLen .ok fuel') n ⟨[], reader⟩ = some (answers, s) ∧
      answers.filterMap Reader.parsed <+:
        (runs clockMax parseFuel fuel c calls).1.sent.map (fun p => .ok p.msg.writeTo) ∧
      (Reader.failures reader + (runs clockMax parseFuel fuel c calls).1.sent.length < n →
        answers.filterMap Reader.parsed =
          (runs clockMax parseFuel fuel c calls).1.sent.map fun p => .ok p.msg.writeTo)) ∧
    ∀ p ∈ (runs clockMax parseFuel fuel c calls).1.sent, ∃ fuel' m,
      ClientMsg.parse fuel' p.msg.toLine = some (.ok m) ∧ m.cmd = p.msg.cmd ∧
        Codec.TagsRead fuel' p.msg.tags m.tags ∧ m.args = Args.parse p.msg.args.asLine := by
  have hwritten := written_runs hw hbuf calls hfine hc'
  generalize (runs clockMax parseFuel fuel c calls).1.sent = sent at hlen hwritten ⊢
  refine ⟨⟨sent.length + 1, fun n => ?_⟩, fun p _ => p.msg.parse_toLine⟩
  rw [hnone, List.nil_append, ← flatMap_wireLine] at hwritten
  obtain ⟨answers, s, lines', hcalls, -, hexp, -, hend⟩ := Reader.calls_cases
    (.ok : List UInt8 → Except ParseError (List UInt8)) (show 0 < ClientMsg.maxLen by decide) n
    (sent.map fun p => wireLine p.msg) ⟨[], reader⟩ (sent.length + 1)
    (fun l hl => by
      obtain ⟨p, hp, rfl⟩ := List.mem_map.mp hl
      rw [bytes_wireLine]
      exact hlen p hp)
    ⟨by rw [List.nil_append, hreader, hwritten], by simp⟩
    (by rw [List.length_map]; exact Nat.lt_succ_self _)
  rw [expected_wireLine] at hexp
  refine ⟨answers, s, hcalls, ⟨_, hexp.symm⟩, fun hn => ?_⟩
  have hremaining : Reader.remaining ⟨[], reader⟩ (sent.map fun p => wireLine p.msg) < n := by
    have hle := List.length_filter_le (!·.isBlank) (sent.map fun p => wireLine p.msg)
    rw [List.length_map] at hle
    exact lt_of_le_of_lt (Nat.add_le_add_left hle _) hn
  obtain ⟨-, rfl⟩ := hend (.inl hremaining)
  rw [hexp]
  exact (List.append_nil _).symm

end Runs

theorem server_reads_pinged : ∃ fuel', ∀ n, ∃ answers s,
    Reader.calls (Reader.read ClientMsg.maxLen .ok fuel') n
      ⟨[], [.bytes (byte 'N') (text "AMES\r\nPONG a\r\n")]⟩ = some (answers, s) ∧
    answers.filterMap Reader.parsed <+:
      (runs (10 ^ 30) 100 100 pinged [.run 5]).1.sent.map fun p => .ok p.msg.writeTo := by
  obtain ⟨c', hc', hwritten⟩ := Option.map_eq_some_iff.mp pinged_written
  obtain ⟨⟨fuel', hreads⟩, -⟩ := server_reads writes_memory (c := pinged) rfl rfl [.run 5]
    fine_pinged hc' (by decide +kernel) [.bytes (byte 'N') (text "AMES\r\nPONG a\r\n")]
    (hwritten ▸ rfl)
  refine ⟨fuel', fun n => ?_⟩
  obtain ⟨answers, s, hcalls, hprefix, -⟩ := hreads n
  exact ⟨answers, s, hcalls, hprefix⟩

end Client

end Vinezombie
