import Vinezombie.Client.Run

/-!
# What the handlers hear

The server sends lines, which a connection delivers in any pieces, with time errors and failures in
between.  Whatever calls a client makes, its handlers are given the lines that are not blank, parsed,
each once and in order, until a line that is no message (`heard_runs`).  Time errors, the wait for
the queue, errors on sending and whatever the owner does to the logic do not lose a line.

* `readMsg_cases`: what reading a message comes to, when lines are to be read.
* `heard_runs`: the account over all calls.
-/

namespace Vinezombie

open Library

namespace Client

variable {I A L Adj H W E T : Type} [LinearOrder I] [Adjuster Adj ClientMsg] [Connection W E]
  [Handlers.Handler H (ClientState I A × Queue ClientMsg L Adj)]
  [TimeoutFn T (ClientLogic I A L Adj H)] {clockMax parseFuel fuel : ℕ}

/-! ## Lines -/

/-- The lines that a client has still to read. -/
structure Reads (c : Client I A L Adj H W E T) (lines : List Reader.WireLine) : Prop where
  holds : TimeLimitedSync.Holds ⟨c.conn.bufI, c.conn.reader, c.conn.writer⟩ lines
  length_le : ∀ l ∈ lines, l.bytes.length ≤ ServerMsg.maxLen

/-- The lines that are not blank. -/
def nonblank (lines : List Reader.WireLine) : List Reader.WireLine := lines.filter (!·.isBlank)

/-- These are the messages on these lines. -/
def Parses (parseFuel : ℕ) (lines : List Reader.WireLine) (msgs : List ServerMsg) : Prop :=
  (lines.map fun l => ServerMsg.parseBytes parseFuel l.content) = msgs.map fun m => some (.ok m)

theorem Parses.append {lines lines' : List Reader.WireLine} {msgs msgs' : List ServerMsg}
    (h : Parses parseFuel lines msgs) (h' : Parses parseFuel lines' msgs') :
    Parses parseFuel (lines ++ lines') (msgs ++ msgs') := by
  unfold Parses at *
  rw [List.map_append, List.map_append, h, h']

theorem Parses.length_eq {lines : List Reader.WireLine} {msgs : List ServerMsg}
    (h : Parses parseFuel lines msgs) : lines.length = msgs.length := by
  simpa using congrArg List.length h

/-- The messages that came later are those on the lines that came later. -/
theorem Parses.extend {front rest front' rest' : List Reader.WireLine} {msgs msgs' : List ServerMsg}
    (h : Parses parseFuel front msgs) (h' : Parses parseFuel front' (msgs ++ msgs'))
    (hlines : front ++ rest = front' ++ rest') :
    ∃ more, rest = more ++ rest' ∧ Parses parseFuel more msgs' := by
  have hlen : front.length ≤ front'.length := by
    rw [h.length_eq, h'.length_eq, List.length_append]
    exact Nat.le_add_right _ _
  obtain ⟨more, rfl⟩ : front <+: front' :=
    List.prefix_of_prefix_length_le (List.prefix_append front rest)
      (hlines ▸ List.prefix_append front' rest') hlen
  rw [List.append_assoc, List.append_cancel_left_eq] at hlines
  refine ⟨more, hlines, ?_⟩
  unfold Parses at h h' ⊢
  rw [List.map_append, List.map_append, h, List.append_cancel_left_eq] at h'
  exact h'

omit [Adjuster Adj ClientMsg] [Handlers.Handler H (ClientState I A × Queue ClientMsg L Adj)]
  [TimeoutFn T (ClientLogic I A L Adj H)] in
/-- **What reading a message comes to.**  A line that is parsed is out of the way once the buffer is
cleared. -/
theorem readMsg_cases {c c' : Client I A L Adj H W E T} {lines : List Reader.WireLine}
    {deadline : Option ℕ} {r : Except (IoError E) ServerMsg} (hc : c.Reads lines)
    (h : readMsg parseFuel fuel deadline c = some (r, c')) :
    (∃ e lines', r = .error e ∧ ((∃ i, e = .read (.interrupted i)) ∨ ∃ e', e = .conn e') ∧
      nonblank lines' = nonblank lines ∧ c'.Reads lines') ∨
    (r = .error (.read .unexpectedEof) ∧ nonblank lines = [] ∧ c'.Reads []) ∨
    ∃ l lines' parsed, nonblank lines = l :: nonblank lines' ∧
      ServerMsg.parseBytes parseFuel l.content = some parsed ∧
      r = parsed.mapError (fun e => .read (.parse e)) ∧
      Reads { c' with conn := { c'.conn with bufI := [] } } lines' := by
  obtain ⟨r₁, s₁, lines', hread, hhears, hsuffix⟩ :
      ∃ r₁ s₁ lines', TimeLimitedSync.read deadline ServerMsg.maxLen
          (max fuel (lines.length + 1)) ⟨c.conn.bufI, c.conn.reader, c.conn.writer⟩ =
          some (r₁, s₁) ∧
        TimeLimitedSync.Hears lines r₁ s₁ lines' ∧ lines' <:+ lines :=
    TimeLimitedSync.read_cases (by decide) lines _ _ hc.length_le hc.holds
      (lt_of_lt_of_le (Nat.lt_succ_self _) (le_max_right _ _))
  have hlen : ∀ l ∈ lines', l.bytes.length ≤ ServerMsg.maxLen :=
    fun l hl => hc.length_le l (hsuffix.subset hl)
  unfold readMsg at h
  cases hfuel : TimeLimitedSync.read deadline ServerMsg.maxLen fuel
      ⟨c.conn.bufI, c.conn.reader, c.conn.writer⟩ with
  | none =>
    rw [hfuel] at h
    cases h
  | some read =>
    -- more passes than needed change nothing
    obtain rfl : read = (r₁, s₁) := by
      have hmono := Loop.run_mono hfuel (le_max_left fuel (lines.length + 1))
      exact Option.some.inj (hmono.symm.trans hread)
    rw [hfuel] at h
    cases hhears with
    | failed e _ _ he hlines hholds =>
      obtain ⟨rfl, rfl⟩ := Prod.mk.inj (Option.some.inj h)
      exact .inl ⟨e, lines', rfl, he, hlines, hholds, hlen⟩
    | line l _ _ hlines hbuf hholds =>
      obtain ⟨parsed, hparsed, hr⟩ := Option.map_eq_some_iff.mp h
      obtain ⟨rfl, rfl⟩ := Prod.mk.inj hr
      refine .inr (.inr ⟨l, lines', parsed, hlines, hparsed, rfl, ?_, hlen⟩)
      unfold TimeLimitedSync.Holds at hholds ⊢
      rw [hbuf] at hholds
      exact hholds
    | eof _ hlines hholds =>
      obtain ⟨rfl, rfl⟩ := Prod.mk.inj (Option.some.inj h)
      exact .inr (.inl ⟨rfl, hlines, hholds, by simp⟩)

/-! ## Runs -/

/-- The account of a stream of lines: the handlers have heard those in front. -/
def Heard (parseFuel : ℕ) (lines : List Reader.WireLine) (log : RunLog)
    (c : Client I A L Adj H W E T) : Prop :=
  ∃ front lines', nonblank lines = front ++ nonblank lines' ∧
    Parses parseFuel front log.heard ∧ c.Reads lines'

/-- What it says of the log alone. -/
def HeardLines (parseFuel : ℕ) (lines : List Reader.WireLine) (log : RunLog) : Prop :=
  ∃ front rest, nonblank lines = front ++ rest ∧ Parses parseFuel front log.heard

/-- The errors that leave the stream alone. -/
def NotParse (e : IoError E) : Prop := ∀ p, e ≠ .read (.parse p)

omit [Adjuster Adj ClientMsg] [Connection W E]
  [Handlers.Handler H (ClientState I A × Queue ClientMsg L Adj)]
  [TimeoutFn T (ClientLogic I A L Adj H)] in
/-- The connection's other half, the logic and the closure do not matter. -/
theorem Heard.congr {lines : List Reader.WireLine} {log log' : RunLog}
    {c c' : Client I A L Adj H W E T} (h : Heard parseFuel lines log c)
    (hlog : log'.heard = log.heard) (hbuf : c'.conn.bufI = c.conn.bufI)
    (hreader : c'.conn.reader = c.conn.reader) : Heard parseFuel lines log' c' := by
  obtain ⟨front, lines', hlines, hparses, hholds, hlen⟩ := h
  refine ⟨front, lines', hlines, hlog ▸ hparses, ?_, hlen⟩
  unfold TimeLimitedSync.Holds at hholds ⊢
  simp only [hbuf, hreader]
  exact hholds

/-- **The stream of lines is accounted for.** -/
theorem account_heard (lines : List Reader.WireLine) :
    Account clockMax parseFuel fuel
      (Heard parseFuel lines : RunLog → Client I A L Adj H W E T → Prop)
      (HeardLines parseFuel lines) NotParse where
  safe log c h := by
    obtain ⟨front, lines', hlines, hparses, -⟩ := h
    exact ⟨front, nonblank lines', hlines, hparses⟩
  time e he p hp := by
    subst hp
    cases he
  flush log c h := by
    obtain ⟨front, lines', hlines, hparses, -⟩ := id h
    have hheard : ∀ sent, (log.append (.ofSent sent)).heard = log.heard :=
      fun sent => by simp [RunLog.ofSent]
    refine ⟨⟨front, nonblank lines', hlines, (hheard _).symm ▸ hparses⟩, fun r c' hr _ => ?_⟩
    obtain ⟨q, -, hspec⟩ := flushPartial_spec clockMax c
    rw [(hspec r c' hr).1]
    exact h.congr (hheard _) rfl rfl
  sleep log c wait h := h.congr rfl rfl rfl
  limits log c waitFor h := h.congr rfl rfl rfl
  failed log c deadline e c' h hread hfine := by
    obtain ⟨front, lines', hlines, hparses, hreads⟩ := h
    rcases readMsg_cases hreads hread with ⟨e', lines'', he, -, hsame, hreads'⟩ |
      ⟨-, hnil, hreads'⟩ | ⟨l, lines'', parsed, -, -, hr, -⟩
    · exact ⟨front, lines'', hsame ▸ hlines, hparses, hreads'⟩
    · exact ⟨front, [], by rw [hlines, hnil]; rfl, hparses, hreads'⟩
    · cases parsed with
      | ok msg => cases hr
      | error p => exact absurd (Except.error.inj hr) (hfine p)
  timeoutFn log c f h _ := h.congr rfl rfl rfl
  heard log c deadline msg c' h hread := by
    obtain ⟨front, lines', hlines, hparses, hreads⟩ := h
    rcases readMsg_cases hreads hread with ⟨e', lines'', he, -, -, -⟩ | ⟨he, -, -⟩ |
      ⟨l, lines'', parsed, hcons, hparsed, hr, hreads'⟩
    · cases he
    · cases he
    · cases parsed with
      | error p => cases hr
      | ok msg' =>
        obtain rfl := Except.ok.inj hr
        have hline : Parses parseFuel [l] [msg] := by simp [Parses, hparsed]
        refine ⟨front ++ [l], lines'', ?_, hparses.append hline, ?_⟩
        · rw [hlines, hcons, List.append_assoc]
          rfl
        · exact ⟨hreads'.holds, hreads'.length_le⟩

/-- **What the handlers hear**, over any calls: the messages on the first lines that are not blank.
A `run` after them that comes to the end of the stream has given them all of the others, and one that
fails to parse has come to the first line that is no message. -/
theorem heard_runs {c : Client I A L Adj H W E T} {lines : List Reader.WireLine}
    (hc : c.Reads lines) (calls : List (Call I A L Adj H T))
    (hfine : ∀ a ∈ (runs clockMax parseFuel fuel c calls).2.1, a.Fine NotParse) :
    ∃ front rest, nonblank lines = front ++ rest ∧
      Parses parseFuel front (runs clockMax parseFuel fuel c calls).1.heard ∧
      ∀ c' passes log r c'', (runs clockMax parseFuel fuel c calls).2.2 = some c' →
        run clockMax parseFuel fuel passes c' = (log, some (.returned r c'')) →
        (r = .error (.read .unexpectedEof) → Parses parseFuel rest log.heard) ∧
        ∀ p, r = .error (.read (.parse p)) → ∃ more l rest', rest = more ++ l :: rest' ∧
          Parses parseFuel more log.heard ∧
          ServerMsg.parseBytes parseFuel l.content = some (.error p) := by
  have h : Account clockMax parseFuel fuel
      (Heard parseFuel lines : RunLog → Client I A L Adj H W E T → Prop)
      (HeardLines parseFuel lines) NotParse := account_heard lines
  have hstart : Heard parseFuel lines .empty c := ⟨[], lines, rfl, rfl, hc⟩
  obtain ⟨⟨front, rest, hlines, hparses⟩, hinv⟩ := h.runs calls
    (fun f _ log c hc => hc.congr rfl rfl rfl) (fun f _ log c hc => hc.congr rfl rfl rfl) hstart
    hfine
  rw [RunLog.empty_append] at hparses hinv
  refine ⟨front, rest, hlines, hparses, fun c' passes log r c'' hc' hrun => ?_⟩
  have hkept := h.run passes (hinv c' hc')
  rw [hrun] at hkept
  refine ⟨fun hr => ?_, fun p hr => ?_⟩
  · obtain ⟨c₁, deadline, ⟨front', lines', hlines', hparses', hreads⟩, hread⟩ := hkept.read _ hr
    rcases readMsg_cases hreads hread with ⟨e, lines'', he, htime, -⟩ | ⟨-, hnil, -⟩ |
      ⟨l, lines'', parsed, -, -, he, -⟩
    · obtain rfl := Except.error.inj he
      rcases htime with ⟨i, hi⟩ | ⟨e', he'⟩
      · cases hi
      · cases he'
    · rw [hnil] at hlines'
      obtain ⟨more, hmore, hmsgs⟩ := hparses.extend hparses' (hlines ▸ hlines')
      rw [List.append_nil] at hmore
      exact hmore ▸ hmsgs
    · cases parsed <;> cases he
  · obtain ⟨c₁, deadline, ⟨front', lines', hlines', hparses', hreads⟩, hread⟩ := hkept.read _ hr
    rcases readMsg_cases hreads hread with ⟨e, lines'', he, htime, -⟩ | ⟨he, -, -⟩ |
      ⟨l, lines'', parsed, hcons, hparsed, he, -⟩
    · obtain rfl := Except.error.inj he
      rcases htime with ⟨i, hi⟩ | ⟨e', he'⟩
      · cases hi
      · cases he'
    · cases he
    · cases parsed with
      | ok msg => cases he
      | error p' =>
        obtain rfl : p = p' := by simpa [Except.mapError] using he
        rw [hcons] at hlines'
        obtain ⟨more, hmore, hmsgs⟩ := hparses.extend hparses' (hlines ▸ hlines')
        exact ⟨more, l, nonblank lines'', hmore, hmsgs, hparsed⟩

/-- What the server sends to `pinged`. -/
def pingLine : Reader.WireLine := ⟨text "PING :a", 1, by decide +kernel⟩

theorem heard_runs_pinged : ∃ front rest, nonblank [pingLine] = front ++ rest ∧
    Parses 100 front (runs (10 ^ 30) 100 100 pinged [.run 5]).1.heard := by
  have hreads : Reads pinged [pingLine] := ⟨⟨by decide +kernel, by decide +kernel⟩, by decide +kernel⟩
  obtain ⟨front, rest, hlines, hparses, -⟩ := heard_runs hreads [.run 5] fun a ha => by
    rw [pinged_answers] at ha
    rw [List.mem_singleton.mp ha]
    rintro e ⟨rfl⟩ p
    simp
  exact ⟨front, rest, hlines, hparses⟩

end Client

end Vinezombie
