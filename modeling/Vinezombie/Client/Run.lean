import Vinezombie.Client.Connection
import Vinezombie.Client.QueueRuns
import Vinezombie.Client.Replies

/-!
# The run loop

`Client` of `client.rs`, with `flush_partial` and `run` of `client/conn/sync.rs`.  `run` reads
messages and gives them to the handlers until one of them yields or finishes; in front of every read
it sends what the queue lets through.  `run_tokio` and `flush_partial_tokio` take the same steps.

What a call does on the way is recorded beside its result: the messages that the handlers were given,
what they yielded and finished, and the messages that were taken out of the queue.

* `Client.pass`, `Client.run`: a pass of the loop, and a call.
* `Client.Call`, `Client.runs`: what the owner of a client does with it, call by call.
* `Client.Account`: an account of the logs, kept by flushes, reads and messages, is kept by all
  calls (`Account.runs`).
-/

namespace Vinezombie

open Library

/-- `MsgIo`, with the connection in two halves. -/
structure MsgIo (W E : Type) where
  reader : List (Fill E)
  writer : W
  bufI : List UInt8
  bufO : List UInt8

/-- The closure of `set_timeout_fn`, which may keep a state: whether to continue. -/
class TimeoutFn (T Logic : Type) where
  call : T → Logic → Bool × T × Logic

/-- No closure. -/
instance {Logic : Type} : TimeoutFn Empty Logic where
  call f := f.elim

/-- `Client`. -/
structure Client (I A L Adj H W E T : Type) [LinearOrder I] where
  conn : MsgIo W E
  logic : ClientLogic I A L Adj H
  onTimeout : Option T

/-- How a call of `run` ends. -/
inductive Ended (E C : Type) where
  | panicked
  | returned (r : Except (IoError E) (Option (List ℕ × List ℕ))) (c : C)

/-- What happens in a call. -/
structure RunLog where
  heard : List ServerMsg
  /-- The ids of the handlers that yielded and finished, for each message that was heard. -/
  results : List (List ℕ × List ℕ)
  sent : List (Queue.Taken ClientMsg)

namespace RunLog

/-- Nothing has happened. -/
def empty : RunLog := ⟨[], [], []⟩

/-- Nothing but messages that were taken out of the queue. -/
def ofSent (sent : List (Queue.Taken ClientMsg)) : RunLog := ⟨[], [], sent⟩

/-- One after the other. -/
def append (l l' : RunLog) : RunLog :=
  ⟨l.heard ++ l'.heard, l.results ++ l'.results, l.sent ++ l'.sent⟩

@[simp] theorem heard_append (l l' : RunLog) : (l.append l').heard = l.heard ++ l'.heard := rfl

@[simp] theorem results_append (l l' : RunLog) :
    (l.append l').results = l.results ++ l'.results := rfl

@[simp] theorem sent_append (l l' : RunLog) : (l.append l').sent = l.sent ++ l'.sent := rfl

@[simp] theorem append_empty (l : RunLog) : l.append .empty = l := by simp [append, empty]

@[simp] theorem empty_append (l : RunLog) : RunLog.empty.append l = l := by simp [append, empty]

theorem append_assoc (l₁ l₂ l₃ : RunLog) :
    (l₁.append l₂).append l₃ = l₁.append (l₂.append l₃) := by
  simp [append]

end RunLog

namespace Queue

variable {M L A : Type} {clockMax now later : ℕ} {q q' : Queue M L A}

/-- A pop that finds nothing. -/
theorem of_pop_none (h : q.pop clockMax now later = some (.timeout none, q')) :
    q' = q ∧ q.queue = [] := by
  rcases pop_cases clockMax now later q with ⟨hnil, hp⟩ | ⟨-, -, hp⟩ | ⟨v, rest, -, -, -, hp⟩ |
    ⟨-, -, -, hp⟩
  · exact ⟨(Prod.mk.inj (Option.some.inj (h.symm.trans hp))).2, hnil⟩
  · cases h.symm.trans hp
  · cases h.symm.trans hp
  · cases h.symm.trans hp

/-- A pop that returns a message. -/
theorem of_pop_msg {m : M} (h : q.pop clockMax now later = some (.msg m, q')) :
    q.queue = m :: q'.queue := by
  rcases pop_cases clockMax now later q with ⟨-, hp⟩ | ⟨-, -, hp⟩ | ⟨v, rest, hq, -, -, hp⟩ |
    ⟨-, -, -, hp⟩
  · cases h.symm.trans hp
  · cases h.symm.trans hp
  · obtain ⟨hm, rfl⟩ := Prod.mk.inj (Option.some.inj (h.symm.trans hp))
    rw [hq, Popped.msg.inj hm]
  · cases h.symm.trans hp

/-- Pops one after another that return messages. -/
inductive Pops (clockMax : ℕ) : Queue M L A → List (Taken M) → Queue M L A → Prop
  | nil (q : Queue M L A) : Pops clockMax q [] q
  | cons {now later : ℕ} {m : M} {q q₁ q' : Queue M L A} {sent : List (Taken M)} :
    q.pop clockMax now later = some (.msg m, q₁) → Pops clockMax q₁ sent q' →
    Pops clockMax q (⟨m, now, later⟩ :: sent) q'

/-- **They take the messages in front**, in order. -/
theorem Pops.queue_eq {sent : List (Taken M)} (h : Pops clockMax q sent q') :
    q.queue = sent.map Taken.msg ++ q'.queue := by
  induction h with
  | nil q => rfl
  | cons hpop _ ih => rw [of_pop_msg hpop, ih, List.map_cons, List.cons_append]

/-- They are a run of the queue. -/
theorem Pops.run [Labeler L] [Labeled M] [Adjuster A M] {sent : List (Taken M)}
    (h : Pops clockMax q sent q') :
    Queue.run clockMax q (sent.map fun p => .pop p.now p.later) = some ⟨q', sent, []⟩ := by
  induction h with
  | nil q => rfl
  | cons hpop _ ih =>
    rw [List.map_cons, Queue.run, Queue.step, hpop, Option.map_some, Option.bind_some]
    rw [ih]
    rfl

end Queue

/-- A message on the wire, as `flush_partial` puts it into its buffer. -/
def ClientMsg.wire (msg : ClientMsg) : List UInt8 := msg.writeTo ++ text "\r\n"

namespace Client

variable {I A L Adj H W E T : Type} [LinearOrder I] [Adjuster Adj ClientMsg] [Connection W E]
  (clockMax : ℕ)

/-! ## Flushing -/

/-- The loop of `flush_partial`: what is taken out of the queue, and, unless `pop` panics, the
argument of the last `timeout_fn`, the connection, the queue and the buffer. -/
def popLoop (w : W) (q : Queue ClientMsg L Adj) (bufO : List UInt8) :
    List (Queue.Taken ClientMsg) × Option (Option ℕ × W × Queue ClientMsg L Adj × List UInt8) :=
  match _h : q.pop clockMax (Connection.now w).1 (Connection.now (Connection.now w).2).1 with
  | none => ([], none)
  | some (.timeout none, q) => ([], some (none, w, q, bufO))
  | some (.timeout (some wait), q) => ([], some (some wait, (Connection.now w).2, q, bufO))
  | some (.msg popped, q) =>
    let (sent, r) := popLoop (Connection.now (Connection.now w).2).2 q (bufO ++ popped.wire)
    (⟨popped, (Connection.now w).1, (Connection.now (Connection.now w).2).1⟩ :: sent, r)
termination_by q.queue.length
decreasing_by
  rw [Queue.of_pop_msg _h, List.length_cons]
  exact Nat.lt_succ_self _

/-- `flush_partial`: what is taken out of the queue, and the result unless `pop` panics. -/
def flushPartial (c : Client I A L Adj H W E T) :
    List (Queue.Taken ClientMsg) ×
      Option (Except (IoError E) (Option ℕ) × Client I A L Adj H W E T) :=
  if c.logic.queue.isEmpty then ([], some (.ok none, c))
  else
    match popLoop clockMax c.conn.writer c.logic.queue c.conn.bufO with
    | (sent, none) => (sent, none)
    | (sent, some (timeout, w, queue, bufO)) =>
      let c := { c with logic := { c.logic with queue := queue } }
      match Connection.writeAll bufO w with
      | (.error e, w) =>
        (sent, some (.error (.conn e), { c with conn := { c.conn with writer := w, bufO := [] } }))
      | (.ok _, w) =>
        match Connection.flush w with
        | (.error e, w) =>
          (sent,
            some (.error (.conn e), { c with conn := { c.conn with writer := w, bufO := [] } }))
        | (.ok _, w) =>
          (sent, some (.ok timeout, { c with conn := { c.conn with writer := w, bufO := [] } }))

omit [LinearOrder I] [Adjuster Adj ClientMsg] in
/-- **What the loop takes out of the queue**, puts into the buffer and tells of the wait. -/
theorem popLoop_spec (w : W) (q : Queue ClientMsg L Adj) (bufO : List UInt8) :
    ∃ q₁, Queue.Pops clockMax q (popLoop clockMax w q bufO).1 q₁ ∧
      ∀ timeout w' q' bufO', (popLoop clockMax w q bufO).2 = some (timeout, w', q', bufO') →
        q' = q₁ ∧
        bufO' = bufO ++ (popLoop clockMax w q bufO).1.flatMap (fun p => p.msg.wire) ∧
        (timeout = none → q'.queue = []) := by
  fun_induction popLoop clockMax w q bufO with
  | case1 w q bufO hpop => exact ⟨q, .nil q, fun _ _ _ _ h => by cases h⟩
  | case2 w q bufO q₁ hpop =>
    obtain ⟨rfl, hnil⟩ := Queue.of_pop_none hpop
    refine ⟨q₁, .nil q₁, fun timeout w' q' bufO' h => ?_⟩
    obtain ⟨rfl, -, rfl, rfl⟩ : none = timeout ∧ w = w' ∧ q₁ = q' ∧ bufO = bufO' := by
      simpa using h
    exact ⟨rfl, by simp, fun _ => hnil⟩
  | case3 w q bufO wait q₁ hpop =>
    obtain ⟨rfl, -⟩ := Queue.of_pop_refused hpop
    refine ⟨q₁, .nil q₁, fun timeout w' q' bufO' h => ?_⟩
    obtain ⟨rfl, -, rfl, rfl⟩ : some wait = timeout ∧ (Connection.now w).2 = w' ∧ q₁ = q' ∧
        bufO = bufO' := by
      simpa using h
    exact ⟨rfl, by simp, by simp⟩
  | case4 w q bufO popped q₁ hpop sent r hr ih =>
    rw [hr] at ih
    obtain ⟨q₂, hpops, hspec⟩ := ih
    refine ⟨q₂, .cons hpop hpops, fun timeout w' q' bufO' h => ?_⟩
    obtain ⟨hq', hbuf, hnone⟩ := hspec timeout w' q' bufO' h
    exact ⟨hq', by rw [hbuf, List.flatMap_cons, List.append_assoc], hnone⟩

omit [Adjuster Adj ClientMsg] in
/-- **What a flush takes out of the queue** and leaves of the client. -/
theorem flushPartial_spec (c : Client I A L Adj H W E T) :
    ∃ q₁, Queue.Pops clockMax c.logic.queue (flushPartial clockMax c).1 q₁ ∧
      ∀ r c', (flushPartial clockMax c).2 = some (r, c') →
        c' = { c with
          conn := { c.conn with writer := c'.conn.writer, bufO := c'.conn.bufO }
          logic := { c.logic with queue := q₁ } } ∧
        (r = .ok none → q₁.queue = []) := by
  unfold flushPartial
  split
  · rename_i hempty
    refine ⟨c.logic.queue, .nil _, fun r c' h => ?_⟩
    obtain ⟨-, rfl⟩ := Prod.mk.inj (Option.some.inj h)
    exact ⟨rfl, fun _ => List.isEmpty_iff.mp hempty⟩
  · obtain ⟨q₁, hpops, hspec⟩ :=
      popLoop_spec clockMax c.conn.writer c.logic.queue c.conn.bufO
    rcases hloop : popLoop clockMax c.conn.writer c.logic.queue c.conn.bufO with
      ⟨sent, _ | ⟨timeout, w, q, bufO⟩⟩
    · rw [hloop] at hpops
      exact ⟨q₁, hpops, fun r c' h => by cases h⟩
    · rw [hloop] at hpops hspec
      obtain ⟨rfl, -, hnone⟩ := hspec timeout w q bufO rfl
      simp only
      split
      · refine ⟨q, hpops, fun r c' h => ?_⟩
        obtain ⟨rfl, rfl⟩ := Prod.mk.inj (Option.some.inj h)
        exact ⟨rfl, by simp⟩
      · split
        · refine ⟨q, hpops, fun r c' h => ?_⟩
          obtain ⟨rfl, rfl⟩ := Prod.mk.inj (Option.some.inj h)
          exact ⟨rfl, by simp⟩
        · refine ⟨q, hpops, fun r c' h => ?_⟩
          obtain ⟨rfl, rfl⟩ := Prod.mk.inj (Option.some.inj h)
          exact ⟨rfl, fun hr => hnone (Except.ok.inj hr)⟩

omit [Adjuster Adj ClientMsg] in
/-- Only the connection can fail there. -/
theorem flushPartial_error {c c' : Client I A L Adj H W E T} {e : IoError E}
    (h : (flushPartial clockMax c).2 = some (.error e, c')) : ∃ e', e = .conn e' := by
  unfold flushPartial at h
  split at h
  · cases h
  · split at h
    · cases h
    · simp only at h
      split at h
      · exact ⟨_, (Except.error.inj (Prod.mk.inj (Option.some.inj h)).1).symm⟩
      · split at h
        · exact ⟨_, (Except.error.inj (Prod.mk.inj (Option.some.inj h)).1).symm⟩
        · cases h

/-! ## Running -/

variable [Handlers.Handler H (ClientState I A × Queue ClientMsg L Adj)]
  [TimeoutFn T (ClientLogic I A L Adj H)] (parseFuel fuel : ℕ)

/-- What a pass of the loop decides; nothing if reading a message does not end within the number of
steps. -/
abbrev Decision (I A L Adj H W E T : Type) [LinearOrder I] : Type :=
  Option (Pass (Client I A L Adj H W E T) (Ended E (Client I A L Adj H W E T)))

/-- A message is read, by one of the two functions of the codec. -/
def readMsg (deadline : Option ℕ) (c : Client I A L Adj H W E T) :
    Option (Except (IoError E) ServerMsg × Client I A L Adj H W E T) :=
  match TimeLimitedSync.read deadline ServerMsg.maxLen fuel ⟨c.conn.bufI, c.conn.reader,
      c.conn.writer⟩ with
  | none => none
  | some (.error e, s) =>
    some (.error e, { c with conn := ⟨s.reader, s.writer, s.buf, c.conn.bufO⟩ })
  | some (.ok line, s) =>
    let bufI := if c.logic.handlers.wantsOwning then [] else line
    (ServerMsg.parseBytes parseFuel line).map fun r =>
      (r.mapError fun e => .read (.parse e),
        { c with conn := ⟨s.reader, s.writer, bufI, c.conn.bufO⟩ })

omit [Adjuster Adj ClientMsg] [Handlers.Handler H (ClientState I A × Queue ClientMsg L Adj)]
  [TimeoutFn T (ClientLogic I A L Adj H)] in
/-- Reading leaves the logic and the closure alone. -/
theorem readMsg_logic {parseFuel fuel : ℕ} {deadline : Option ℕ} {c c' : Client I A L Adj H W E T}
    {r : Except (IoError E) ServerMsg} (h : readMsg parseFuel fuel deadline c = some (r, c')) :
    c'.logic = c.logic ∧ c'.onTimeout = c.onTimeout ∧ c'.conn.bufO = c.conn.bufO := by
  unfold readMsg at h
  split at h
  · cases h
  · obtain ⟨-, rfl⟩ := Prod.mk.inj (Option.some.inj h)
    exact ⟨rfl, rfl, rfl⟩
  · obtain ⟨parsed, -, hr⟩ := Option.map_eq_some_iff.mp h
    obtain ⟨-, rfl⟩ := Prod.mk.inj hr
    exact ⟨rfl, rfl, rfl⟩

omit [Adjuster Adj ClientMsg] [Handlers.Handler H (ClientState I A × Queue ClientMsg L Adj)]
  [TimeoutFn T (ClientLogic I A L Adj H)] in
/-- Reading leaves of the writing half what it leaves undisturbed. -/
theorem readMsg_writer {P : W → Prop} (hP : TimeLimitedSync.Undisturbed P) {parseFuel fuel : ℕ}
    {deadline : Option ℕ} {c c' : Client I A L Adj H W E T} {r : Except (IoError E) ServerMsg}
    (hc : P c.conn.writer) (h : readMsg parseFuel fuel deadline c = some (r, c')) :
    P c'.conn.writer := by
  unfold readMsg at h
  split at h
  · cases h
  · rename_i hread
    obtain ⟨-, rfl⟩ := Prod.mk.inj (Option.some.inj h)
    exact hP.read (s := ⟨c.conn.bufI, c.conn.reader, c.conn.writer⟩) hc hread
  · rename_i hread
    obtain ⟨parsed, -, hr⟩ := Option.map_eq_some_iff.mp h
    obtain ⟨-, rfl⟩ := Prod.mk.inj hr
    exact hP.read (s := ⟨c.conn.bufI, c.conn.reader, c.conn.writer⟩) hc hread

/-- A read that failed: a time error may be the queue's, or one for the closure. -/
def onReadError (constrained : Bool) (e : IoError E) (c : Client I A L Adj H W E T) :
    Pass (Client I A L Adj H W E T) (Ended E (Client I A L Adj H W E T)) :=
  match filterTimeError (.error e : Except (IoError E) ServerMsg) with
  | .error e => .leave (.returned (.error e) c)
  | .ok _ =>
    if constrained then .again c
    else
      match c.onTimeout with
      | none => .leave (.returned (.ok none) c)
      | some timeoutFn =>
        let (isContinue, timeoutFn, logic) := TimeoutFn.call timeoutFn c.logic
        let c := { c with onTimeout := some timeoutFn, logic := logic }
        if isContinue then .again c else .leave (.returned (.error .readTimeout) c)

/-- A message that was read. -/
def onMsg (msg : ServerMsg) (c : Client I A L Adj H W E T) :
    RunLog × Pass (Client I A L Adj H W E T) (Ended E (Client I A L Adj H W E T)) :=
  let (finishedAt, logic) := c.logic.runOnce msg
  let c := { c with logic := logic, conn := { c.conn with bufI := [] } }
  let results := c.logic.handlers.lastRunResults finishedAt
  if c.logic.handlers.hasResults finishedAt then
    match flushPartial clockMax c with
    | (sent, none) => (⟨[msg], [results], sent⟩, .leave .panicked)
    | (sent, some (.error e, c)) => (⟨[msg], [results], sent⟩, .leave (.returned (.error e) c))
    | (sent, some (.ok _, c)) =>
      (⟨[msg], [results], sent⟩,
        .leave (.returned (.ok (some (c.logic.handlers.lastRunResults finishedAt))) c))
  else (⟨[msg], [results], []⟩, .again c)

/-- The part of a pass that comes after a flush, when there are handlers. -/
def readPass (waitFor : Option ℕ) (c : Client I A L Adj H W E T) :
    RunLog × Decision I A L Adj H W E T :=
  match TimeLimitedSync.new clockMax waitFor c.logic.timeout c.conn.writer with
  | (.error e, timeout, w) =>
    (.empty, some (.leave (.returned (.error e)
      { c with conn := { c.conn with writer := w }, logic := { c.logic with timeout := timeout } })))
  | (.ok (deadline, constrained), timeout, w) =>
    match readMsg parseFuel fuel deadline { c with
      conn := { c.conn with writer := w }, logic := { c.logic with timeout := timeout } } with
    | none => (.empty, none)
    | some (.error e, c) => (.empty, some (onReadError constrained e c))
    | some (.ok msg, c) =>
      let (log, next) := onMsg clockMax msg c
      (log, some next)

/-- A pass of the loop of `run`. -/
def pass (c : Client I A L Adj H W E T) : RunLog × Decision I A L Adj H W E T :=
  match flushPartial clockMax c with
  | (sent, none) => (.ofSent sent, some (.leave .panicked))
  | (sent, some (.error e, c)) => (.ofSent sent, some (.leave (.returned (.error e) c)))
  | (sent, some (.ok waitFor, c)) =>
    if c.logic.handlers.isEmpty then
      match waitFor with
      | some wait =>
        (.ofSent sent,
          some (.again { c with conn := { c.conn with
            writer := Connection.sleep wait c.conn.writer } }))
      | none => (.ofSent sent, some (.leave (.returned (.ok (some ([], []))) c)))
    else
      let (log, next) := readPass clockMax parseFuel fuel waitFor c
      (RunLog.append (.ofSent sent) log, next)

/-- A call of `run`, for at most the given number of passes: nothing if it has not ended by then. -/
def run : ℕ → Client I A L Adj H W E T → RunLog × Option (Ended E (Client I A L Adj H W E T))
  | 0, _ => (.empty, none)
  | passes + 1, c =>
    match pass clockMax parseFuel fuel c with
    | (log, none) => (log, none)
    | (log, some (.leave r)) => (log, some r)
    | (log, some (.again c)) =>
      let (log', r) := run passes c
      (log.append log', r)

/-! ## Calls -/

/-- What the owner of a client does with it.  Whatever is done to the logic between two calls of
`run` is a function here. -/
inductive Call (I A L Adj H T : Type) [LinearOrder I] where
  | run (passes : ℕ)
  | flushPartial
  | logic (f : ClientLogic I A L Adj H → ClientLogic I A L Adj H)
  | setTimeoutFn (f : Option T)

/-- What a call returns. -/
inductive Answer (E : Type) where
  | done
  | ran (r : Except (IoError E) (Option (List ℕ × List ℕ)))
  | flushed (r : Except (IoError E) (Option ℕ))
  | panicked
  /-- The call goes on. -/
  | notEnded
  deriving DecidableEq

/-- A call: the client after it, unless it panics or goes on. -/
def step (c : Client I A L Adj H W E T) : Call I A L Adj H T →
    RunLog × Answer E × Option (Client I A L Adj H W E T)
  | .run passes =>
    match run clockMax parseFuel fuel passes c with
    | (log, none) => (log, .notEnded, none)
    | (log, some .panicked) => (log, .panicked, none)
    | (log, some (.returned r c)) => (log, .ran r, some c)
  | .flushPartial =>
    match flushPartial clockMax c with
    | (sent, none) => (.ofSent sent, .panicked, none)
    | (sent, some (r, c)) => (.ofSent sent, .flushed r, some c)
  | .logic f => (.empty, .done, some { c with logic := f c.logic })
  | .setTimeoutFn f => (.empty, .done, some { c with onTimeout := f })

/-- Calls one after another. -/
def runs : Client I A L Adj H W E T → List (Call I A L Adj H T) →
    RunLog × List (Answer E) × Option (Client I A L Adj H W E T)
  | c, [] => (.empty, [], some c)
  | c, call :: calls =>
    match step clockMax parseFuel fuel c call with
    | (log, answer, none) => (log, [answer], none)
    | (log, answer, some c) =>
      let (log', answers, c') := runs c calls
      (log.append log', answer :: answers, c')

/-! ## Accounts -/

/-- An answer after which an account still stands: `Fine` says so of errors. -/
def Answer.Fine (Fine : IoError E → Prop) : Answer E → Prop
  | .ran r => ∀ e, r = .error e → Fine e
  | .flushed r => ∀ e, r = .error e → Fine e
  | _ => True

/-- **An account of what happens.**  `Inv log c` says how the client `c` has come out of what the
log tells, and `Safe log` what this says of the log alone. -/
structure Account (Inv : RunLog → Client I A L Adj H W E T → Prop) (Safe : RunLog → Prop)
    (Fine : IoError E → Prop) : Prop where
  safe : ∀ log c, Inv log c → Safe log
  /-- Time errors are fine. -/
  time : ∀ e, filterTimeError (.error e : Except (IoError E) ServerMsg) = .ok none → Fine e
  flush : ∀ log c, Inv log c →
    Safe (log.append (.ofSent (flushPartial clockMax c).1)) ∧
      ∀ r c', (flushPartial clockMax c).2 = some (r, c') → (∀ e, r = .error e → Fine e) →
        Inv (log.append (.ofSent (flushPartial clockMax c).1)) c'
  sleep : ∀ log c wait, Inv log c →
    Inv log { c with conn := { c.conn with writer := Connection.sleep wait c.conn.writer } }
  limits : ∀ log c waitFor, Inv log c →
    Inv log { c with
      conn := { c.conn with
        writer := (TimeLimitedSync.new clockMax waitFor c.logic.timeout c.conn.writer).2.2 }
      logic := { c.logic with
        timeout := (TimeLimitedSync.new clockMax waitFor c.logic.timeout c.conn.writer).2.1 } }
  failed : ∀ log c deadline e c', Inv log c →
    readMsg parseFuel fuel deadline c = some (.error e, c') → Fine e → Inv log c'
  timeoutFn : ∀ log c f, Inv log c → c.onTimeout = some f →
    Inv log { c with
      onTimeout := some (TimeoutFn.call f c.logic).2.1
      logic := (TimeoutFn.call f c.logic).2.2 }
  /-- A message, up to the flush that may follow. -/
  heard : ∀ log c deadline msg c', Inv log c →
    readMsg parseFuel fuel deadline c = some (.ok msg, c') →
    Inv (log.append ⟨[msg], [(c'.logic.runOnce msg).2.handlers.lastRunResults
        (c'.logic.runOnce msg).1], []⟩)
      { c' with
        logic := (c'.logic.runOnce msg).2
        conn := { c'.conn with bufI := [] } }

/-- What is left of an account when `run` returns.  An error of the reader tells of the read that
failed. -/
structure Returned (Inv : RunLog → Client I A L Adj H W E T → Prop) (Safe : RunLog → Prop)
    (Fine : IoError E → Prop) (log : RunLog) (r : Except (IoError E) (Option (List ℕ × List ℕ)))
    (c : Client I A L Adj H W E T) : Prop where
  safe : Safe log
  inv : (∀ e, r = .error e → Fine e) → Inv log c
  read : ∀ e, r = .error (.read e) →
    ∃ c₁ deadline, Inv log c₁ ∧ readMsg parseFuel fuel deadline c₁ = some (.error (.read e), c)

/-- What is left of an account once something is decided. -/
def Kept (Inv : RunLog → Client I A L Adj H W E T → Prop) (Safe : RunLog → Prop)
    (Fine : IoError E → Prop) (log : RunLog) : Decision I A L Adj H W E T → Prop
  | some (.again c) => Inv log c
  | some (.leave (.returned r c)) => Returned parseFuel fuel Inv Safe Fine log r c
  | _ => Safe log

section Rules

variable {clockMax parseFuel fuel} {Inv : RunLog → Client I A L Adj H W E T → Prop}
  {Safe : RunLog → Prop} {Fine : IoError E → Prop} {log : RunLog} {c : Client I A L Adj H W E T}

omit [Adjuster Adj ClientMsg] [Handlers.Handler H (ClientState I A × Queue ClientMsg L Adj)]
  [TimeoutFn T (ClientLogic I A L Adj H)] in
theorem Returned.of_inv (hsafe : Safe log) (hinv : Inv log c)
    {r : Except (IoError E) (Option (List ℕ × List ℕ))} (hr : ∀ e, r ≠ .error (.read e)) :
    Returned parseFuel fuel Inv Safe Fine log r c :=
  ⟨hsafe, fun _ => hinv, fun e he => absurd he (hr e)⟩

theorem Account.onReadError (h : Account clockMax parseFuel fuel Inv Safe Fine)
    {c₁ : Client I A L Adj H W E T} {deadline : Option ℕ} {e : IoError E} (hinv : Inv log c₁)
    (hread : Client.readMsg parseFuel fuel deadline c₁ = some (.error e, c)) (constrained : Bool) :
    Kept parseFuel fuel Inv Safe Fine log (some (Client.onReadError constrained e c)) := by
  have hsafe := h.safe log c₁ hinv
  have hinv' := h.failed log c₁ deadline e c hinv hread
  unfold Client.onReadError
  rcases filterTimeError_error (R := ServerMsg) e with he | he
  · rw [he]
    refine ⟨hsafe, fun hfine => hinv' (hfine e rfl), fun e' he' => ⟨c₁, deadline, hinv, ?_⟩⟩
    rw [hread, Except.error.inj he']
  · have hinv' := hinv' (h.time e he)
    rw [he]
    simp only
    split
    · exact hinv'
    · cases hf : c.onTimeout with
      | none => exact .of_inv hsafe hinv' (by simp)
      | some timeoutFn =>
        have hcalled := h.timeoutFn log c timeoutFn hinv' hf
        simp only
        split
        · exact hcalled
        · exact .of_inv hsafe hcalled (by simp)

theorem Account.onMsg (h : Account clockMax parseFuel fuel Inv Safe Fine) (msg : ServerMsg)
    (hinv : Inv (log.append ⟨[msg], [(c.logic.runOnce msg).2.handlers.lastRunResults
        (c.logic.runOnce msg).1], []⟩)
      { c with logic := (c.logic.runOnce msg).2, conn := { c.conn with bufI := [] } }) :
    Kept parseFuel fuel Inv Safe Fine (log.append (Client.onMsg clockMax msg c).1)
      (some (Client.onMsg clockMax msg c).2) := by
  have happend : ∀ r sent, log.append ⟨[msg], [r], sent⟩ =
      (log.append ⟨[msg], [r], []⟩).append (.ofSent sent) := by
    intro r sent
    rw [RunLog.append_assoc]
    rfl
  unfold Client.onMsg
  simp only
  split
  · obtain ⟨hsafe, hflush⟩ := h.flush _ _ hinv
    rcases hf : Client.flushPartial clockMax { c with
      logic := (c.logic.runOnce msg).2, conn := { c.conn with bufI := [] } } with
      ⟨sent, _ | ⟨_ | _, c'⟩⟩
    · rw [hf, ← happend] at hsafe
      exact hsafe
    · obtain ⟨e, rfl⟩ := flushPartial_error clockMax (congrArg Prod.snd hf)
      rw [hf, ← happend] at hsafe hflush
      exact ⟨hsafe, fun hfine => hflush _ c' rfl fun e he => hfine e (by cases he; rfl), by simp⟩
    · rw [hf, ← happend] at hsafe hflush
      exact .of_inv hsafe (hflush _ c' rfl (by simp)) (by simp)
  · exact hinv

theorem Account.readPass (h : Account clockMax parseFuel fuel Inv Safe Fine) (waitFor : Option ℕ)
    (hinv : Inv log c) :
    Kept parseFuel fuel Inv Safe Fine
      (log.append (Client.readPass clockMax parseFuel fuel waitFor c).1)
      (Client.readPass clockMax parseFuel fuel waitFor c).2 := by
  have hlimits := h.limits log c waitFor hinv
  unfold Client.readPass
  rcases hnew : TimeLimitedSync.new clockMax waitFor c.logic.timeout c.conn.writer with
    ⟨_ | ⟨deadline, constrained⟩, timeout, w⟩
  · obtain ⟨e, rfl⟩ := TimeLimitedSync.new_error (congrArg Prod.fst hnew)
    rw [hnew] at hlimits
    rw [RunLog.append_empty]
    exact .of_inv (h.safe log _ hlimits) hlimits (by simp)
  · rw [hnew] at hlimits
    simp only
    rcases hread : Client.readMsg parseFuel fuel deadline { c with
      conn := { c.conn with writer := w }, logic := { c.logic with timeout := timeout } } with
      _ | ⟨_ | msg, c'⟩
    · simp only [RunLog.append_empty]
      exact h.safe log _ hlimits
    · simp only [RunLog.append_empty]
      exact h.onReadError hlimits hread constrained
    · exact h.onMsg msg (h.heard log _ _ _ _ hlimits hread)

/-- **A pass keeps an account.** -/
theorem Account.pass (h : Account clockMax parseFuel fuel Inv Safe Fine) (hinv : Inv log c) :
    Kept parseFuel fuel Inv Safe Fine (log.append (Client.pass clockMax parseFuel fuel c).1)
      (Client.pass clockMax parseFuel fuel c).2 := by
  obtain ⟨hsafe, hflush⟩ := h.flush log c hinv
  unfold Client.pass
  rcases hf : Client.flushPartial clockMax c with ⟨sent, _ | ⟨_ | waitFor, c'⟩⟩
  · rw [hf] at hsafe
    exact hsafe
  · obtain ⟨e, rfl⟩ := flushPartial_error clockMax (congrArg Prod.snd hf)
    rw [hf] at hsafe hflush
    exact ⟨hsafe, fun hfine => hflush _ c' rfl fun e he => hfine e (by cases he; rfl), by simp⟩
  · rw [hf] at hsafe hflush
    have hinv' := hflush (.ok waitFor) c' rfl (by simp)
    simp only
    split
    · cases waitFor with
      | some wait => exact h.sleep _ c' wait hinv'
      | none => exact .of_inv hsafe hinv' (by simp)
    · rw [← RunLog.append_assoc]
      exact h.readPass waitFor hinv'

/-- **A call of `run` keeps an account.** -/
theorem Account.run (h : Account clockMax parseFuel fuel Inv Safe Fine) (passes : ℕ)
    (hinv : Inv log c) :
    Kept parseFuel fuel Inv Safe Fine (log.append (Client.run clockMax parseFuel fuel passes c).1)
      ((Client.run clockMax parseFuel fuel passes c).2.map .leave) := by
  induction passes generalizing log c with
  | zero =>
    rw [Client.run, RunLog.append_empty]
    exact h.safe log c hinv
  | succ passes ih =>
    have hpass := h.pass hinv
    rw [Client.run]
    rcases hp : Client.pass clockMax parseFuel fuel c with ⟨log', _ | c' | r⟩
    · rw [hp] at hpass
      exact hpass
    · rw [hp] at hpass
      simp only
      rw [← RunLog.append_assoc]
      exact ih hpass
    · rw [hp] at hpass
      exact hpass

/-- A call, and one after another of them. -/
theorem Account.step (h : Account clockMax parseFuel fuel Inv Safe Fine)
    (call : Call I A L Adj H T) (hinv : Inv log c)
    (hlogic : ∀ f, call = .logic f → Inv log { c with logic := f c.logic })
    (hset : ∀ f, call = .setTimeoutFn f → Inv log { c with onTimeout := f }) :
    Safe (log.append (Client.step clockMax parseFuel fuel c call).1) ∧
      ((Client.step clockMax parseFuel fuel c call).2.1.Fine Fine →
        ∀ c', (Client.step clockMax parseFuel fuel c call).2.2 = some c' →
          Inv (log.append (Client.step clockMax parseFuel fuel c call).1) c') := by
  cases call with
  | run passes =>
    have hrun := h.run passes hinv
    simp only [Client.step]
    rcases hr : Client.run clockMax parseFuel fuel passes c with ⟨log', _ | _ | ⟨r, c'⟩⟩
    · rw [hr] at hrun
      exact ⟨hrun, fun _ c' hc' => by cases hc'⟩
    · rw [hr] at hrun
      exact ⟨hrun, fun _ c' hc' => by cases hc'⟩
    · rw [hr] at hrun
      refine ⟨hrun.safe, fun hfine c'' hc'' => ?_⟩
      obtain rfl := Option.some.inj hc''
      exact hrun.inv hfine
  | flushPartial =>
    obtain ⟨hsafe, hflush⟩ := h.flush log c hinv
    simp only [Client.step]
    rcases hf : Client.flushPartial clockMax c with ⟨sent, _ | ⟨r, c'⟩⟩
    · rw [hf] at hsafe
      exact ⟨hsafe, fun _ c' hc' => by cases hc'⟩
    · rw [hf] at hsafe hflush
      refine ⟨hsafe, fun hfine c'' hc'' => ?_⟩
      obtain rfl := Option.some.inj hc''
      exact hflush r c' rfl hfine
  | logic f =>
    have hinv' := hlogic f rfl
    simp only [Client.step, RunLog.append_empty]
    exact ⟨h.safe log _ hinv', fun _ c' hc' => Option.some.inj hc' ▸ hinv'⟩
  | setTimeoutFn f =>
    have hinv' := hset f rfl
    simp only [Client.step, RunLog.append_empty]
    exact ⟨h.safe log _ hinv', fun _ c' hc' => Option.some.inj hc' ▸ hinv'⟩

/-- **Calls keep an account**, as long as their answers are fine, if what else is done to the client
keeps it. -/
theorem Account.runs (h : Account clockMax parseFuel fuel Inv Safe Fine)
    (calls : List (Call I A L Adj H T))
    (hlogic : ∀ f, .logic f ∈ calls → ∀ log c, Inv log c → Inv log { c with logic := f c.logic })
    (hset : ∀ f, .setTimeoutFn f ∈ calls → ∀ log c, Inv log c → Inv log { c with onTimeout := f })
    (hinv : Inv log c)
    (hfine : ∀ a ∈ (Client.runs clockMax parseFuel fuel c calls).2.1, a.Fine Fine) :
    Safe (log.append (Client.runs clockMax parseFuel fuel c calls).1) ∧
      ∀ c', (Client.runs clockMax parseFuel fuel c calls).2.2 = some c' →
        Inv (log.append (Client.runs clockMax parseFuel fuel c calls).1) c' := by
  induction calls generalizing log c with
  | nil =>
    rw [Client.runs, RunLog.append_empty]
    exact ⟨h.safe log c hinv, fun c' hc' => Option.some.inj hc' ▸ hinv⟩
  | cons call calls ih =>
    obtain ⟨hsafe, hstep⟩ := h.step call hinv
      (fun f hf => hlogic f (hf ▸ List.mem_cons_self) log c hinv)
      (fun f hf => hset f (hf ▸ List.mem_cons_self) log c hinv)
    rw [Client.runs] at hfine ⊢
    rcases hs : Client.step clockMax parseFuel fuel c call with ⟨log', answer, _ | c'⟩
    · rw [hs] at hsafe
      exact ⟨hsafe, fun c' hc' => by cases hc'⟩
    · rw [hs] at hstep hfine
      simp only at hfine ⊢
      rw [← RunLog.append_assoc]
      exact ih (fun f hf => hlogic f (List.mem_cons_of_mem _ hf))
        (fun f hf => hset f (List.mem_cons_of_mem _ hf))
        (hstep (hfine answer List.mem_cons_self) c' rfl)
        (fun a ha => hfine a (List.mem_cons_of_mem _ ha))

end Rules

/-! ## A client -/

/-- Clients with `AutoPong` in memory. -/
abbrev InMemory : Type :=
  Client ℕ Empty DefaultLabeler Empty (Replier ℕ Empty DefaultLabeler Empty) MemoryConn Empty Empty

/-- A client with a message to send, and a server that pings it. -/
def pinged : InMemory where
  conn := ⟨[.bytes (byte 'P') (text "ING :a\r\n")], ⟨[], 0⟩, [], []⟩
  logic := ⟨.default, .fromQueue 0 [.new (.fromStr "NAMES")], .new, (Handlers.new.add .autoPong).2⟩
  onTimeout := none

/-- It replies, and then there is nothing more to read. -/
theorem pinged_answers : (runs (10 ^ 30) 100 100 pinged [.run 5]).2.1 =
    [.ran (.error (.read .unexpectedEof))] := by decide +kernel

theorem pinged_written : ((runs (10 ^ 30) 100 100 pinged [.run 5]).2.2.map fun c =>
    c.conn.writer.written) = some (text "NAMES\r\nPONG a\r\n") := by decide +kernel

end Client

end Vinezombie
