import Vinezombie.Client.Handlers
import Vinezombie.Client.Queue
import Vinezombie.Client.Track

/-!
# The logic of a client

`ClientLogic` of `client/logic.rs`: the time limits, the queue, the state that handlers share and
the handlers, and how all of it is reset before a connection is used again.

A caller learns values of a type `R` from its own code; handlers are values of a type `H`, with the
state and the queue as what they share.  What is configuration is what `reset` leaves on purpose:
the time limits, with the flag that says whether the connection knows them, the rate limit, and the
adjuster as its own `reset` leaves it.

`reset` leaves one thing that is not configuration.  `ClientState::clear` removes what is stored and
keeps the assumed length of the source, so that a client that is used again assumes the length of
the last connection until something computes it again.

* `ClientLogic.step`: the calls, as steps of a machine.
* `ClientLogic.reset_eq`: what `reset` leaves.
* `ClientLogic.reset_iff`: when it leaves what a new client would have.
-/

namespace Vinezombie

open Library.Machine

/-! ## Time limits -/

/-- `TimeLimits` of `client/conn/time.rs`. -/
@[ext] structure TimeLimits where
  read : Option ℕ
  write : Option ℕ
  /-- Whether the connection is still to be told about `write`. -/
  updateWrite : Bool
  deriving DecidableEq

namespace TimeLimits

/-- `TimeLimits::default`. -/
def default : TimeLimits := ⟨none, none, false⟩

/-- `require_update`. -/
def requireUpdate (self : TimeLimits) : TimeLimits := { self with updateWrite := true }

/-- `set_read_timeout`. -/
def setReadTimeout (timeout : Option ℕ) (self : TimeLimits) : TimeLimits :=
  { self with read := timeout.map fun t => max t (Duration.fromSecs 1) }

/-- `set_write_timeout`. -/
def setWriteTimeout (timeout : Option ℕ) (self : TimeLimits) : TimeLimits :=
  { self with
    updateWrite := self.updateWrite || true
    write := timeout.map fun t => max t (Duration.fromSecs 1) }

/-- What `TimeLimitedSync::new` tells the connection, which may fail. -/
def tellConn (ok : Bool) (self : TimeLimits) : Option (Option ℕ) × TimeLimits :=
  if self.updateWrite then (some self.write, { self with updateWrite := !ok }) else (none, self)

end TimeLimits

/-! ## The logic -/

/-- `ClientLogic`. -/
structure ClientLogic (I A L Adj H : Type) [LinearOrder I] where
  timeout : TimeLimits
  queue : Queue ClientMsg L Adj
  state : ClientState I A
  handlers : Handlers H

namespace ClientLogic

variable {I A L Adj H R : Type} [LinearOrder I] [Adjuster Adj ClientMsg]

/-- `ClientLogic::new`, at the time that the clock shows. -/
def new (now : ℕ) : ClientLogic I A L Adj H :=
  ⟨TimeLimits.default, Queue.new now, ClientState.new, Handlers.new⟩

/-- `reset`. -/
def reset (now : ℕ) (l : ClientLogic I A L Adj H) : ClientLogic I A L Adj H :=
  { l with
    handlers := l.handlers.cancel
    queue := l.queue.reset now
    state := l.state.clear }

/-- `needs_run`. -/
def needsRun (l : ClientLogic I A L Adj H) : Bool :=
  !l.handlers.isEmpty || !l.queue.isEmpty

variable [Handlers.Handler H (ClientState I A × Queue ClientMsg L Adj)]

/-- `add_with_sender`, where `make` is `make_handler` with its value. -/
def add (make : ClientState I A → QueueEditGuard ClientMsg L Adj →
    Except R H × QueueEditGuard ClientMsg L Adj) (l : ClientLogic I A L Adj H) :
    Except R ℕ × ClientLogic I A L Adj H :=
  match make l.state l.queue.edit with
  | (.error e, guard) => (.error e, { l with queue := guard.queue })
  | (.ok handler, guard) =>
    let (id, handlers) := l.handlers.add handler
    (.ok id, { l with queue := guard.queue, handlers := handlers })

/-- `run_once`. -/
def runOnce (msg : ServerMsg) (l : ClientLogic I A L Adj H) : ℕ × ClientLogic I A L Adj H :=
  let r := l.handlers.handle msg (l.state, l.queue.adjust msg)
  (r.1, { l with handlers := r.2.1, state := r.2.2.1, queue := r.2.2.2 })

/-- The calls, those of the connection's run loop included. -/
inductive Call (I A L Adj H R : Type) [LinearOrder I] where
  | setReadTimeout (timeout : Option ℕ)
  | setWriteTimeout (timeout : Option ℕ)
  | requireUpdate
  | tellConn (ok : Bool)
  /-- Anything that is done through `queue_mut`. -/
  | queueMut (f : Queue ClientMsg L Adj → R × Queue ClientMsg L Adj)
  /-- Anything that is done through `state_mut`. -/
  | stateMut (f : ClientState I A → R × ClientState I A)
  | sourceLen
  | add (make : ClientState I A → QueueEditGuard ClientMsg L Adj →
      Except R H × QueueEditGuard ClientMsg L Adj)
  | needsRun
  | runOnce (msg : ServerMsg)
  | reset (now : ℕ)

/-- What a call returns. -/
inductive Answer (R : Type) where
  | done
  | told (timeout : Option (Option ℕ))
  | value (r : R)
  | sourceLen (len : ℕ+)
  | added (id : Except R ℕ)
  | needsRun (b : Bool)
  /-- `has_results` and `last_run_results`. -/
  | ran (hasResults : Bool) (yielded finished : List ℕ)

/-- A call. -/
def step (l : ClientLogic I A L Adj H) : Call I A L Adj H R → Answer R × ClientLogic I A L Adj H
  | .setReadTimeout timeout => (.done, { l with timeout := l.timeout.setReadTimeout timeout })
  | .setWriteTimeout timeout => (.done, { l with timeout := l.timeout.setWriteTimeout timeout })
  | .requireUpdate => (.done, { l with timeout := l.timeout.requireUpdate })
  | .tellConn ok =>
    let (told, timeout) := l.timeout.tellConn ok
    (.told told, { l with timeout := timeout })
  | .queueMut f =>
    let (value, queue) := f l.queue
    (.value value, { l with queue := queue })
  | .stateMut f =>
    let (value, state) := f l.state
    (.value value, { l with state := state })
  | .sourceLen => (.sourceLen l.state.sourceLen, l)
  | .add make =>
    let (id, l) := l.add make
    (.added id, l)
  | .needsRun => (.needsRun l.needsRun, l)
  | .runOnce msg =>
    let (finishedAt, l) := l.runOnce msg
    let (yielded, finished) := l.handlers.lastRunResults finishedAt
    (.ran (l.handlers.hasResults finishedAt) yielded finished, l)
  | .reset now => (.done, l.reset now)

/-- The logic that some calls leave of a new one. -/
def reached (now : ℕ) (calls : List (Call I A L Adj H R)) : ClientLogic I A L Adj H :=
  final step (new now) calls

/-! ## What a reset leaves -/

/-- What is configuration. -/
@[ext] structure Config (Adj : Type) where
  timeout : TimeLimits
  delay : ℕ
  sub : ℕ
  adjuster : Option Adj

/-- The configuration of a client, with its adjuster as the adjuster's own `reset` leaves it. -/
def config (l : ClientLogic I A L Adj H) : Config Adj where
  timeout := l.timeout
  delay := l.queue.delay
  sub := l.queue.sub
  adjuster := l.queue.adjuster.map (Adjuster.reset ClientMsg)

/-- A new client that is configured so: no handlers, no ids, an empty queue without a labeler and
without delay, and a new state. -/
def fresh (now : ℕ) (c : Config Adj) : ClientLogic I A L Adj H where
  timeout := c.timeout
  queue :=
    { (Queue.new now : Queue ClientMsg L Adj) with
      delay := c.delay
      sub := c.sub
      adjuster := c.adjuster }
  state := ClientState.new
  handlers := Handlers.new

omit [Handlers.Handler H (ClientState I A × Queue ClientMsg L Adj)] in
/-- **What `reset` leaves** is a new client with the same configuration, but for the assumed length
of the source. -/
theorem reset_eq (now : ℕ) (l : ClientLogic I A L Adj H) :
    l.reset now =
      { (fresh now l.config : ClientLogic I A L Adj H) with
        state := ClientState.new.setSourceLen l.state.sourceLen } :=
  rfl

omit [Handlers.Handler H (ClientState I A × Queue ClientMsg L Adj)] in
theorem sourceLen_reset (now : ℕ) (l : ClientLogic I A L Adj H) :
    (l.reset now).state.sourceLen = l.state.sourceLen :=
  rfl

omit [Handlers.Handler H (ClientState I A × Queue ClientMsg L Adj)] in
theorem reset_eq_fresh_iff (now : ℕ) (l : ClientLogic I A L Adj H) :
    l.reset now = fresh now l.config ↔ l.state.sourceLen = ClientState.defaultSourceLen := by
  constructor
  · intro h
    rw [← sourceLen_reset now l, h]
    rfl
  · intro h
    rw [reset_eq, h]
    rfl

/-- **Two clients with one configuration behave alike** after a reset exactly when they assumed the
same length before it. -/
theorem outputs_reset_iff {l l' : ClientLogic I A L Adj H} (h : l.config = l'.config) (now : ℕ) :
    (∀ further : List (Call I A L Adj H R),
        outputs step (l.reset now) further = outputs step (l'.reset now) further) ↔
      l.state.sourceLen = l'.state.sourceLen := by
  constructor
  · intro hout
    have hlen := hout [.sourceLen]
    simpa [outputs, step, sourceLen_reset] using hlen
  · intro hlen further
    rw [reset_eq, reset_eq, h, hlen]

/-- **Using a client again.**  For two clients with one configuration and any histories: both are as
a new client with that configuration after `reset`, and they behave alike from then on, exactly when
both assumed the default length of the source before it. -/
theorem reset_iff (start start' now : ℕ) (calls calls' : List (Call I A L Adj H R))
    (h : (reached start calls).config = (reached start' calls').config) :
    ((reached start calls).reset now = fresh now (reached start calls).config ∧
        (reached start' calls').reset now = fresh now (reached start' calls').config ∧
        ∀ further : List (Call I A L Adj H R),
          outputs step ((reached start calls).reset now) further =
            outputs step ((reached start' calls').reset now) further) ↔
      (reached start calls).state.sourceLen = ClientState.defaultSourceLen ∧
        (reached start' calls').state.sourceLen = ClientState.defaultSourceLen := by
  rw [reset_eq_fresh_iff, reset_eq_fresh_iff, outputs_reset_iff h]
  constructor
  · rintro ⟨hlen, hlen', -⟩
    exact ⟨hlen, hlen'⟩
  · rintro ⟨hlen, hlen'⟩
    exact ⟨hlen, hlen', hlen.trans hlen'.symm⟩

end ClientLogic

/-! ## The tracker as a handler -/

/-- `TrackClientSource` in a client. -/
structure Tracker (I A L Adj : Type) where

instance {I A L Adj : Type} [LinearOrder I] [TypeId I] [ISupport.StdSearch] :
    Handlers.Handler (Tracker I A L Adj) (ClientState I A × Queue ClientMsg L Adj) where
  handle handler msg ctx :=
    let (isBreak, state) := TrackClientSource.handle msg ctx.1
    ⟨isBreak, false, handler, (state, ctx.2)⟩
  wantsOwning _ := false

namespace ClientLogic

/-- A client with a tracker, and one without anything. -/
theorem reset_iff_tracker :
    letI := ISupport.StdSearch.first
    let l : ClientLogic ℕ Empty DefaultLabeler Empty (Tracker ℕ Empty DefaultLabeler Empty) :=
      reached 0 [(.add fun _ queue => (.ok ⟨⟩, queue) : Call _ _ _ _ _ Unit)]
    l.reset 2 = fresh 2 l.config :=
  letI := ISupport.StdSearch.first
  ((reset_iff 0 1 2 [.add fun _ queue => (.ok ⟨⟩, queue)] ([] : List (Call _ _ _ _ _ Unit))
    rfl).mpr ⟨rfl, rfl⟩).1

/-- **A client that was registered** as `foo!bar@baz` assumes the length of that source after a
reset. -/
theorem reset_registered_ne_fresh :
    letI := ISupport.StdSearch.first
    let l : ClientLogic ℕ Empty DefaultLabeler Empty (Tracker ℕ Empty DefaultLabeler Empty) :=
      reached 0 [(.stateMut fun state => ((), Register.Registration.save
        { Register.Registration.new (.fromStr "foo") with
          userhost := some ⟨some (.fromStr "bar"), .fromStr "baz"⟩ } state) :
        Call _ _ _ _ _ Unit)]
    (l.reset 1).state.sourceLen = 12 ∧ l.reset 1 ≠ fresh 1 l.config := by
  let _ : ISupport.StdSearch := ISupport.StdSearch.first
  intro l
  have hlen : l.state.sourceLen = 12 := by decide +kernel
  refine ⟨(sourceLen_reset 1 l).trans hlen, fun h => ?_⟩
  have hdefault := (reset_eq_fresh_iff 1 l).mp h
  rw [hlen] at hdefault
  exact absurd hdefault (by decide)

end ClientLogic

end Vinezombie
