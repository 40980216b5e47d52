import Vinezombie.Client.QueueOrder
import Vinezombie.Client.Run

/-!
# The queue of a running client

A handler gets a `QueueEditGuard`, so that all it can do to the queue are calls on guards.  With
handlers like that, and as long as nobody sets the rate limit or resets the client, whatever a client
does is a run of its queue, and what it sends are the messages popped in that run
(`queue_runs`).  Its messages are then sent in the order in which they were queued, each at most
once, and no faster than the rate limit allows (`sent_length_le`).

Without handlers, `run` sends all of the queue (`run_flushes`).
-/

namespace Vinezombie

open Library

namespace Queue

variable {M L A : Type} [Labeler L] [Labeled M] [Adjuster A M] {clockMax : ℕ}

theorem run_append {q : Queue M L A} {ops ops' : List (Op M L A)} {t t' : Trace M L A}
    (h : run clockMax q ops = some t) (h' : run clockMax t.queue ops' = some t') :
    run clockMax q (ops ++ ops') =
      some ⟨t'.queue, t.popped ++ t'.popped, t.dropped ++ t'.dropped⟩ := by
  induction ops generalizing q t with
  | nil =>
    obtain rfl := Option.some.inj h
    exact h'
  | cons op ops ih =>
    obtain ⟨e, t₁, he, ht₁, rfl⟩ := run_cons h
    rw [List.cons_append, run, he, Option.bind_some, ih ht₁ h', Option.map_some]
    simp only [List.append_assoc]

/-- A run from `q` to `q'` in which nothing is popped and the time point is not set. -/
def Idles (clockMax : ℕ) (q q' : Queue M L A) : Prop :=
  ∃ ops dropped, (∀ op ∈ ops, Op.setsTimepoint op = false) ∧
    run clockMax q ops = some ⟨q', [], dropped⟩

theorem Idles.refl (q : Queue M L A) : Idles clockMax q q := ⟨[], [], by simp, rfl⟩

theorem Idles.trans {q q₁ q' : Queue M L A} (h : Idles clockMax q q₁) (h' : Idles clockMax q₁ q') :
    Idles clockMax q q' := by
  obtain ⟨ops, dropped, hops, hrun⟩ := h
  obtain ⟨ops', dropped', hops', hrun'⟩ := h'
  refine ⟨ops ++ ops', dropped ++ dropped', fun op hop => ?_, run_append hrun hrun'⟩
  rcases List.mem_append.mp hop with hop | hop
  · exact hops op hop
  · exact hops' op hop

theorem Idles.step {q q' : Queue M L A} (op : Op M L A) {dropped : List M}
    (hop : op.setsTimepoint = false) (h : Queue.step clockMax q op = some ⟨q', [], dropped⟩) :
    Idles clockMax q q' :=
  ⟨[op], dropped, by simpa using hop, by
    rw [run, h, Option.bind_some, run, Option.map_some, List.append_nil, List.append_nil]⟩

/-- A run of the queue from `q` that sets no time point. -/
def Runs (clockMax : ℕ) (q q' : Queue M L A) (popped : List (Taken M)) : Prop :=
  ∃ ops dropped, (∀ op ∈ ops, Op.setsTimepoint op = false) ∧
    run clockMax q ops = some ⟨q', popped, dropped⟩

theorem Runs.idle {q q₁ q' : Queue M L A} {popped : List (Taken M)}
    (h : Runs clockMax q q₁ popped) (h' : Idles clockMax q₁ q') : Runs clockMax q q' popped := by
  obtain ⟨ops, dropped, hops, hrun⟩ := h
  obtain ⟨ops', dropped', hops', hrun'⟩ := h'
  refine ⟨ops ++ ops', dropped ++ dropped', fun op hop => ?_, ?_⟩
  · rcases List.mem_append.mp hop with hop | hop
    · exact hops op hop
    · exact hops' op hop
  · rw [run_append hrun hrun', List.append_nil]

theorem Runs.pops {q q₁ q' : Queue M L A} {popped sent : List (Taken M)}
    (h : Runs clockMax q q₁ popped) (h' : Pops clockMax q₁ sent q') :
    Runs clockMax q q' (popped ++ sent) := by
  obtain ⟨ops, dropped, hops, hrun⟩ := h
  refine ⟨_, _, fun op hop => ?_, run_append hrun h'.run⟩
  rcases List.mem_append.mp hop with hop | hop
  · exact hops op hop
  · obtain ⟨p, -, rfl⟩ := List.mem_map.mp hop
    rfl

end Queue

namespace Handlers

variable {H C : Type} [Handler H C]

/-- What the calls of the handlers do to what they share, one after another, a call of `handle`
does. -/
theorem handle_rel {R : C → C → Prop} (hrefl : ∀ ctx, R ctx ctx)
    (htrans : ∀ ctx ctx₁ ctx', R ctx ctx₁ → R ctx₁ ctx' → R ctx ctx')
    (hhandle : ∀ (handler : H) msg ctx, R ctx (Handler.handle handler msg ctx).ctx)
    (msg : ServerMsg) (self : Handlers H) (ctx : C) : R ctx (self.handle msg ctx).2.2 := by
  have hcalls : ∀ (order : List (H × ℕ)) (ctx : C), R ctx (callAll msg order ctx).2 := by
    intro order
    induction order with
    | nil => exact hrefl
    | cons h order ih =>
      intro ctx
      obtain ⟨handler, id⟩ := h
      have hctx : (boxHandler handler msg ctx).2.2 = (Handler.handle handler msg ctx).ctx := by
        unfold boxHandler
        simp only
        split
        · rfl
        · rfl
      rw [callAll]
      exact htrans _ _ _ (hhandle handler msg ctx) (hctx ▸ ih _)
  obtain ⟨order, -, horder⟩ := handleLoop_eq msg self.handlers []
    { self with wantsOwning := false, yielded := [] } ctx rfl
  unfold handle
  rw [show (0 : ℕ) = ([] : List (H × ℕ)).length from rfl, horder]
  exact hcalls order ctx

end Handlers

namespace Client

variable {I A L Adj H W E T : Type} [LinearOrder I] [Adjuster Adj ClientMsg] [Connection W E]
  [Labeler L] [Handlers.Handler H (ClientState I A × Queue ClientMsg L Adj)]
  [TimeoutFn T (ClientLogic I A L Adj H)] {clockMax parseFuel fuel : ℕ}

/-- What is promised of the handlers of a client and of its closure: they use guards, and leave the
time point alone. -/
structure UsesGuards (clockMax : ℕ) (I A L Adj H T : Type) [LinearOrder I]
    [Adjuster Adj ClientMsg] [Labeler L]
    [Handlers.Handler H (ClientState I A × Queue ClientMsg L Adj)]
    [TimeoutFn T (ClientLogic I A L Adj H)] : Prop where
  handle : ∀ (handler : H) msg (ctx : ClientState I A × Queue ClientMsg L Adj),
    Queue.Idles clockMax ctx.2 (Handlers.Handler.handle handler msg ctx).ctx.2
  timeoutFn : ∀ (f : T) (logic : ClientLogic I A L Adj H),
    Queue.Idles clockMax logic.queue (TimeoutFn.call f logic).2.2.queue

omit [Connection W E] in
theorem idles_runOnce (h : UsesGuards clockMax I A L Adj H T) (msg : ServerMsg)
    (logic : ClientLogic I A L Adj H) :
    Queue.Idles clockMax logic.queue (logic.runOnce msg).2.queue := by
  have hadjust : Queue.Idles clockMax logic.queue (logic.queue.adjust msg) :=
    .step (.adjust msg) rfl rfl
  have htrans : ∀ ctx ctx₁ ctx' : ClientState I A × Queue ClientMsg L Adj,
      Queue.Idles clockMax ctx.2 ctx₁.2 → Queue.Idles clockMax ctx₁.2 ctx'.2 →
      Queue.Idles clockMax ctx.2 ctx'.2 :=
    fun _ _ _ h h' => h.trans h'
  exact hadjust.trans (Handlers.handle_rel (R := fun ctx ctx' => Queue.Idles clockMax ctx.2 ctx'.2)
    (fun _ => .refl _) htrans h.handle msg logic.handlers (logic.state, logic.queue.adjust msg))

/-- The account of the queue: what the client has done is a run of it. -/
def QueueRun (clockMax : ℕ) (q : Queue ClientMsg L Adj) (log : RunLog)
    (c : Client I A L Adj H W E T) : Prop :=
  Queue.Runs clockMax q c.logic.queue log.sent

/-- **The queue is accounted for**, whatever the connection does. -/
theorem account_queue (hguards : UsesGuards clockMax I A L Adj H T) (q : Queue ClientMsg L Adj) :
    Account clockMax parseFuel fuel
      (QueueRun clockMax q : RunLog → Client I A L Adj H W E T → Prop)
      (fun log => ∃ q', Queue.Runs clockMax q q' log.sent) (fun _ => True) where
  safe log c h := ⟨_, h⟩
  time _ _ := trivial
  flush log c h := by
    obtain ⟨q₁, hpops, hspec⟩ := flushPartial_spec clockMax c
    refine ⟨⟨q₁, h.pops hpops⟩, fun r c' hr _ => ?_⟩
    rw [(hspec r c' hr).1]
    exact h.pops hpops
  sleep log c wait h := h
  limits log c waitFor h := h
  failed log c deadline e c' h hread _ := by
    unfold QueueRun
    rw [(readMsg_logic hread).1]
    exact h
  timeoutFn log c f h _ := h.idle (hguards.timeoutFn f c.logic)
  heard log c deadline msg c' h hread := by
    unfold QueueRun at h ⊢
    rw [← (readMsg_logic hread).1] at h
    rw [RunLog.sent_append, List.append_nil]
    exact h.idle (idles_runOnce hguards msg c'.logic)

/-- **What a client does is a run of its queue**, and what it sends is what is popped in that run.
The messages are sent as `Queue.Fifo` says and as the token bucket allows. -/
theorem queue_runs (hguards : UsesGuards clockMax I A L Adj H T) (c : Client I A L Adj H W E T)
    (calls : List (Call I A L Adj H T))
    (hlogic : ∀ f, .logic f ∈ calls → ∀ l, Queue.Idles clockMax l.queue (f l).queue) :
    ∃ ops t, (∀ op ∈ ops, Queue.Op.setsTimepoint op = false) ∧
      Queue.run clockMax c.logic.queue ops = some t ∧
      t.popped = (runs clockMax parseFuel fuel c calls).1.sent ∧
      Queue.Fifo clockMax c.logic.queue ops t ∧
      TokenBucket.Conforms c.logic.queue.delay c.logic.queue.sub c.logic.queue.timepoint
        ((runs clockMax parseFuel fuel c calls).1.sent.map Queue.Taken.times) ∧
      ∀ c', (runs clockMax parseFuel fuel c calls).2.2 = some c' → t.queue = c'.logic.queue := by
  have h : Account clockMax parseFuel fuel
      (QueueRun clockMax c.logic.queue : RunLog → Client I A L Adj H W E T → Prop)
      (fun log => ∃ q', Queue.Runs clockMax c.logic.queue q' log.sent) (fun _ => True) :=
    account_queue hguards _
  have hfine : ∀ a ∈ (runs clockMax parseFuel fuel c calls).2.1, a.Fine fun _ => True := by
    intro a _
    cases a <;> simp [Answer.Fine]
  obtain ⟨hsafe, hinv⟩ := h.runs calls (fun f hf log c hc => Queue.Runs.idle hc (hlogic f hf c.logic))
    (fun f _ log c hc => hc) (show QueueRun clockMax _ .empty c from ⟨[], [], by simp, rfl⟩) hfine
  rw [RunLog.empty_append] at hsafe hinv
  have hfinish : ∀ q', Queue.Runs clockMax c.logic.queue q'
      (runs clockMax parseFuel fuel c calls).1.sent →
      ∃ ops t, (∀ op ∈ ops, Queue.Op.setsTimepoint op = false) ∧
        Queue.run clockMax c.logic.queue ops = some t ∧
        t.popped = (runs clockMax parseFuel fuel c calls).1.sent ∧
        Queue.Fifo clockMax c.logic.queue ops t ∧
        TokenBucket.Conforms c.logic.queue.delay c.logic.queue.sub c.logic.queue.timepoint
          ((runs clockMax parseFuel fuel c calls).1.sent.map Queue.Taken.times) ∧
        t.queue = q' := by
    rintro q' ⟨ops, dropped, hops, hrun⟩
    exact ⟨ops, _, hops, hrun, rfl, Queue.fifo hrun, Queue.conforms_run hops hrun, rfl⟩
  cases hc' : (runs clockMax parseFuel fuel c calls).2.2 with
  | none =>
    obtain ⟨q', hq'⟩ := hsafe
    obtain ⟨ops, t, hops, hrun, hpopped, hfifo, hconf, -⟩ := hfinish q' hq'
    exact ⟨ops, t, hops, hrun, hpopped, hfifo, hconf, fun c' h => by cases h⟩
  | some c' =>
    obtain ⟨ops, t, hops, hrun, hpopped, hfifo, hconf, hq'⟩ := hfinish _ (hinv c' hc')
    refine ⟨ops, t, hops, hrun, hpopped, hfifo, hconf, fun c'' h => ?_⟩
    rw [← Option.some.inj h]
    exact hq'

/-- Handlers that only reply use guards. -/
theorem usesGuards_replier :
    UsesGuards clockMax I A L Adj (Replier I A L Adj) Empty where
  handle handler msg ctx := by
    cases hreply : handler.reply msg with
    | none =>
      have hctx : (Handlers.Handler.handle handler msg ctx).ctx.2 = ctx.2 := by
        simp only [Handlers.Handler.handle, hreply]
      rw [hctx]
      exact .refl _
    | some reply =>
      have hctx : (Handlers.Handler.handle handler msg ctx).ctx.2 =
          (ctx.2.edit.push reply).queue := by
        simp only [Handlers.Handler.handle, hreply]
      rw [hctx]
      exact .step (.edit ctx.2.len (.push reply)) rfl rfl
  timeoutFn f := f.elim

theorem queue_runs_pinged : ∃ ops t, Queue.run (10 ^ 30) pinged.logic.queue ops = some t ∧
    t.popped = (runs (10 ^ 30) 100 100 pinged [.run 5]).1.sent ∧
    Queue.Fifo (10 ^ 30) pinged.logic.queue ops t := by
  have hguards : UsesGuards (10 ^ 30) ℕ Empty DefaultLabeler Empty
      (Replier ℕ Empty DefaultLabeler Empty) Empty := usesGuards_replier
  obtain ⟨ops, t, -, hrun, hpopped, hfifo, -⟩ := queue_runs hguards pinged [.run 5] (by simp)
  exact ⟨ops, t, hrun, hpopped, hfifo⟩

/-- **The rate limit, of what a client sends.**  With a delay of `delay` and a burst of `burst`, any
part of what is sent has at most `burst + 1` messages and one for each delay that passes in it,
whatever the handlers queue. -/
theorem sent_length_le (hguards : UsesGuards clockMax I A L Adj H T)
    {c : Client I A L Adj H W E T} {calls : List (Call I A L Adj H T)}
    (hlogic : ∀ f, .logic f ∈ calls → ∀ l, Queue.Idles clockMax l.queue (f l).queue)
    {delay burst tFirst tLast : ℕ} {window : List (Queue.Taken ClientMsg)}
    {first last : Queue.Taken ClientMsg} (hdelay : c.logic.queue.delay = delay) (hpos : 0 < delay)
    (hsub : c.logic.queue.sub = burst * delay)
    (hwindow : window <:+: (runs clockMax parseFuel fuel c calls).1.sent)
    (hhead : window.head? = some first) (hlast : window.getLast? = some last)
    (hfirst : tFirst ≤ first.later) (hle : last.now ≤ tLast) :
    window.length ≤ burst + 1 + (tLast - tFirst) / delay := by
  have hconf : TokenBucket.Conforms c.logic.queue.delay c.logic.queue.sub c.logic.queue.timepoint
      ((runs clockMax parseFuel fuel c calls).1.sent.map Queue.Taken.times) := by
    obtain ⟨ops, t, -, -, -, -, hconf, -⟩ := queue_runs hguards c calls hlogic
    exact hconf
  rw [hdelay, hsub] at hconf
  obtain ⟨point, hpoint⟩ := hconf.infix (hwindow.map Queue.Taken.times)
  have hhead' : (window.map Queue.Taken.times).head? = some first.times := by
    rw [List.head?_map, hhead]
    rfl
  have hlast' : (window.map Queue.Taken.times).getLast? = some last.times := by
    rw [List.getLast?_map, hlast]
    rfl
  have hlen := hpoint.length_le hpos hhead' hlast' hfirst hle
  rwa [List.length_map] at hlen

theorem sent_length_le_pinged :
    (runs (10 ^ 30) 100 100 pinged [.run 5]).1.sent.length ≤ 4 + 1 + (0 - 0) / 2000000000 := by
  have htimes : (runs (10 ^ 30) 100 100 pinged [.run 5]).1.sent.map Queue.Taken.times =
      [(0, 0), (0, 0)] := by decide +kernel
  have hhead := congrArg List.head? htimes
  have hlast := congrArg List.getLast? htimes
  rw [List.head?_map] at hhead
  rw [List.getLast?_map] at hlast
  obtain ⟨first, hfirst, -⟩ := Option.map_eq_some_iff.mp hhead
  obtain ⟨last, hlast, htime⟩ := Option.map_eq_some_iff.mp hlast
  have hlogic : ∀ f, Call.logic f ∈ [(.run 5 : Call ℕ Empty DefaultLabeler Empty
      (Replier ℕ Empty DefaultLabeler Empty) Empty)] →
        ∀ l, Queue.Idles (10 ^ 30) l.queue (f l).queue := by simp
  exact sent_length_le usesGuards_replier (c := pinged) hlogic rfl (by decide) (by decide)
    (List.infix_refl _) hfirst hlast (Nat.zero_le _) (congrArg Prod.fst htime).le

/-! ## Without handlers -/

/-- `clock` is the time that a connection's clock has come to: it does not go back, and a sleep lasts
as long as it says. -/
structure Clocked {W E : Type} [Connection W E] (clock : W → ℕ) : Prop where
  now : ∀ w : W, clock w ≤ (Connection.now w).1 ∧ (Connection.now w).1 ≤ clock (Connection.now w).2
  writeAll : ∀ bytes w, clock w ≤ clock (Connection.writeAll bytes w).2
  flush : ∀ w, clock w ≤ clock (Connection.flush w).2
  sleep : ∀ duration (w : W), clock w + duration ≤ clock (Connection.sleep duration w)

section Flush

variable {clock : W → ℕ}

omit [LinearOrder I] [Adjuster Adj ClientMsg] [Labeler L]
  [Handlers.Handler H (ClientState I A × Queue ClientMsg L Adj)]
  [TimeoutFn T (ClientLogic I A L Adj H)] in
theorem popLoop_wait (hclock : Clocked clock) {w w' : W} {q q' : Queue ClientMsg L Adj}
    {bufO bufO' : List UInt8} {wait : ℕ}
    (h : (popLoop clockMax w q bufO).2 = some (some wait, w', q', bufO')) :
    q'.timepoint ≤ clock w' + q'.sub + wait := by
  fun_induction popLoop clockMax w q bufO with
  | case1 w q bufO hpop => cases h
  | case2 w q bufO q₁ hpop => cases h
  | case3 w q bufO wait' q₁ hpop =>
    obtain ⟨rfl, rfl, rfl, -⟩ : wait' = wait ∧ (Connection.now w).2 = w' ∧ q₁ = q' ∧
        bufO = bufO' := by
      simpa using h
    obtain ⟨rfl, -, hlt, hwait⟩ := Queue.of_pop_refused hpop
    have hnow := (hclock.now w).2
    omega
  | case4 w q bufO popped q₁ hpop sent r hr ih =>
    rw [hr] at ih
    exact ih h

omit [LinearOrder I] [Adjuster Adj ClientMsg] [Labeler L]
  [Handlers.Handler H (ClientState I A × Queue ClientMsg L Adj)]
  [TimeoutFn T (ClientLogic I A L Adj H)] in
/-- The first message is due, so that it is taken out of the queue, unless the next time point cannot
be represented. -/
theorem popLoop_due (hclock : Clocked clock) {w : W} {q : Queue ClientMsg L Adj}
    (hne : q.queue ≠ []) (hdue : q.timepoint ≤ clock w + q.sub) (bufO : List UInt8) :
    (popLoop clockMax w q bufO).1 ≠ [] ∨ (popLoop clockMax w q bufO).2 = none := by
  fun_cases popLoop clockMax w q bufO with
  | case1 hpop => exact .inr rfl
  | case2 q₁ hpop => exact absurd (Queue.of_pop_none hpop).2 hne
  | case3 wait q₁ hpop =>
    obtain ⟨-, -, hlt, -⟩ := Queue.of_pop_refused hpop
    have hnow := (hclock.now w).1
    omega
  | case4 popped q₁ hpop sent r hr => exact .inl (by simp)

/-- The message in front may be sent. -/
def Due (clock : W → ℕ) (c : Client I A L Adj H W E T) : Prop :=
  c.logic.queue.timepoint ≤ clock c.conn.writer + c.logic.queue.sub

omit [Adjuster Adj ClientMsg] [Labeler L]
  [Handlers.Handler H (ClientState I A × Queue ClientMsg L Adj)]
  [TimeoutFn T (ClientLogic I A L Adj H)] in
/-- **After a flush that tells of a wait**, the message in front may be sent once the wait is over. -/
theorem due_of_wait (hclock : Clocked clock) {c c' : Client I A L Adj H W E T} {wait : ℕ}
    (h : (flushPartial clockMax c).2 = some (.ok (some wait), c')) :
    Due clock { c' with conn := { c'.conn with
      writer := Connection.sleep wait c'.conn.writer } } := by
  unfold flushPartial at h
  split at h
  · cases h
  · rcases hp : popLoop clockMax c.conn.writer c.logic.queue c.conn.bufO with
      ⟨sent, _ | ⟨timeout, w, q, bufO⟩⟩
    · rw [hp] at h
      cases h
    · simp only [hp] at h
      rcases hwrite : Connection.writeAll bufO w with ⟨_ | _, w₁⟩
      · simp only [hwrite] at h
        cases h
      · rcases hflush : Connection.flush w₁ with ⟨_ | _, w₂⟩
        · simp only [hwrite, hflush] at h
          cases h
        · simp only [hwrite, hflush] at h
          obtain ⟨htimeout, rfl⟩ := Prod.mk.inj (Option.some.inj h)
          obtain rfl := Except.ok.inj htimeout
          have hwait := popLoop_wait hclock (congrArg Prod.snd hp)
          have hw₁ := hclock.writeAll bufO w
          have hw₂ := hclock.flush w₁
          have hslept := hclock.sleep wait w₂
          rw [hwrite] at hw₁
          rw [hflush] at hw₂
          unfold Due
          simp only at hw₁ hw₂ ⊢
          omega

omit [Adjuster Adj ClientMsg] [Labeler L]
  [Handlers.Handler H (ClientState I A × Queue ClientMsg L Adj)]
  [TimeoutFn T (ClientLogic I A L Adj H)] in
theorem flushPartial_due (hclock : Clocked clock) {c : Client I A L Adj H W E T}
    (hne : c.logic.queue.queue ≠ []) (hdue : Due clock c) :
    (flushPartial clockMax c).1 ≠ [] ∨ (flushPartial clockMax c).2 = none := by
  have hloop : (popLoop clockMax c.conn.writer c.logic.queue c.conn.bufO).1 ≠ [] ∨
      (popLoop clockMax c.conn.writer c.logic.queue c.conn.bufO).2 = none :=
    popLoop_due hclock hne hdue c.conn.bufO
  have hempty : c.logic.queue.isEmpty = false := by simpa [Queue.isEmpty] using hne
  unfold flushPartial
  rw [hempty]
  simp only [Bool.false_eq_true, if_false]
  rcases hp : popLoop clockMax c.conn.writer c.logic.queue c.conn.bufO with
    ⟨sent, _ | ⟨timeout, w, q, bufO⟩⟩
  · exact .inr rfl
  · rw [hp] at hloop
    refine .inl ?_
    have hsent : sent ≠ [] := by simpa using hloop
    simp only
    split
    · exact hsent
    · split
      · exact hsent
      · exact hsent

end Flush

/-- What `run` does with a queue when there are no handlers: it sends the messages in order, until
the connection fails or the clock overflows, or all of them are sent and it returns. -/
structure Flushes (queue : List ClientMsg)
    (r : RunLog × Option (Ended E (Client I A L Adj H W E T))) : Prop where
  heard : r.1.heard = []
  sent : r.1.sent.map Queue.Taken.msg <+: queue
  ends : r.2 = some .panicked ∨ (∃ e c, r.2 = some (.returned (.error (.conn e)) c)) ∨
    ∃ c, r.2 = some (.returned (.ok (some ([], []))) c) ∧ c.logic.needsRun = false ∧
      r.1.sent.map Queue.Taken.msg = queue

omit [Labeler L] in
theorem run_flushes_of {clock : W → ℕ} (hclock : Clocked clock) (passes : ℕ)
    {c : Client I A L Adj H W E T} (hempty : c.logic.handlers.isEmpty = true)
    (hpasses : c.logic.queue.queue.length + 1 < passes ∨
      Due clock c ∧ c.logic.queue.queue.length < passes) :
    Flushes c.logic.queue.queue (run clockMax parseFuel fuel passes c) := by
  induction passes generalizing c with
  | zero => omega
  | succ passes ih =>
    obtain ⟨q, hpops, hspec⟩ := flushPartial_spec clockMax c
    have hqueue := hpops.queue_eq
    have hprefix : (flushPartial clockMax c).1.map Queue.Taken.msg <+: c.logic.queue.queue :=
      ⟨q.queue, hqueue.symm⟩
    have hdue : c.logic.queue.queue ≠ [] → Due clock c →
      (flushPartial clockMax c).1 ≠ [] ∨ (flushPartial clockMax c).2 = none :=
      fun hne hdue => flushPartial_due hclock hne hdue
    rw [run, pass]
    rcases hf : flushPartial clockMax c with ⟨sent, _ | ⟨e | waitFor, c'⟩⟩
    · rw [hf] at hprefix
      exact ⟨rfl, hprefix, .inl rfl⟩
    · obtain ⟨e, rfl⟩ := flushPartial_error clockMax (congrArg Prod.snd hf)
      rw [hf] at hprefix
      exact ⟨rfl, hprefix, .inr (.inl ⟨e, c', rfl⟩)⟩
    · rw [hf] at hprefix hspec hdue hqueue
      obtain ⟨hc', hnone⟩ := hspec _ _ rfl
      have hempty' : c'.logic.handlers.isEmpty = true := by
        rw [hc']
        exact hempty
      simp only [hempty', if_true]
      cases waitFor with
      | none =>
        have hq := hnone rfl
        rw [hq, List.append_nil] at hqueue
        refine ⟨rfl, hprefix, .inr (.inr ⟨c', rfl, ?_, hqueue.symm⟩)⟩
        have hq' : c'.logic.queue.queue = [] := by
          rw [hc']
          exact hq
        simp [ClientLogic.needsRun, hempty', Queue.isEmpty, hq']
      | some wait =>
        have hslept := due_of_wait hclock (congrArg Prod.snd hf)
        have hlen : c'.logic.queue.queue.length < passes := by
          have hsame : c'.logic.queue.queue = q.queue := by rw [hc']
          have hlengths := congrArg List.length hqueue
          simp only [List.length_append, List.length_map] at hlengths
          rw [hsame]
          rcases hpasses with hpasses | ⟨hfirst, hpasses⟩
          · omega
          · -- the message in front was due, so that it was sent
            have hne : c.logic.queue.queue ≠ [] := by
              intro hnil
              have hisEmpty : c.logic.queue.isEmpty = true := by simp [Queue.isEmpty, hnil]
              rw [flushPartial, if_pos hisEmpty] at hf
              cases hf
            have hsome := hdue hne hfirst
            have hpos : 0 < sent.length := List.length_pos_iff.mpr (by simpa using hsome)
            omega
        have hrest := ih (c := { c' with conn := { c'.conn with
          writer := Connection.sleep wait c'.conn.writer } }) hempty' (.inr ⟨hslept, hlen⟩)
        have hqueue' : c.logic.queue.queue = sent.map Queue.Taken.msg ++ c'.logic.queue.queue := by
          rw [hqueue, hc']
        simp only
        rcases hr : run clockMax parseFuel fuel passes { c' with conn := { c'.conn with
          writer := Connection.sleep wait c'.conn.writer } } with ⟨log, r⟩
        rw [hr] at hrest
        refine ⟨?_, ?_, ?_⟩
        · exact hrest.heard
        · simp only [RunLog.sent_append, RunLog.ofSent, List.map_append]
          rw [hqueue', List.prefix_append_right_inj]
          exact hrest.sent
        · rcases hrest.ends with hpanic | herror | ⟨c'', hended, hneeds, hall⟩
          · exact .inl hpanic
          · exact .inr (.inl herror)
          · refine .inr (.inr ⟨c'', hended, hneeds, ?_⟩)
            simp only [RunLog.sent_append, RunLog.ofSent, List.map_append]
            rw [hqueue']
            exact congrArg _ hall

omit [Labeler L] in
/-- **Without handlers, `run` sends all of the queue**, with a pass of its loop for each message and
two more at most. -/
theorem run_flushes {clock : W → ℕ} (hclock : Clocked clock) {c : Client I A L Adj H W E T}
    (hempty : c.logic.handlers.isEmpty = true) {passes : ℕ}
    (hpasses : c.logic.queue.queue.length + 2 ≤ passes) :
    Flushes c.logic.queue.queue (run clockMax parseFuel fuel passes c) :=
  run_flushes_of hclock passes hempty (.inl hpasses)

theorem clocked_memory : Clocked MemoryConn.clock where
  now _ := ⟨Nat.le_refl _, Nat.le_refl _⟩
  writeAll _ _ := Nat.le_refl _
  flush _ := Nat.le_refl _
  sleep _ _ := Nat.le_refl _

/-- A client with nothing to do but to send, more than a burst of messages. -/
def sending : InMemory :=
  { pinged with
    logic := ⟨.default, .fromQueue 0 (List.replicate 7 (.new (.fromStr "MOTD"))), .new, .new⟩ }

/-- It sends five of them at once, and then waits twice. -/
theorem run_flushes_sending :
    Flushes (List.replicate 7 (ClientMsg.new (.fromStr "MOTD")))
        (run (10 ^ 30) 100 100 9 sending) ∧
      (run (10 ^ 30) 100 100 9 sending).1.sent.map (fun p => p.now) =
        [0, 0, 0, 0, 0, 2000000000, 4000000000] :=
  ⟨run_flushes clocked_memory (c := sending) rfl (by decide), by decide +kernel⟩

end Client

end Vinezombie
