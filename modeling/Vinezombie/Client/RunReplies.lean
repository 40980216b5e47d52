import Vinezombie.Client.Run

/-!
# The replies of a running client

A client whose handlers only put messages into the queue, as `AutoPong` and `CtcpVersion` do, sends
what it had to send at first, and then the replies to the messages that it hears: to each message
those of all handlers, in order, and nothing else (`replied_runs`).  What it has not sent yet is
waiting in the queue.
-/

namespace Vinezombie

open Library

/-- Pops leave the adjuster alone. -/
theorem Queue.Pops.adjuster_eq {M L A : Type} {clockMax : ℕ} {q q' : Queue M L A}
    {sent : List (Queue.Taken M)} (h : Pops clockMax q sent q') : q'.adjuster = q.adjuster := by
  induction h with
  | nil q => rfl
  | @cons now later m q q₁ q' sent hpop _ ih =>
    rw [ih]
    rcases pop_cases clockMax now later q with ⟨-, hp⟩ | ⟨-, -, hp⟩ | ⟨v, rest, -, -, -, hp⟩ |
      ⟨-, -, -, hp⟩
    · cases hpop.symm.trans hp
    · cases hpop.symm.trans hp
    · rw [(Prod.mk.inj (Option.some.inj (hpop.symm.trans hp))).2]
    · cases hpop.symm.trans hp

namespace Handlers

variable {H M L Adj S : Type} [Handler H (S × Queue M L Adj)]

/-- All that a handler does is to push what it replies. -/
structure Replies (reply : H → ServerMsg → List M) : Prop where
  isBreak : ∀ (h : H) msg ctx, (Handler.handle h msg ctx).isBreak = false
  handler : ∀ (h : H) msg ctx, (Handler.handle h msg ctx).handler = h
  queue : ∀ (h : H) msg ctx, (Handler.handle h msg ctx).ctx.2 =
    { ctx.2 with queue := ctx.2.queue ++ reply h msg }

/-- The replies of all handlers to a message. -/
def replies (reply : H → ServerMsg → List M) (handlers : List (H × ℕ)) (msg : ServerMsg) : List M :=
  handlers.flatMap fun h => reply h.1 msg

theorem handleLoop_replies {reply : H → ServerMsg → List M} (h : Replies reply) (msg : ServerMsg)
    (rest front : List (H × ℕ)) (self : Handlers H) (ctx : S × Queue M L Adj)
    (hself : self.handlers = front ++ rest) :
    (handleLoop msg self front.length ctx).1.handlers = self.handlers ∧
      (handleLoop msg self front.length ctx).2.2 =
        { ctx.2 with queue := ctx.2.queue ++ replies reply rest msg } := by
  induction rest generalizing front self ctx with
  | nil =>
    rw [List.append_nil] at hself
    rw [← hself, handleLoop_of_end]
    exact ⟨rfl, by simp [replies]⟩
  | cons hd rest ih =>
    obtain ⟨handler, id⟩ := hd
    have hcall : boxHandler handler msg ctx =
        (.keep (Handler.handle handler msg ctx).didSend (Handler.wantsOwning handler), handler,
          (Handler.handle handler msg ctx).ctx) := by
      unfold boxHandler
      simp only [h.isBreak, h.handler, Bool.false_eq_true, if_false]
    rw [handleLoop_keep hself hcall]
    obtain ⟨hhandlers, hqueue⟩ := ih (front ++ [(handler, id)])
      { self with
        handlers := front ++ [(handler, id)] ++ rest
        yielded := pushIf (Handler.handle handler msg ctx).didSend self.yielded id
        wantsOwning := self.wantsOwning || Handler.wantsOwning handler }
      (Handler.handle handler msg ctx).ctx rfl
    refine ⟨hhandlers.trans (by simp [hself]), hqueue.trans ?_⟩
    rw [h.queue]
    simp [replies]

/-- **A message is replied to** by all handlers, in order. -/
theorem handle_replies {reply : H → ServerMsg → List M} (h : Replies reply) (msg : ServerMsg)
    (self : Handlers H) (ctx : S × Queue M L Adj) :
    (self.handle msg ctx).2.1.handlers = self.handlers ∧
      (self.handle msg ctx).2.2.2 =
        { ctx.2 with queue := ctx.2.queue ++ replies reply self.handlers msg } :=
  handleLoop_replies h msg self.handlers [] { self with wantsOwning := false, yielded := [] } ctx rfl

end Handlers

namespace Client

variable {I A L Adj H W E T : Type} [LinearOrder I] [Adjuster Adj ClientMsg] [Connection W E]
  [Handlers.Handler H (ClientState I A × Queue ClientMsg L Adj)]
  [TimeoutFn T (ClientLogic I A L Adj H)] {clockMax parseFuel fuel : ℕ}
  {reply : H → ServerMsg → List ClientMsg}

/-- The account of the replies: what was sent and what waits is what waited at first, and the
replies to what was heard. -/
structure Replied (reply : H → ServerMsg → List ClientMsg) (first : List ClientMsg)
    (handlers : List (H × ℕ)) (log : RunLog) (c : Client I A L Adj H W E T) : Prop where
  sent : log.sent.map Queue.Taken.msg ++ c.logic.queue.queue =
    first ++ log.heard.flatMap (Handlers.replies reply handlers)
  handlers : c.logic.handlers.handlers = handlers
  adjuster : c.logic.queue.adjuster = none

/-- What else is done to the logic leaves the queue and the handlers alone. -/
def LeavesAlone (f : ClientLogic I A L Adj H → ClientLogic I A L Adj H) : Prop :=
  ∀ logic, (f logic).queue = logic.queue ∧ (f logic).handlers = logic.handlers

/-- **The replies are accounted for.** -/
theorem account_replied (hreplies : Handlers.Replies reply)
    (hclosure : ∀ (f : T) (logic : ClientLogic I A L Adj H),
      (TimeoutFn.call f logic).2.2.queue = logic.queue ∧
        (TimeoutFn.call f logic).2.2.handlers = logic.handlers)
    (first : List ClientMsg) (handlers : List (H × ℕ)) :
    Account clockMax parseFuel fuel
      (Replied reply first handlers : RunLog → Client I A L Adj H W E T → Prop)
      (fun log => log.sent.map Queue.Taken.msg <+:
        first ++ log.heard.flatMap (Handlers.replies reply handlers))
      (fun _ => True) where
  safe log c h := ⟨c.logic.queue.queue, h.sent⟩
  time _ _ := trivial
  flush log c h := by
    obtain ⟨q₁, hpops, hspec⟩ := flushPartial_spec clockMax c
    have hsent : (log.append (.ofSent (flushPartial clockMax c).1)).sent.map Queue.Taken.msg ++
        q₁.queue = first ++ log.heard.flatMap (Handlers.replies reply handlers) := by
      rw [RunLog.sent_append, List.map_append, List.append_assoc, RunLog.ofSent, ← hpops.queue_eq]
      exact h.sent
    have hheard : (log.append (.ofSent (flushPartial clockMax c).1)).heard = log.heard :=
      List.append_nil _
    rw [hheard]
    refine ⟨⟨q₁.queue, hsent⟩, fun r c' hr _ => ?_⟩
    rw [(hspec r c' hr).1]
    exact ⟨hheard ▸ hsent, h.handlers, hpops.adjuster_eq.trans h.adjuster⟩
  sleep log c wait h := ⟨h.sent, h.handlers, h.adjuster⟩
  limits log c waitFor h := ⟨h.sent, h.handlers, h.adjuster⟩
  failed log c deadline e c' h hread _ := by
    obtain ⟨hlogic, -, -⟩ := readMsg_logic hread
    exact ⟨hlogic ▸ h.sent, hlogic ▸ h.handlers, hlogic ▸ h.adjuster⟩
  timeoutFn log c f h _ := by
    obtain ⟨hqueue, hhandlers⟩ := hclosure f c.logic
    exact ⟨hqueue ▸ h.sent, hhandlers ▸ h.handlers, hqueue ▸ h.adjuster⟩
  heard log c deadline msg c' h hread := by
    obtain ⟨hlogic, -, -⟩ := readMsg_logic hread
    have hadjust : c.logic.queue.adjust msg = c.logic.queue := by
      unfold Queue.adjust
      rw [h.adjuster]
    obtain ⟨hhandlers, hqueue⟩ := Handlers.handle_replies hreplies msg c.logic.handlers
      (c.logic.state, c.logic.queue)
    rw [hlogic]
    unfold ClientLogic.runOnce
    rw [hadjust]
    refine ⟨?_, hhandlers.trans h.handlers, ?_⟩
    · show _ ++ (c.logic.handlers.handle msg (c.logic.state, c.logic.queue)).2.2.2.queue = _
      rw [hqueue, RunLog.sent_append, RunLog.heard_append, List.flatMap_append, List.append_nil,
        ← List.append_assoc, h.sent, h.handlers, List.append_assoc]
      simp
    · show (c.logic.handlers.handle msg (c.logic.state, c.logic.queue)).2.2.2.adjuster = none
      rw [hqueue]
      exact h.adjuster

/-- **What a client with such handlers sends**: what waited at first, and then the replies to what
it hears, each once and in order. -/
theorem replied_runs (hreplies : Handlers.Replies reply)
    (hclosure : ∀ (f : T) (logic : ClientLogic I A L Adj H),
      (TimeoutFn.call f logic).2.2.queue = logic.queue ∧
        (TimeoutFn.call f logic).2.2.handlers = logic.handlers)
    (c : Client I A L Adj H W E T) (hadjuster : c.logic.queue.adjuster = none)
    (calls : List (Call I A L Adj H T)) (hlogic : ∀ f, .logic f ∈ calls → LeavesAlone f) :
    (runs clockMax parseFuel fuel c calls).1.sent.map Queue.Taken.msg <+:
        c.logic.queue.queue ++ (runs clockMax parseFuel fuel c calls).1.heard.flatMap
          (Handlers.replies reply c.logic.handlers.handlers) ∧
      ∀ c', (runs clockMax parseFuel fuel c calls).2.2 = some c' →
        (runs clockMax parseFuel fuel c calls).1.sent.map Queue.Taken.msg ++ c'.logic.queue.queue =
          c.logic.queue.queue ++ (runs clockMax parseFuel fuel c calls).1.heard.flatMap
            (Handlers.replies reply c.logic.handlers.handlers) := by
  have h : Account clockMax parseFuel fuel
      (Replied reply c.logic.queue.queue c.logic.handlers.handlers :
        RunLog → Client I A L Adj H W E T → Prop) _ (fun _ => True) :=
    account_replied hreplies hclosure _ _
  have hfine : ∀ a ∈ (runs clockMax parseFuel fuel c calls).2.1, a.Fine fun _ => True := by
    intro a _
    cases a <;> simp [Answer.Fine]
  have hstart : Replied reply c.logic.queue.queue c.logic.handlers.handlers .empty c :=
    ⟨by simp [RunLog.empty], rfl, hadjuster⟩
  obtain ⟨hsafe, hinv⟩ := h.runs calls
    (fun f hf log c hc => by
      obtain ⟨hqueue, hhandlers⟩ := hlogic f hf c.logic
      exact ⟨hqueue ▸ hc.sent, hhandlers ▸ hc.handlers, hqueue ▸ hc.adjuster⟩)
    (fun f _ log c hc => ⟨hc.sent, hc.handlers, hc.adjuster⟩) hstart hfine
  rw [RunLog.empty_append] at hsafe hinv
  exact ⟨hsafe, fun c' hc' => (hinv c' hc').sent⟩

omit [Adjuster Adj ClientMsg] in
/-- `AutoPong` and `CtcpVersion` only reply. -/
theorem replies_replier :
    Handlers.Replies fun (h : Replier I A L Adj) msg => (h.reply msg).toList where
  isBreak _ _ _ := rfl
  handler _ _ _ := rfl
  queue h msg ctx := by
    simp only [Handlers.Handler.handle]
    cases h.reply msg with
    | none => simp
    | some reply => rfl

theorem replied_runs_pinged :
    (runs (10 ^ 30) 100 100 pinged [.run 5]).1.sent.map Queue.Taken.msg <+:
      [ClientMsg.new (.fromStr "NAMES")] ++
        (runs (10 ^ 30) 100 100 pinged [.run 5]).1.heard.flatMap
          (Handlers.replies (fun (h : Replier ℕ Empty DefaultLabeler Empty) msg =>
            (h.reply msg).toList) [(.autoPong, 0)]) :=
  (replied_runs replies_replier (fun f => f.elim) pinged rfl [.run 5] (by simp)).1

end Client

end Vinezombie
