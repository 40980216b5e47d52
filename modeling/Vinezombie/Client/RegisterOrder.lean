import Vinezombie.Client.RegisterSends

/-!
# The order of the negotiation

The log of a run of the registration handler has what was received and sent, in order.  `Phase` says
what the log has of the negotiation while the handler is in a state, and every micro step keeps it.

* `Micro.ordered`: a message is sent only where it may be sent.
* `negotiation_order`: `CAP END` is sent at most once, `AUTHENTICATE` and `CAP END` only when every
  requested capability was acknowledged, and nothing of the negotiation after `CAP END`.
-/

namespace Vinezombie

open Library Auth

namespace Register

/-! ## The log -/

/-- What is received and sent. -/
inductive Entry where
  | received (msg : ServerMsg)
  | sent (m : ClientMsg)
  deriving DecidableEq

namespace Handler

variable {N L : Type} [NickGen N] [SaslLogic L] [Base64.Engine]

/-- What is received and sent in a run.  A panic ends it. -/
def log (h : Handler N L) : List ServerMsg → List Entry
  | [] => []
  | msg :: msgs =>
    match h.handle msg with
    | .error _ => [.received msg]
    | .ok (h, sent, _) => .received msg :: sent.map .sent ++ h.log msgs

end Handler

/-- `CAP END` was sent. -/
def Ended (log : List Entry) : Prop := ∃ m, .sent m ∈ log ∧ IsEnd m

/-- A capability was acknowledged. -/
def Acked (log : List Entry) (cap : List UInt8) : Prop := ∃ msg, .received msg ∈ log ∧ Acks msg cap

/-- Every capability that was requested was acknowledged. -/
def AllAcked (log : List Entry) : Prop :=
  ∀ m, .sent m ∈ log → ∀ cap, Requests m cap → Acked log cap

/-- A message that may be sent next. -/
structure MaySend (log : List Entry) (m : ClientMsg) : Prop where
  not_ended : IsReq m ∨ IsAuth m ∨ IsEnd m → ¬ Ended log
  allAcked : IsAuth m ∨ IsEnd m → AllAcked log

/-- Every message of the log could be sent where it was sent. -/
def Ordered (log : List Entry) : Prop :=
  ∀ before m after, log = before ++ .sent m :: after → MaySend before m

theorem ordered_nil : Ordered [] := by
  intro before m after h
  exact absurd h (by simp)

theorem Ordered.snoc {log : List Entry} {e : Entry} (hlog : Ordered log)
    (he : ∀ m, e = .sent m → MaySend log m) : Ordered (log ++ [e]) := by
  intro before m after h
  rcases List.append_eq_append_iff.mp h with ⟨front, hbefore, hrest⟩ | ⟨front, hfront, hrest⟩
  · cases front with
    | nil =>
      rw [List.append_nil] at hbefore
      rw [hbefore]
      exact he m (List.cons.inj hrest).1
    | cons c front =>
      have := congrArg List.length hrest
      simp at this
  · cases front with
    | nil =>
      rw [List.append_nil] at hfront
      rw [← hfront]
      exact he m (List.cons.inj hrest).1.symm
    | cons c front =>
      rw [List.cons_append] at hrest
      rw [← (List.cons.inj hrest).1] at hfront
      exact hlog before m front hfront

/-- Messages that may be sent one after the other, by a fact about the log that they keep. -/
theorem Ordered.append {K : List Entry → Prop} {sent : List ClientMsg}
    (hK : ∀ log, ∀ m ∈ sent, K log → MaySend log m ∧ K (log ++ [.sent m])) {log : List Entry}
    (hlog : Ordered log) (hk : K log) :
    Ordered (log ++ sent.map .sent) ∧ K (log ++ sent.map .sent) := by
  induction sent generalizing log with
  | nil => simpa using ⟨hlog, hk⟩
  | cons m sent ih =>
    obtain ⟨hmay, hk'⟩ := hK log m List.mem_cons_self hk
    have hnext := ih (fun log' m' hm' => hK log' m' (List.mem_cons_of_mem _ hm'))
      (hlog.snoc fun m' hm' => Entry.sent.inj hm' ▸ hmay) hk'
    rw [List.append_assoc] at hnext
    exact hnext

theorem Acked.append {log : List Entry} {cap : List UInt8} (h : Acked log cap)
    (more : List Entry) : Acked (log ++ more) cap := by
  obtain ⟨msg, hmsg, hacks⟩ := h
  exact ⟨msg, List.mem_append_left _ hmsg, hacks⟩

theorem mem_snoc {log : List Entry} {e : Entry} {m : ClientMsg} :
    Entry.sent m ∈ log ++ [e] ↔ .sent m ∈ log ∨ e = .sent m := by
  rw [List.mem_append, List.mem_singleton]
  exact or_congr_right eq_comm

theorem not_ended_snoc {log : List Entry} {e : Entry} (hlog : ¬ Ended log)
    (he : ∀ m, e = .sent m → ¬ IsEnd m) : ¬ Ended (log ++ [e]) := by
  rintro ⟨m, hm, hend⟩
  rcases mem_snoc.mp hm with hm | hm
  · exact hlog ⟨m, hm, hend⟩
  · exact he m hm hend

/-! ## The state and the log -/

section

variable {L : Type}

/-- What the log has of the negotiation, by the state. -/
def Phase (log : List Entry) : HandlerState L → Prop
  | .req _ _ => ∀ m, .sent m ∈ log → ¬ IsReq m ∧ ¬ IsEnd m
  | .ack ackd _ => ¬ Ended log ∧ ∀ m, .sent m ∈ log → ∀ cap, Requests m cap →
      (∃ key ∈ ackd, key.bytes = cap) ∨ Acked log cap
  | .sasl _ => ¬ Ended log ∧ AllAcked log
  | .capEnd => ¬ Ended log ∧ AllAcked log
  | .awaitWelcome => True
  | .awaitEnd => True
  | .broken => True

/-- An entry that neither requests nor ends anything. -/
theorem Phase.snoc {log : List Entry} {e : Entry} {state : HandlerState L}
    (hphase : Phase log state) (he : ∀ m, e = .sent m → ¬ IsReq m ∧ ¬ IsEnd m) :
    Phase (log ++ [e]) state := by
  have hend : ¬ Ended log → ¬ Ended (log ++ [e]) :=
    fun h => not_ended_snoc h fun m hm => (he m hm).2
  have hreq : ∀ m, .sent m ∈ log ++ [e] → ∀ cap, Requests m cap → .sent m ∈ log := by
    intro m hm cap hcap
    rcases mem_snoc.mp hm with hm | hm
    · exact hm
    · exact absurd hcap.1 (he m hm).1
  have hall : AllAcked log → AllAcked (log ++ [e]) :=
    fun h m hm cap hcap => (h m (hreq m hm cap hcap) cap hcap).append _
  cases state with
  | req caps auths =>
    intro m hm
    rcases mem_snoc.mp hm with hm | hm
    · exact hphase m hm
    · exact he m hm
  | ack ackd queue =>
    refine ⟨hend hphase.1, fun m hm cap hcap => ?_⟩
    rcases hphase.2 m (hreq m hm cap hcap) cap hcap with h | h
    · exact .inl h
    · exact .inr (h.append _)
  | sasl handler => exact ⟨hend hphase.1, hall hphase.2⟩
  | capEnd => exact ⟨hend hphase.1, hall hphase.2⟩
  | _ => trivial

/-- `AUTHENTICATE` may be sent once everything is acknowledged. -/
theorem Ordered.append_auth {log : List Entry} {sent : List ClientMsg}
    (hsent : ∀ m ∈ sent, IsAuth m) (hlog : Ordered log) (hphase : ¬ Ended log ∧ AllAcked log) :
    Ordered (log ++ sent.map .sent) ∧
      (¬ Ended (log ++ sent.map .sent) ∧ AllAcked (log ++ sent.map .sent)) := by
  refine Ordered.append (K := fun log => ¬ Ended log ∧ AllAcked log) (fun log m hm hk => ?_) hlog
    hphase
  obtain ⟨hreq, hend⟩ := (hsent m hm).not_cap
  refine ⟨⟨fun _ => hk.1, fun _ => hk.2⟩, not_ended_snoc hk.1 ?_, ?_⟩
  · intro m' hm'
    exact Entry.sent.inj hm' ▸ hend
  · intro m' hm' cap hcap
    rcases mem_snoc.mp hm' with hm' | hm'
    · exact (hk.2 m' hm' cap hcap).append _
    · exact absurd hcap.1 (Entry.sent.inj hm' ▸ hreq)

/-- At first nothing is requested, and nothing is over. -/
theorem Phase.of_req {log : List Entry} {caps : CapFn} {auths : SaslQueue L}
    (h : Phase log (.req caps auths : HandlerState L)) :
    ¬ Ended log ∧ ∀ m, .sent m ∈ log → ∀ cap, ¬ Requests m cap := by
  refine ⟨?_, fun m hm cap hcap => (h m hm).1 hcap.1⟩
  rintro ⟨m, hm, hend⟩
  exact (h m hm).2 hend

/-- `CAP REQ` may be sent before `CAP END` is, for capabilities that are waited for then. -/
theorem Ordered.append_req {log : List Entry} {sent : List ClientMsg} {reqs : Finset Key}
    {queue : SaslQueue L} (hsent : ∀ m ∈ sent, ¬ IsEnd m ∧ ¬ IsAuth m ∧
      ∀ cap, Requests m cap → ∃ key ∈ reqs, key.bytes = cap)
    (hlog : Ordered log) (hphase : Phase log (.ack reqs queue : HandlerState L)) :
    Ordered (log ++ sent.map .sent) ∧
      Phase (log ++ sent.map .sent) (.ack reqs queue : HandlerState L) := by
  refine Ordered.append (K := fun log => Phase log (.ack reqs queue : HandlerState L))
    (fun log m hm hk => ?_) hlog hphase
  obtain ⟨hend, hauth, hcaps⟩ := hsent m hm
  refine ⟨⟨fun _ => hk.1, ?_⟩, not_ended_snoc hk.1 ?_, ?_⟩
  · rintro (h | h)
    · exact absurd h hauth
    · exact absurd h hend
  · intro m' hm'
    exact Entry.sent.inj hm' ▸ hend
  · intro m' hm' cap hcap
    rcases mem_snoc.mp hm' with hm' | hm'
    · rcases hk.2 m' hm' cap hcap with h | h
      · exact .inl h
      · exact .inr (h.append _)
    · rw [← Entry.sent.inj hm'] at hcap
      exact .inl (hcaps cap hcap)

variable [SaslLogic L] {msg : ServerMsg} {state state' : HandlerState L}

/-- **A micro step keeps the order.** -/
theorem Micro.ordered {log : List Entry} {sent : List ClientMsg} (h : Micro msg state sent state')
    (hmsg : .received msg ∈ log) (hlog : Ordered log) (hphase : Phase log state) :
    Ordered (log ++ sent.map .sent) ∧ Phase (log ++ sent.map .sent) state' := by
  have hnothing : ∀ s : HandlerState L, Phase log s →
      Ordered (log ++ [].map Entry.sent) ∧ Phase (log ++ [].map Entry.sent) s := by
    intro s hs
    rw [List.map_nil, List.append_nil]
    exact ⟨hlog, hs⟩
  -- when all that is waited for was acknowledged by this message
  have hacked : ∀ (ackd : Finset Key) (queue : SaslQueue L), Phase log (.ack ackd queue) →
      (∀ key ∈ ackd, Acks msg key.bytes) → ¬ Ended log ∧ AllAcked log := by
    intro ackd queue hp hall
    refine ⟨hp.1, fun m hm cap hcap => ?_⟩
    rcases hp.2 m hm cap hcap with ⟨key, hkey, rfl⟩ | hdone
    · exact ⟨msg, hmsg, hall key hkey⟩
    · exact hdone
  cases h with
  | quiet _ _ hother =>
    refine Ordered.append (K := fun log => Phase log state) (fun log m hm hk => ?_) hlog hphase
    obtain ⟨hreq, hend, hauth⟩ := hother m hm
    refine ⟨⟨?_, ?_⟩, hk.snoc fun m' hm' => Entry.sent.inj hm' ▸ ⟨hreq, hend⟩⟩
    · rintro (h | h | h)
      · exact absurd h hreq
      · exact absurd h hauth
      · exact absurd h hend
    · rintro (h | h)
      · exact absurd h hauth
      · exact absurd h hend
  | welcome => exact hnothing _ trivial
  | request caps auths auths' reqs sent hsent =>
    obtain ⟨hended, hnone⟩ := Phase.of_req hphase
    exact Ordered.append_req hsent hlog
      ⟨hended, fun m hm cap hcap => absurd hcap (hnone m hm cap)⟩
  | requestNothing caps auths =>
    obtain ⟨hended, hnone⟩ := Phase.of_req hphase
    exact hnothing _ ⟨hended, fun m hm cap hcap => absurd hcap (hnone m hm cap)⟩
  | requestFails => exact hnothing _ trivial
  | acked ackd ackd' queue hleft =>
    refine hnothing _ ⟨hphase.1, fun m hm cap hcap => ?_⟩
    rcases hphase.2 m hm cap hcap with ⟨key, hkey, rfl⟩ | hdone
    · rcases hleft key hkey with h | h
      · exact .inl ⟨key, h, rfl⟩
      · exact .inr ⟨msg, hmsg, h⟩
    · exact .inr hdone
  | allAcked ackd queue hall => exact hnothing _ (hacked ackd queue hphase hall)
  | authenticates ackd queue handler hall =>
    refine Ordered.append_auth ?_ hlog (hacked ackd queue hphase hall)
    intro m hm
    rw [List.mem_singleton.mp hm]
    rfl
  | sasl handler handler' sent hsent => exact Ordered.append_auth hsent hlog hphase
  | saslEnds handler sent hsent => exact Ordered.append_auth hsent hlog hphase
  | capEnd =>
    refine ⟨hlog.snoc fun m hm => ?_, trivial⟩
    exact ⟨fun _ => hphase.1, fun _ => hphase.2⟩

end

namespace Handler

section

variable {N L : Type} [NickGen N] [SaslLogic L] [Base64.Engine]

/-- **A run keeps the order.** -/
theorem ordered_log (msgs : List ServerMsg) (h : Handler N L) (seen : List Entry)
    (hseen : Ordered seen) (hphase : Phase seen h.state) : Ordered (seen ++ h.log msgs) := by
  induction msgs generalizing h seen with
  | nil => rwa [log, List.append_nil]
  | cons msg msgs ih =>
    have hreceived : Ordered (seen ++ [.received msg]) := hseen.snoc fun m hm => by simp at hm
    have hphase' : Phase (seen ++ [.received msg]) h.state := hphase.snoc fun m hm => by simp at hm
    rw [log]
    cases hout : h.handle msg with
    | error p => exact hreceived
    | ok out =>
      obtain ⟨h', sent, r⟩ := out
      obtain ⟨s₁, s₂, sent₁, sent₂, sent₃, hm₁, hm₂, hm₃, rfl⟩ := micro_handle hout
      obtain ⟨ho₁, hp₁⟩ := hm₁.ordered (by simp) hreceived hphase'
      obtain ⟨ho₂, hp₂⟩ := hm₂.ordered (by simp) ho₁ hp₁
      obtain ⟨ho₃, hp₃⟩ := hm₃.ordered (by simp) ho₂ hp₂
      have hrest := ih h' _ ho₃ hp₃
      simpa using hrest

/-- **The order of the negotiation.**  In every run of a new handler: when `AUTHENTICATE` or
`CAP END` is sent, every capability that a `CAP REQ` named so far was named by a `CAP ACK`; and once
`CAP END` is sent, there is no `CAP REQ`, no `AUTHENTICATE` and no `CAP END` any more. -/
theorem negotiation_order (nicks : Nick × Option N) (caps : CapFn) (needsAuth : Bool)
    (auths : SaslQueue L) (msgs : List ServerMsg) (before after : List Entry) (m : ClientMsg)
    (hlog : (Handler.new nicks caps needsAuth auths).log msgs = before ++ .sent m :: after) :
    (IsAuth m ∨ IsEnd m → ∀ req, .sent req ∈ before → ∀ cap, Requests req cap →
      ∃ ack, .received ack ∈ before ∧ Acks ack cap) ∧
    (IsEnd m → ∀ m', .sent m' ∈ after → ¬ IsReq m' ∧ ¬ IsAuth m' ∧ ¬ IsEnd m') := by
  have hall : Ordered ((Handler.new nicks caps needsAuth auths).log msgs) := by
    have := ordered_log msgs (Handler.new nicks caps needsAuth auths) [] ordered_nil
      (show Phase [] (HandlerState.req caps auths) from fun m hm => absurd hm (by simp))
    rwa [List.nil_append] at this
  refine ⟨fun hm => (hall before m after hlog).allAcked hm, fun hend m' hm' => ?_⟩
  obtain ⟨mid, rest, rfl⟩ := List.append_of_mem hm'
  have hmay := hall (before ++ .sent m :: mid) m' rest (by rw [hlog]; simp)
  have hended : Ended (before ++ .sent m :: mid) := ⟨m, by simp, hend⟩
  exact ⟨fun h => hmay.not_ended (.inl h) hended, fun h => hmay.not_ended (.inr (.inl h)) hended,
    fun h => hmay.not_ended (.inr (.inr h)) hended⟩

end

/-- A `CAP` message to a client without a nick, about one capability. -/
def capReplyMsg (subcmd cap : Arg) : ServerMsg :=
  ⟨Tags.new, none, .cmd Cap.cap, Args.ofWords [star, subcmd, cap]⟩

/-- A capability is offered, requested and acknowledged. -/
theorem negotiation_order_acked :
    letI := emptyEngine
    Requests (((ClientMsg.new Cap.cap).add (.fromStr "REQ")).add (.fromStr "x")) (text "x") ∧
      ∃ ack, Entry.received ack ∈ [.received (capReplyMsg (.fromStr "LS") (.fromStr "x")),
        .sent (((ClientMsg.new Cap.cap).add (.fromStr "REQ")).add (.fromStr "x")),
        .received (capReplyMsg (.fromStr "ACK") (.fromStr "x"))] ∧
        Acks ack (text "x") := by
  let _ : Base64.Engine := emptyEngine
  have hreq : Requests (((ClientMsg.new Cap.cap).add (.fromStr "REQ")).add (.fromStr "x"))
      (text "x") :=
    ⟨rfl, by decide, .fromStr "x", rfl, by decide +kernel⟩
  refine ⟨hreq, ?_⟩
  exact (negotiation_order (N := Nick) (L := ExternalLogic) (.fromStr "nick", none)
    (fun _ => {(.fromStr "x" : Key)}) false .new
    [capReplyMsg (.fromStr "LS") (.fromStr "x"), capReplyMsg (.fromStr "ACK") (.fromStr "x")] _ []
    ((ClientMsg.new Cap.cap).add (.fromStr "END")) (by decide +kernel)).1 (.inr rfl)
    (((ClientMsg.new Cap.cap).add (.fromStr "REQ")).add (.fromStr "x")) (by simp) (text "x") hreq

end Handler

end Register

end Vinezombie
