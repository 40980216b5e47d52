import Vinezombie.Client.CapReq
import Vinezombie.Client.RegisterSteps

/-!
# What the registration handler sends

The messages with which capabilities are negotiated: `CAP REQ`, `CAP END` and `AUTHENTICATE`, and
the states in which the handler sends them.  A step of the handler is three `Micro` steps, one for
the SASL handler, one for the `match` and one for what follows it; a micro step says which state
leads to which, what is sent on the way, and which acknowledgements it takes.

* `requests_req`: what the messages of `req` name.
* `micro_onAck`: what is no longer waited for was acknowledged.
* `micro_handle`: a step, as three micro steps.
-/

namespace Vinezombie

open Library Auth

namespace Register

/-! ## Messages of the negotiation -/

/-- The first argument of a `CAP` message. -/
def capSubcmd (m : ClientMsg) : Option (List UInt8) :=
  if m.cmd = Cap.cap then m.args.words.head?.map Str.bytes else none

/-- `CAP REQ`. -/
def IsReq (m : ClientMsg) : Prop := capSubcmd m = some (text "REQ")

/-- `CAP END`. -/
def IsEnd (m : ClientMsg) : Prop := capSubcmd m = some (text "END")

/-- `AUTHENTICATE`. -/
def IsAuth (m : ClientMsg) : Prop := m.cmd = authenticate

/-- A `CAP REQ` names a capability: it is a word of the last argument. -/
def Requests (m : ClientMsg) (cap : List UInt8) : Prop :=
  IsReq m ∧ cap ≠ [] ∧ ∃ last ∈ m.args.splitLast.2, cap ∈ last.bytes.splitOn (byte ' ')

/-- A `CAP ACK` names a capability. -/
def Acks (msg : ServerMsg) (cap : List UInt8) : Prop :=
  msg.kind.asBytes = text "CAP" ∧ ∃ capMsg, Cap.ServerMsgArgs.parse msg.args = .ok capMsg ∧
    capMsg.subcmd = .ack ∧ ∃ key ∈ capMsg.caps.keys, key.bytes = cap

/-! ## Requests -/

/-- **The messages of `req`** are requests, and name what was to be requested. -/
theorem requests_req {caps : List Key} {client : Option Arg} {server : Option Source}
    {m : ClientMsg} (hm : m ∈ Cap.req caps client server) :
    ∀ cap, Requests m cap → ∃ key ∈ caps, key.bytes = cap := by
  rintro cap ⟨-, hne, last, hlast, hcap⟩
  obtain ⟨group, hgroup, hsub⟩ := Cap.exists_joined_of_mem_req hm
  have hbytes : last.bytes = Cap.joined group := by
    rw [← hgroup, Cap.lastArg, Option.mem_def.mp hlast]
    rfl
  have hword : cap ∈ Cap.words (Cap.joined group) := by
    rw [← hbytes]
    exact List.mem_filter.mpr ⟨hcap, by simpa using hne⟩
  rw [Cap.words_joined] at hword
  obtain ⟨key, hkey, rfl⟩ := List.mem_map.mp hword
  exact ⟨key, hsub key hkey, rfl⟩

/-! ## Micro steps -/

/-- A message that has no part in the negotiation. -/
structure IsOther (m : ClientMsg) : Prop where
  not_req : ¬ IsReq m
  not_end : ¬ IsEnd m
  not_auth : ¬ IsAuth m

theorem isOther_of_cmd {m : ClientMsg} (hcap : m.cmd ≠ Cap.cap) (hauth : m.cmd ≠ authenticate) :
    IsOther m := by
  have hsub : capSubcmd m = none := if_neg hcap
  refine ⟨?_, ?_, hauth⟩
  · rw [IsReq, hsub]
    simp
  · rw [IsEnd, hsub]
    simp

theorem IsAuth.not_cap {m : ClientMsg} (h : IsAuth m) : ¬ IsReq m ∧ ¬ IsEnd m := by
  have hsub : capSubcmd m = none := if_neg (by rw [h]; decide)
  rw [IsReq, IsEnd, hsub]
  simp

/-- A `NICK` message has no part in the negotiation. -/
theorem isOther_of_nick {m : ClientMsg} (hcmd : m.cmd = Nick.cmd) : IsOther m := by
  refine isOther_of_cmd ?_ ?_
  · rw [hcmd]
    decide
  · rw [hcmd]
    decide

section

variable {N L : Type} [SaslLogic L]

/-- What may happen at once when `msg` was received: a state, what is sent, and the next state. -/
inductive Micro (msg : ServerMsg) : HandlerState L → List ClientMsg → HandlerState L → Prop
  | quiet (state : HandlerState L) (sent : List ClientMsg) :
    (∀ m ∈ sent, IsOther m) → Micro msg state sent state
  | welcome (state : HandlerState L) : Micro msg state [] .awaitEnd
  /-- The capabilities `reqs` are requested. -/
  | request (caps : CapFn) (auths auths' : SaslQueue L) (reqs : Finset Key)
      (sent : List ClientMsg) :
    (∀ m ∈ sent, ¬ IsEnd m ∧ ¬ IsAuth m ∧
      ∀ cap, Requests m cap → ∃ key ∈ reqs, key.bytes = cap) →
    Micro msg (.req caps auths) sent (.ack reqs auths')
  | requestNothing (caps : CapFn) (auths : SaslQueue L) : Micro msg (.req caps auths) [] .capEnd
  | requestFails (caps : CapFn) (auths : SaslQueue L) : Micro msg (.req caps auths) [] .broken
  /-- What is no longer waited for was acknowledged. -/
  | acked (ackd ackd' : Finset Key) (queue : SaslQueue L) :
    (∀ key ∈ ackd, key ∈ ackd' ∨ Acks msg key.bytes) →
    Micro msg (.ack ackd queue) [] (.ack ackd' queue)
  | allAcked (ackd : Finset Key) (queue : SaslQueue L) :
    (∀ key ∈ ackd, Acks msg key.bytes) → Micro msg (.ack ackd queue) [] .capEnd
  | authenticates (ackd : Finset Key) (queue : SaslQueue L) (handler : Auth.Handler L) :
    (∀ key ∈ ackd, Acks msg key.bytes) →
    Micro msg (.ack ackd queue) [handler.authMsg] (.sasl handler)
  | sasl (handler handler' : Auth.Handler L) (sent : List ClientMsg) :
    (∀ m ∈ sent, IsAuth m) → Micro msg (.sasl handler) sent (.sasl handler')
  | saslEnds (handler : Auth.Handler L) (sent : List ClientMsg) :
    (∀ m ∈ sent, IsAuth m) → Micro msg (.sasl handler) sent .capEnd
  | capEnd : Micro msg .capEnd [(ClientMsg.new Cap.cap).add (.fromStr "END")] .awaitWelcome

variable {msg : ServerMsg} {h h' : Handler N L}

theorem Micro.refl (state : HandlerState L) : Micro msg state [] state :=
  .quiet state [] (by simp)

/-- What an arm of the `match` does from a state, as a micro step. -/
def Does (msg : ServerMsg) (state : HandlerState L) (out : Handler N L × List ClientMsg × Flow) :
    Prop :=
  Micro msg state out.2.1 out.1.state

/-- A quiet arm. -/
theorem does_of_quiet {out : Handler N L × List ClientMsg × Flow} (hquiet : h.Quiet out) :
    Does msg h.state out := by
  rw [Does, hquiet.state]
  exact .quiet h.state _ fun m hm => isOther_of_nick (hquiet.sent m hm)

theorem does_ite {c : Prop} [Decidable c] {state : HandlerState L}
    {out out' : Handler N L × List ClientMsg × Flow} (hout : Does msg state out)
    (hout' : Does msg state out') : Does msg state (if c then out else out') := by
  split
  · exact hout
  · exact hout'

namespace Handler

theorem does_setWhoami (whoami : Option Arg) : Does msg h.state (h.setWhoami whoami) :=
  does_of_quiet (quiet_setWhoami whoami)

theorem does_handleLoggedIn : Does msg h.state (h.handleLoggedIn msg) := by
  rcases handleLoggedIn_cases h msg with ⟨-, heq⟩ | ⟨account, whoami, -, heq⟩
  · rw [heq]
    exact .refl h.state
  · rw [heq]
    exact does_setWhoami (h := { h with reg := { h.reg with account := some account } }) whoami

/-- The messages of `req` are no other messages of the negotiation. -/
theorem not_isEnd_isAuth_req {caps : List Key} {client : Option Arg} {server : Option Source}
    {m : ClientMsg} (hm : m ∈ Cap.req caps client server) : ¬ IsEnd m ∧ ¬ IsAuth m := by
  unfold Cap.req at hm
  dsimp only at hm
  obtain ⟨line, -, rfl⟩ := List.mem_map.mp hm
  obtain ⟨more, hwords⟩ := (Args.splitLast_add ((ClientMsg.new Cap.cap).add (.fromStr "REQ")).args
    line).2
  have hsub : capSubcmd (((ClientMsg.new Cap.cap).add (.fromStr "REQ")).add line) =
      some (text "REQ") := by
    show (if Cap.cap = Cap.cap then _ else none) = _
    rw [if_pos rfl]
    show (((ClientMsg.new Cap.cap).add (.fromStr "REQ")).args.add line).2.words.head?.map _ = _
    rw [hwords]
    rfl
  constructor
  · rw [IsEnd, hsub]
    decide
  · show Cap.cap ≠ authenticate
    decide

theorem does_handleReq (caps : CapFn) (auths : SaslQueue L) :
    Does msg (.req caps auths) (h.handleReq caps auths) := by
  unfold handleReq
  refine does_ite (.requestFails caps auths) ?_
  refine does_ite (.requestFails caps auths) ?_
  refine does_ite (.requestNothing caps auths) ?_
  refine .request caps auths _ _ _ fun m hm => ?_
  obtain ⟨hend, hauth⟩ := not_isEnd_isAuth_req hm
  refine ⟨hend, hauth, fun cap hcap => ?_⟩
  obtain ⟨key, hkey, rfl⟩ := requests_req hm cap hcap
  exact ⟨key, (Finset.mem_sort _).mp hkey, rfl⟩

/-- **An acknowledgement**, or what is none: only what was acknowledged is no longer waited for. -/
theorem micro_onAck (state : HandlerState L) (ack : Bool) (caps : OrderedMap Key Word)
    (hack : ack = true → ∀ key ∈ caps.keys, Acks msg key.bytes) :
    Micro msg state (state.onAck ack caps).2.1 (state.onAck ack caps).1 := by
  cases state with
  | ack ackd queue =>
    have hleft : ∀ key ∈ ackd, key ∈ (if ack = true then ackd \ caps.keys.toFinset else ackd) ∨
        Acks msg key.bytes := by
      intro key hkey
      by_cases ha : ack = true
      · rw [if_pos ha]
        by_cases hmem : key ∈ caps.keys
        · exact .inr (hack ha key hmem)
        · exact .inl (by simp [hkey, hmem])
      · rw [if_neg ha]
        exact .inl hkey
    unfold HandlerState.onAck
    dsimp only
    generalize (if ack = true then ackd \ caps.keys.toFinset else ackd) = left at hleft ⊢
    split
    · exact .refl _
    · split
      · rename_i hempty
        have hall : ∀ key ∈ ackd, Acks msg key.bytes := by
          intro key hkey
          rcases hleft key hkey with h | h
          · rw [hempty] at h
            exact absurd h (by simp)
          · exact h
        cases Auth.Handler.fromQueue queue with
        | none => exact .allAcked ackd queue hall
        | some handler => exact .authenticates ackd queue handler hall
      · exact .acked ackd _ queue hleft
  | _ => exact .refl _

theorem does_handleAck (ack : Bool) (caps : OrderedMap Key Word)
    (andThen : Handler N L → Handler N L) (hthen : ∀ h, (andThen h).state = h.state)
    (hack : ack = true → ∀ key ∈ caps.keys, Acks msg key.bytes) :
    Does msg h.state (h.handleAck ack caps andThen) := by
  have hmicro : Micro msg h.state _ _ := micro_onAck h.state ack caps hack
  unfold handleAck
  split
  · rename_i state sent e hon
    rw [hon] at hmicro
    exact hmicro
  · rename_i state sent hon
    rw [hon] at hmicro
    show Micro msg h.state sent (andThen { h with state }).state
    rw [hthen]
    exact hmicro

theorem does_of_capArm {out : Handler N L × List ClientMsg × Flow}
    (hkind : msg.kind.asBytes = text "CAP") (harm : CapArm msg h out) : Does msg h.state out := by
  cases harm with
  | refused e => exact .refl h.state
  | inserts caps => exact .refl h.state
  | requests caps reqs auths hstate =>
    rw [hstate]
    exact does_handleReq reqs auths
  | ack capMsg hparse hsub =>
    exact does_handleAck _ _ _ (fun _ => rfl)
      fun _ key hkey => ⟨hkind, capMsg, hparse, hsub, key, hkey, rfl⟩
  | nak caps => exact does_handleAck _ _ _ (fun _ => rfl) (by simp)
  | del caps h₁ hr =>
    obtain ⟨m, rfl⟩ := removeCaps_ok hr
    exact does_handleAck (h := { h with reg := { h.reg with caps := m } }) _ _ _
      (fun _ => rfl) (by simp)

/-! ## A step -/

/-- A `PONG` has no part in the negotiation. -/
theorem isOther_of_pong {reply : ClientMsg} (hpong : pong msg = some reply) : IsOther reply := by
  have hcmd : reply.cmd = .fromStr "PONG" := by
    unfold pong at hpong
    split at hpong
    · dsimp only at hpong
      split at hpong
      · rw [← Option.some.inj hpong]
        rfl
      · rw [← Option.some.inj hpong]
        rfl
    · exact absurd hpong (by simp)
  refine isOther_of_cmd ?_ ?_
  · rw [hcmd]
    decide
  · rw [hcmd]
    decide

/-- What follows the `match`. -/
theorem micro_finish (retval : Option Registration) :
    Micro msg h.state (h.finish retval).2.1 (h.finish retval).1.state := by
  cases hstate : h.state with
  | capEnd =>
    unfold finish
    rw [hstate]
    dsimp only
    split
    · rw [hstate]
      exact .refl _
    · exact .capEnd
  | _ =>
    unfold finish
    rw [hstate]
    dsimp only
    rw [hstate]
    exact .refl _

variable [NickGen N]

/-- **The `match`**: what each of its arms does. -/
theorem does_dispatch {ignoreSasl : Bool} {out : Handler N L × List ClientMsg × Flow}
    (hout : h.dispatch ignoreSasl msg = .ok out) : Does msg h.state out := by
  cases took_of_dispatch hout with
  | quiet _ _ _ _ hquiet => exact does_of_quiet hquiet
  | welcome => exact .welcome h.state
  | ends => exact .refl h.state
  | loggedIn => exact does_handleLoggedIn
  | loggedOut => exact does_setWhoami (h := { h with reg := { h.reg with account := none } }) _
  | cap _ hkind hcap => exact does_of_capArm hkind (capArm_handleCap hcap)

variable [Base64.Engine]

omit [NickGen N] in
theorem isAuth_of_mem_handleChallenge (handler : Auth.Handler L) (chal : List UInt8) :
    ∀ m ∈ (handler.handleChallenge chal).2.1, IsAuth m := by
  intro m hm
  unfold Auth.Handler.handleChallenge at hm
  split at hm
  · dsimp only at hm
    split at hm
    · rw [List.mem_singleton.mp hm]
      rfl
    · rw [List.mem_singleton.mp hm]
      rfl
  · obtain ⟨chunk, -, rfl⟩ := List.mem_map.mp hm
    rfl

omit [NickGen N] in
/-- The SASL handler sends `AUTHENTICATE` messages only. -/
theorem isAuth_of_mem_handle (handler : Auth.Handler L) (msg : ServerMsg) :
    ∀ m ∈ (handler.handle msg).2.1, IsAuth m := by
  intro m hm
  unfold Auth.Handler.handle at hm
  dsimp only at hm
  split at hm
  · unfold Auth.Handler.handleAuthenticate at hm
    dsimp only at hm
    split at hm
    · exact absurd hm (by simp)
    · rw [List.mem_singleton.mp hm]
      rfl
    · exact isAuth_of_mem_handleChallenge _ _ m hm
  · split at hm
    · unfold Auth.Handler.handleFail at hm
      split at hm
      · rw [List.mem_singleton.mp hm]
        rfl
      · exact absurd hm (by simp)
    · split at hm
      · exact absurd hm (by simp)
      · split at hm
        · rw [List.mem_singleton.mp hm]
          rfl
        · split at hm
          · unfold Auth.Handler.handleMechs at hm
            dsimp only at hm
            split at hm
            · exact absurd hm (by simp)
            · exact absurd hm (by simp)
          · split at hm
            · exact absurd hm (by simp)
            · exact absurd hm (by simp)

omit [NickGen N] in
/-- The SASL handler, while there is one. -/
theorem micro_handleSasl : Micro msg h.state (h.handleSasl msg).2.1 (h.handleSasl msg).1.state := by
  cases hstate : h.state with
  | sasl handler =>
    have hauth := isAuth_of_mem_handle handler msg
    unfold handleSasl
    rw [hstate]
    dsimp only
    split
    · rename_i hout
      rw [hout] at hauth
      exact .sasl _ _ _ hauth
    · rename_i hout
      rw [hout] at hauth
      exact .saslEnds _ _ hauth
    · rename_i hout
      rw [hout] at hauth
      exact .saslEnds _ _ hauth
  | _ =>
    unfold handleSasl
    rw [hstate]
    dsimp only
    rw [hstate]
    exact .refl _

/-- **A step is three micro steps.** -/
theorem micro_handle {sent : List ClientMsg} {r : Except HandlerError (Option Registration)}
    (hout : h.handle msg = .ok (h', sent, r)) :
    ∃ state₁ state₂ sent₁ sent₂ sent₃, Micro msg h.state sent₁ state₁ ∧
      Micro msg state₁ sent₂ state₂ ∧ Micro msg state₂ sent₃ h'.state ∧
      sent = sent₁ ++ sent₂ ++ sent₃ := by
  obtain ⟨source, hsource⟩ := noteSource_eq h msg
  have hnote : (h.noteSource msg).state = h.state := by rw [hsource]
  have hsasl : Micro msg (h.noteSource msg).state _ _ := micro_handleSasl
  rw [hnote] at hsasl
  cases parts_of_handle hout with
  | pong reply hpong =>
    refine ⟨h.state, h.state, [reply], [], [], ?_, .refl _, ?_, by simp⟩
    · exact .quiet h.state [reply] fun m hm => List.mem_singleton.mp hm ▸ isOther_of_pong hpong
    · rw [hnote]
      exact .refl _
  | ret ignoreSasl h₁ sent₂ result hdisp =>
    exact ⟨_, _, _, sent₂, [], hsasl, does_dispatch hdisp, .refl _, by simp⟩
  | go ignoreSasl h₁ sent₂ retval hdisp =>
    exact ⟨_, _, _, sent₂, _, hsasl, does_dispatch hdisp, micro_finish retval, rfl⟩

end Handler

end

end Register

end Vinezombie
