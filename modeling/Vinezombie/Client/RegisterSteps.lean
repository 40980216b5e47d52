import Vinezombie.Client.Defaults
import Vinezombie.Util.FlatMapInserts

/-!
# What a message does to the registration handler

Each piece of `Handler::handle` has one lemma, which says what it can change: whether a login is
required never changes, an account is set by 900 only, the last state is entered by 001 only, the
capabilities stay strictly sorted, and the ISUPPORT tokens sorted.  `Moves` is that, and it composes.

* `removeCaps_eq`, `removeCaps_error`: the removal of capabilities, which may panic.
* `capCase_handleCap`, `took_of_dispatch`, `parts_of_handle`: what the arm for `CAP`, the `match` and
  a step come to.
* `comes_dispatch`: the arms of the `match`, one by one.
* `step`, `moves_handle`: a whole step, and when it can report success.
-/

namespace Vinezombie

open Library Library.KeyedList Auth

namespace Register

/-! ## Messages -/

/-- A 900 message that names an account. -/
def SetsAccount (msg : ServerMsg) : Prop :=
  msg.kind.asBytes = text "900" ∧ msg.args.splitLast.1 ≠ []

/-- A 901 message. -/
def LogsOut (msg : ServerMsg) : Prop := msg.kind.asBytes = text "901"

/-- 376 and 422. -/
def EndsMotd (msg : ServerMsg) : Prop := msg.kind.asBytes ∈ [text "376", text "422"]

/-- A 001 message. -/
def IsWelcome (msg : ServerMsg) : Prop := msg.kind.asBytes = text "001"

/-- Whether an arm ends in success. -/
def Flow.succeeds : Flow → Bool
  | .ret (.ok (some _)) => true
  | .go (some _) => true
  | _ => false

namespace Handler

variable {N L : Type} {msg : ServerMsg} {h h' h'' : Handler N L}

/-! ## What may change -/

/-- What a message may change. -/
structure Moves (msg : ServerMsg) (h h' : Handler N L) : Prop where
  needsAuth : h'.needsAuth = h.needsAuth
  account : h'.reg.account.isSome = true → h.reg.account.isSome = true ∨ SetsAccount msg
  awaitEnd : h'.state.isAwaitEnd = true → h.state.isAwaitEnd = true ∨ IsWelcome msg
  strictSorted : StrictSorted NameMap.tag h.reg.caps.vec → StrictSorted NameMap.tag h'.reg.caps.vec
  isupport : Sorted NameMap.tag h.reg.isupport.vec → Sorted NameMap.tag h'.reg.isupport.vec

theorem Moves.trans (h₁ : Moves msg h h') (h₂ : Moves msg h' h'') : Moves msg h h'' where
  needsAuth := h₂.needsAuth.trans h₁.needsAuth
  account hs := (h₂.account hs).elim h₁.account .inr
  awaitEnd hs := (h₂.awaitEnd hs).elim h₁.awaitEnd .inr
  strictSorted hs := h₂.strictSorted (h₁.strictSorted hs)
  isupport hs := h₂.isupport (h₁.isupport hs)

/-- Everything else may change at will. -/
theorem Moves.of_eq (hauth : h'.needsAuth = h.needsAuth) (haccount : h'.reg.account = h.reg.account)
    (hcaps : h'.reg.caps = h.reg.caps)
    (hisupport : Sorted NameMap.tag h.reg.isupport.vec → Sorted NameMap.tag h'.reg.isupport.vec)
    (hstate : h'.state.isAwaitEnd = true → h.state.isAwaitEnd = true) : Moves msg h h' where
  needsAuth := hauth
  account hs := .inl (by rwa [haccount] at hs)
  awaitEnd hs := .inl (hstate hs)
  strictSorted hs := by rwa [hcaps]
  isupport := hisupport

theorem Moves.refl (h : Handler N L) : Moves msg h h :=
  .of_eq rfl rfl rfl id id

/-- What an arm may do: change what a message may change, and succeed in the last state only. -/
structure Effect (msg : ServerMsg) (h : Handler N L) (out : Handler N L × List ClientMsg × Flow) :
    Prop where
  moves : Moves msg h out.1
  success : out.2.2.succeeds = true → h.state.isAwaitEnd = true

/-- An arm that does not succeed. -/
theorem Effect.of_moves {sent : List ClientMsg} {flow : Flow} (hmoves : Moves msg h h')
    (hflow : flow.succeeds = false) : Effect msg h (h', sent, flow) :=
  ⟨hmoves, fun hs => absurd (hflow.symm.trans hs) (by simp)⟩

theorem Effect.unchanged {sent : List ClientMsg} {flow : Flow} (hflow : flow.succeeds = false) :
    Effect msg h (h, sent, flow) :=
  .of_moves (.refl h) hflow

/-- An arm that first makes a change which leaves the state as it is. -/
theorem Effect.after {out : Handler N L × List ClientMsg × Flow} (hmoves : Moves msg h h')
    (hstate : h'.state = h.state) (heffect : Effect msg h' out) : Effect msg h out :=
  ⟨hmoves.trans heffect.moves, fun hs => hstate ▸ heffect.success hs⟩

/-! ## Quiet arms -/

/-- An arm that leaves the state, the account and the capabilities alone, sends a `NICK` message at
most, and does not succeed. -/
structure Quiet (h : Handler N L) (out : Handler N L × List ClientMsg × Flow) : Prop where
  state : out.1.state = h.state
  needsAuth : out.1.needsAuth = h.needsAuth
  account : out.1.reg.account = h.reg.account
  caps : out.1.reg.caps = h.reg.caps
  isupport : Sorted NameMap.tag h.reg.isupport.vec → Sorted NameMap.tag out.1.reg.isupport.vec
  sent : ∀ m ∈ out.2.1, m.cmd = Nick.cmd
  fails : out.2.2.succeeds = false

/-- An arm that sends nothing and changes nothing but the rest of the registration. -/
theorem Quiet.of_eq {flow : Flow} (hstate : h'.state = h.state)
    (hauth : h'.needsAuth = h.needsAuth) (haccount : h'.reg.account = h.reg.account)
    (hcaps : h'.reg.caps = h.reg.caps)
    (hisupport : Sorted NameMap.tag h.reg.isupport.vec → Sorted NameMap.tag h'.reg.isupport.vec)
    (hflow : flow.succeeds = false) : Quiet h (h', [], flow) :=
  ⟨hstate, hauth, haccount, hcaps, hisupport, by simp, hflow⟩

theorem Quiet.unchanged {flow : Flow} (hflow : flow.succeeds = false) : Quiet h (h, [], flow) :=
  .of_eq rfl rfl rfl rfl id hflow

/-- Insertions of ISUPPORT tokens leave them sorted. -/
theorem sorted_isupport (tokens : List (Key × Word)) {m : NameMap Unit}
    (hs : Sorted NameMap.tag m.vec) :
    Sorted NameMap.tag ((tokens.foldl (fun ism kv => (ism.insert NameMap.tag (kv, ())).2)
      m.edit).drop NameMap.tag).vec := by
  have hfold : ∀ ism : EditGuard ((Key × Word) × Unit), Sorted NameMap.tag ism.sorted →
      Sorted NameMap.tag (tokens.foldl (fun ism kv => (ism.insert NameMap.tag (kv, ())).2)
        ism).sorted := by
    induction tokens with
    | nil => exact fun _ hism => hism
    | cons kv tokens ih => exact fun ism hism => ih _ (EditGuard.sorted_insert hism (kv, ()))
  refine EditGuard.sorted_drop (hfold m.edit ?_)
  rwa [EditGuard.sorted_edit]

theorem quiet_handleISupport : Quiet h (h.handleISupport msg) := by
  unfold handleISupport
  split
  · exact .unchanged rfl
  · exact .of_eq rfl rfl rfl rfl (sorted_isupport _) rfl

theorem quiet_handleBounce : Quiet h (h.handleBounce msg) := by
  unfold handleBounce
  split
  · exact .unchanged rfl
  · split
    · exact .unchanged rfl
    · exact .unchanged rfl

theorem quiet_handleRedirect : Quiet h (h.handleRedirect msg) := by
  unfold handleRedirect
  split
  · split
    · exact .unchanged rfl
    · exact .unchanged rfl
  · exact .unchanged rfl

theorem quiet_nextNick [NickGen N] : Quiet h h.nextNick := by
  unfold nextNick
  split
  · exact .unchanged rfl
  · refine ⟨rfl, rfl, rfl, rfl, id, fun m hm => ?_, rfl⟩
    rw [List.mem_singleton.mp hm]
    rfl

theorem quiet_handleInvalidNick [NickGen N] : Quiet h h.handleInvalidNick := by
  obtain ⟨hstate, hauth, haccount, hcaps, hisupport, hsent, hfails⟩ := quiet_nextNick (h := { h with
    nicks := h.nicks.bind fun ng => NickGen.handleInvalid ng h.reg.nick })
  exact ⟨hstate, hauth, haccount, hcaps, hisupport, hsent, hfails⟩

theorem quiet_setWhoami (whoami : Option Arg) : Quiet h (h.setWhoami whoami) := by
  unfold setWhoami
  split
  · exact .unchanged rfl
  · split
    · exact .unchanged rfl
    · exact .of_eq rfl rfl rfl rfl id rfl

theorem Quiet.effect {out : Handler N L × List ClientMsg × Flow} (hquiet : Quiet h out) :
    Effect msg h out :=
  ⟨.of_eq hquiet.needsAuth hquiet.account hquiet.caps hquiet.isupport fun hs => hquiet.state ▸ hs,
    fun hs => absurd (hquiet.fails.symm.trans hs) (by simp)⟩

/-! ## Before the `match` -/

theorem noteSource_eq (h : Handler N L) (msg : ServerMsg) :
    ∃ source, h.noteSource msg = { h with reg := { h.reg with source } } := by
  unfold noteSource
  split
  · exact ⟨_, rfl⟩
  · exact ⟨h.reg.source, rfl⟩

theorem kind_of_pong {reply : ClientMsg} (hpong : pong msg = some reply) :
    msg.kind.asBytes = text "PING" := by
  by_contra hne
  rw [pong, if_neg hne] at hpong
  exact absurd hpong (by simp)

section

variable [SaslLogic L] [Base64.Engine]

theorem handleSasl_eq (h : Handler N L) (msg : ServerMsg) :
    ∃ state, (h.handleSasl msg).1 = { h with state } ∧ state.isAwaitEnd = h.state.isAwaitEnd := by
  cases hstate : h.state with
  | sasl sasl =>
    unfold handleSasl
    rw [hstate]
    dsimp only
    split
    · exact ⟨_, rfl, rfl⟩
    · exact ⟨_, rfl, rfl⟩
    · exact ⟨_, rfl, rfl⟩
  | _ =>
    refine ⟨h.state, ?_, by rw [hstate]⟩
    unfold handleSasl
    rw [hstate]
    dsimp only
    rw [← hstate]

end

/-! ## The arms -/

/-- 001 leaves the account, the capabilities and the ISUPPORT tokens alone. -/
theorem handleWelcome_eq (h : Handler N L) (msg : ServerMsg) :
    ∃ reg : Registration,
      h.handleWelcome msg = ({ h with reg, state := .awaitEnd }, [], .go none) ∧
        reg.account = h.reg.account ∧ reg.caps = h.reg.caps ∧ reg.isupport = h.reg.isupport := by
  unfold handleWelcome
  refine ⟨_, rfl, ?_⟩
  cases hsource : msg.source with
  | none =>
    dsimp only
    split
    · exact ⟨rfl, rfl, rfl⟩
    · exact ⟨rfl, rfl, rfl⟩
  | some source =>
    dsimp only
    -- the nick of the message, and then whether its source is the one on record
    split
    · split
      · exact ⟨rfl, rfl, rfl⟩
      · exact ⟨rfl, rfl, rfl⟩
    · split
      · exact ⟨rfl, rfl, rfl⟩
      · exact ⟨rfl, rfl, rfl⟩

theorem effect_handleWelcome (hwelcome : IsWelcome msg) : Effect msg h (h.handleWelcome msg) := by
  obtain ⟨reg, heq, haccount, hcaps, hisupport⟩ := handleWelcome_eq h msg
  have hmoves : Moves msg h { h with reg, state := .awaitEnd } :=
    { needsAuth := rfl
      account := fun hs => .inl (by rwa [haccount] at hs)
      awaitEnd := fun _ => .inr hwelcome
      strictSorted := fun hs => by rwa [hcaps]
      isupport := fun hs => by rwa [hisupport] }
  rw [heq]
  exact .of_moves hmoves rfl

theorem effect_handleEnd (hstate : h.state.isAwaitEnd = true) : Effect msg h h.handleEnd where
  moves :=
    { needsAuth := rfl
      account := fun hs => absurd hs (by simp [handleEnd, Registration.default, Registration.new])
      awaitEnd := .inl
      strictSorted := fun _ => strictSorted_nil
      isupport := fun _ => List.Pairwise.nil }
  success := fun _ => hstate

/-- **900**: without an account it does nothing; else it sets it, and what the server calls us. -/
theorem handleLoggedIn_cases (h : Handler N L) (msg : ServerMsg) :
    (msg.args.splitLast.1 = [] ∧ h.handleLoggedIn msg = (h, [], .go none)) ∨
    ∃ account whoami, msg.args.splitLast.1 ≠ [] ∧ h.handleLoggedIn msg =
      setWhoami { h with reg := { h.reg with account := some account } } whoami := by
  unfold handleLoggedIn
  dsimp only
  split
  · rename_i hlast
    exact .inl ⟨List.getLast?_eq_none_iff.mp hlast, rfl⟩
  · rename_i account hlast
    refine .inr ⟨account, _, fun hnil => ?_, rfl⟩
    rw [hnil] at hlast
    exact absurd hlast (by simp)

theorem effect_handleLoggedIn (hkind : msg.kind.asBytes = text "900") :
    Effect msg h (h.handleLoggedIn msg) := by
  rcases handleLoggedIn_cases h msg with ⟨-, heq⟩ | ⟨account, whoami, hsome, heq⟩
  · rw [heq]
    exact .unchanged rfl
  · have hmoves : Moves msg h { h with reg := { h.reg with account := some account } } :=
      { needsAuth := rfl
        account := fun _ => .inr ⟨hkind, hsome⟩
        awaitEnd := .inl
        strictSorted := id
        isupport := id }
    rw [heq]
    exact .after hmoves rfl (quiet_setWhoami _).effect

theorem effect_handleLoggedOut : Effect msg h (h.handleLoggedOut msg) := by
  have hmoves : Moves msg h { h with reg := { h.reg with account := none } } :=
    { needsAuth := rfl
      account := fun hs => absurd hs (by simp)
      awaitEnd := .inl
      strictSorted := id
      isupport := id }
  exact .after hmoves rfl (quiet_setWhoami _).effect

/-! ## `CAP` -/

theorem moves_insertCaps (caps : OrderedMap Key Word) : Moves msg h (h.insertCaps caps) where
  needsAuth := rfl
  account := .inl
  awaitEnd := .inl
  strictSorted hs := (NameMap.keeps_tryInsert false).strictSorted_foldl hs caps.nodup_keys
  isupport := id

theorem moves_updateCaps (caps : OrderedMap Key Word) : Moves msg h (h.updateCaps caps) where
  needsAuth := rfl
  account := .inl
  awaitEnd := .inl
  strictSorted hs := (NameMap.keeps_insertOrUpdate true).strictSorted_foldl hs caps.nodup_keys
  isupport := id

/-- The capability is among those that the handler knows. -/
abbrev Knows (h : Handler N L) (cap : Key) : Prop := EditGuard.Holds NameMap.tag h.reg.caps cap

/-- **Removal of capabilities** of which at most one is known. -/
theorem removeCaps_eq (hs : StrictSorted NameMap.tag h.reg.caps.vec) (caps : OrderedMap Key Word)
    (hone : ∀ k ∈ caps.keys, ∀ k' ∈ caps.keys, h.Knows k → h.Knows k' → k = k') :
    ∃ m : NameMap Bool, h.removeCaps caps = .ok { h with reg := { h.reg with caps := m } } ∧
      m.vec = h.reg.caps.vec.filter fun e => decide (NameMap.tag e ∉ caps.keys) := by
  obtain ⟨g, hg, hdrop⟩ := EditGuard.removeAll_edit hs caps.pairwise_keys hone
  refine ⟨g.drop NameMap.tag, ?_, hdrop⟩
  rw [removeCaps, hg]
  rfl

/-- **Removal of capabilities** of which two are known. -/
theorem removeCaps_error (hs : StrictSorted NameMap.tag h.reg.caps.vec) (caps : OrderedMap Key Word)
    (htwo : ¬ ∀ k ∈ caps.keys, ∀ k' ∈ caps.keys, h.Knows k → h.Knows k' → k = k') :
    ∃ p, h.removeCaps caps = .error p := by
  push Not at htwo
  obtain ⟨p, hp⟩ := EditGuard.removeAll_edit_error hs caps.pairwise_keys htwo
  refine ⟨p, ?_⟩
  rw [removeCaps, hp]
  rfl

theorem removeCaps_ok {caps : OrderedMap Key Word} (hr : h.removeCaps caps = .ok h') :
    ∃ m : NameMap Bool, h' = { h with reg := { h.reg with caps := m } } := by
  unfold removeCaps at hr
  cases hg : h.reg.caps.edit.removeAll NameMap.tag caps.keys with
  | error p =>
    rw [hg] at hr
    exact absurd hr (by simp [Except.map])
  | ok g =>
    rw [hg] at hr
    exact ⟨g.drop NameMap.tag, (Except.ok.inj hr).symm⟩

theorem moves_removeCaps {caps : OrderedMap Key Word} (hr : h.removeCaps caps = .ok h') :
    Moves msg h h' := by
  obtain ⟨m, rfl⟩ := removeCaps_ok hr
  refine ⟨rfl, .inl, .inl, fun hs => ?_, id⟩
  by_cases hone : ∀ k ∈ caps.keys, ∀ k' ∈ caps.keys, h.Knows k → h.Knows k' → k = k'
  · obtain ⟨m', hr', hm'⟩ := removeCaps_eq hs caps hone
    rw [hr, Except.ok.injEq] at hr'
    rw [hr']
    show StrictSorted NameMap.tag m'.vec
    rw [hm']
    exact List.Pairwise.filter _ hs
  · obtain ⟨p, hp⟩ := removeCaps_error hs caps hone
    rw [hr] at hp
    exact absurd hp (by simp)

section

variable [SaslLogic L]

theorem effect_handleReq (reqs : CapFn) (auths : SaslQueue L) :
    Effect msg h (h.handleReq reqs auths) := by
  have hmoves : ∀ state : HandlerState L, state.isAwaitEnd = false →
      Moves msg h { h with state } := fun state hstate =>
    .of_eq rfl rfl rfl id fun hs => absurd (hstate.symm.trans hs) (by simp)
  unfold handleReq
  dsimp only
  split_ifs <;> exact .of_moves (hmoves _ rfl) rfl

/-- An acknowledgement does not lead to the last state. -/
theorem isAwaitEnd_onAck (state : HandlerState L) (ack : Bool) (caps : OrderedMap Key Word) :
    (state.onAck ack caps).1.isAwaitEnd = state.isAwaitEnd := by
  cases state with
  | ack ackd queue =>
    unfold HandlerState.onAck
    dsimp only
    cases Auth.Handler.fromQueue queue with
    | none => split_ifs <;> rfl
    | some handler => split_ifs <;> rfl
  | _ => rfl

/-- What an acknowledgement does to the handler. -/
theorem effect_handleAck (ack : Bool) (caps : OrderedMap Key Word)
    (andThen : Handler N L → Handler N L) (hthen : ∀ h, Moves msg h (andThen h)) :
    Effect msg h (h.handleAck ack caps andThen) := by
  have hstate := isAwaitEnd_onAck h.state ack caps
  unfold handleAck
  split
  · rename_i state sent e hack
    rw [hack] at hstate
    exact .of_moves (.of_eq rfl rfl rfl id fun hs => hstate ▸ hs) rfl
  · rename_i state sent hack
    rw [hack] at hstate
    have hmoves : Moves msg h { h with state } := .of_eq rfl rfl rfl id fun hs => hstate ▸ hs
    exact .of_moves (hmoves.trans (hthen _)) rfl

/-- **What the arm for `CAP` does**, by the message. -/
inductive CapCase (msg : ServerMsg) (h : Handler N L) :
    Except Panic (Handler N L × List ClientMsg × Flow) → Prop
  | malformed (e : ParseError) : Cap.ServerMsgArgs.parse msg.args = .error e →
    CapCase msg h (.ok (h, [], .err (.broken (.parse e))))
  | adds (args : Cap.ServerMsgArgs) : Cap.ServerMsgArgs.parse msg.args = .ok args →
    args.subcmd = .ls ∨ args.subcmd = .new →
    CapCase msg h (.ok (h.insertCaps args.caps, [], .go none))
  | asks (args : Cap.ServerMsgArgs) (reqs : CapFn) (auths : SaslQueue L) :
    Cap.ServerMsgArgs.parse msg.args = .ok args → args.subcmd = .ls → args.isLast = true →
    h.state = .req reqs auths → CapCase msg h (.ok ((h.insertCaps args.caps).handleReq reqs auths))
  | ack (args : Cap.ServerMsgArgs) : Cap.ServerMsgArgs.parse msg.args = .ok args →
    args.subcmd = .ack →
    CapCase msg h (.ok (h.handleAck true args.caps fun h => h.updateCaps args.caps))
  | nak (args : Cap.ServerMsgArgs) : Cap.ServerMsgArgs.parse msg.args = .ok args →
    args.subcmd = .nak → CapCase msg h (.ok (h.handleAck false args.caps id))
  | del (args : Cap.ServerMsgArgs) (h₁ : Handler N L) :
    Cap.ServerMsgArgs.parse msg.args = .ok args → args.subcmd = .del →
    h.removeCaps args.caps = .ok h₁ → CapCase msg h (.ok (h₁.handleAck false args.caps id))
  | panics (args : Cap.ServerMsgArgs) (p : Panic) : Cap.ServerMsgArgs.parse msg.args = .ok args →
    args.subcmd = .del → h.removeCaps args.caps = .error p → CapCase msg h (.error p)
  | list (args : Cap.ServerMsgArgs) (e : HandlerError) :
    Cap.ServerMsgArgs.parse msg.args = .ok args → args.subcmd = .list →
    CapCase msg h (.ok (h, [], .err e))

theorem capCase_handleCap (msg : ServerMsg) (h : Handler N L) :
    CapCase msg h (h.handleCap msg) := by
  unfold handleCap
  cases hparse : Cap.ServerMsgArgs.parse msg.args with
  | error e => exact .malformed e hparse
  | ok args =>
    dsimp only
    cases hsub : args.subcmd with
    | ls =>
      dsimp only
      split
      · rename_i hlast
        split
        · rename_i reqs auths hstate
          exact .asks args reqs auths hparse hsub hlast hstate
        · exact .adds args hparse (.inl hsub)
      · exact .adds args hparse (.inl hsub)
    | new => exact .adds args hparse (.inr hsub)
    | ack => exact .ack args hparse hsub
    | nak => exact .nak args hparse hsub
    | del =>
      dsimp only
      cases hr : h.removeCaps args.caps with
      | error p => exact .panics args p hparse hsub hr
      | ok h₁ => exact .del args h₁ hparse hsub hr
    | list => exact .list args _ hparse hsub

/-- What the arm for `CAP` comes to, if it does not panic. -/
inductive CapArm (msg : ServerMsg) (h : Handler N L) : Handler N L × List ClientMsg × Flow → Prop
  | refused (e : HandlerError) : CapArm msg h (h, [], .err e)
  | inserts (caps : OrderedMap Key Word) : CapArm msg h (h.insertCaps caps, [], .go none)
  | requests (caps : OrderedMap Key Word) (reqs : CapFn) (auths : SaslQueue L) :
    h.state = .req reqs auths → CapArm msg h ((h.insertCaps caps).handleReq reqs auths)
  | ack (capMsg : Cap.ServerMsgArgs) : Cap.ServerMsgArgs.parse msg.args = .ok capMsg →
    capMsg.subcmd = .ack →
    CapArm msg h (h.handleAck true capMsg.caps fun h => h.updateCaps capMsg.caps)
  | nak (caps : OrderedMap Key Word) : CapArm msg h (h.handleAck false caps id)
  | del (caps : OrderedMap Key Word) (h₁ : Handler N L) : h.removeCaps caps = .ok h₁ →
    CapArm msg h (h₁.handleAck false caps id)

theorem capArm_handleCap {out : Handler N L × List ClientMsg × Flow}
    (hout : h.handleCap msg = .ok out) : CapArm msg h out := by
  have hcase := capCase_handleCap msg h
  rw [hout] at hcase
  cases hcase with
  | malformed e hparse => exact .refused _
  | adds args hparse hsub => exact .inserts _
  | asks args reqs auths hparse hsub hlast hstate => exact .requests _ reqs auths hstate
  | ack args hparse hsub => exact .ack args hparse hsub
  | nak args hparse hsub => exact .nak _
  | del args h₁ hparse hsub hr => exact .del _ h₁ hr
  | list args e hparse hsub => exact .refused _

theorem CapArm.effect {out : Handler N L × List ClientMsg × Flow} (harm : CapArm msg h out) :
    Effect msg h out := by
  cases harm with
  | refused e => exact .unchanged rfl
  | inserts caps => exact .of_moves (moves_insertCaps _) rfl
  | requests caps reqs auths hstate =>
    exact .after (moves_insertCaps _) rfl (effect_handleReq _ _)
  | ack capMsg => exact effect_handleAck _ _ _ fun _ => moves_updateCaps _
  | nak caps => exact effect_handleAck _ _ _ .refl
  | del caps h₁ hr =>
    obtain ⟨m, hm⟩ := removeCaps_ok hr
    exact .after (moves_removeCaps hr) (by rw [hm]) (effect_handleAck _ _ _ .refl)

/-! ## The whole -/

variable [NickGen N]

/-- **What the `match` comes to.** -/
inductive Arm (msg : ServerMsg) (h : Handler N L) :
    Except Panic (Handler N L × List ClientMsg × Flow) → Prop
  | quiet (out : Handler N L × List ClientMsg × Flow) : msg.kind.asBytes ≠ text "900" →
    msg.kind.asBytes ≠ text "901" → ¬ (EndsMotd msg ∧ h.state.isAwaitEnd = true) →
    Quiet h out → Arm msg h (.ok out)
  | welcome : IsWelcome msg → Arm msg h (.ok (h.handleWelcome msg))
  | ends : EndsMotd msg → h.state.isAwaitEnd = true → Arm msg h (.ok h.handleEnd)
  | loggedIn : msg.kind.asBytes = text "900" → Arm msg h (.ok (h.handleLoggedIn msg))
  | loggedOut : msg.kind.asBytes = text "901" → Arm msg h (.ok (h.handleLoggedOut msg))
  | cap : msg.kind.asBytes = text "CAP" → Arm msg h (h.handleCap msg)

omit [NickGen N] in
/-- An arm for messages of some kinds, of which none is 900, 901, 376 or 422. -/
theorem Arm.of_kind {out : Handler N L × List ClientMsg × Flow} (kinds : List (List UInt8))
    (hkind : msg.kind.asBytes ∈ kinds)
    (hkinds : [text "900", text "901", text "376", text "422"].all (· ∉ kinds) = true)
    (hquiet : Quiet h out) : Arm msg h (.ok out) := by
  have hnot : ∀ k ∈ [text "900", text "901", text "376", text "422"], msg.kind.asBytes ≠ k := by
    rintro k hk rfl
    exact absurd hkind (by simpa using List.all_eq_true.mp hkinds _ hk)
  refine .quiet out (hnot _ (by simp)) (hnot _ (by simp)) ?_ hquiet
  rintro ⟨hends, -⟩
  exact hnot _ (List.mem_cons_of_mem _ (List.mem_cons_of_mem _ hends)) rfl

omit [NickGen N] in
theorem arm_ite {c : Prop} [Decidable c]
    {out rest : Except Panic (Handler N L × List ClientMsg × Flow)} (hout : c → Arm msg h out)
    (hrest : ¬ c → Arm msg h rest) : Arm msg h (if c then out else rest) := by
  split
  · rename_i hc
    exact hout hc
  · rename_i hc
    exact hrest hc

/-- **The `match`**, arm by arm. -/
theorem arm_dispatch (msg : ServerMsg) (h : Handler N L) (ignoreSasl : Bool) :
    Arm msg h (h.dispatch ignoreSasl msg) := by
  have hone : ∀ {k : List UInt8}, msg.kind.asBytes = k → msg.kind.asBytes ∈ [k] :=
    fun hk => List.mem_singleton.mpr hk
  unfold dispatch
  refine arm_ite (fun hc => .of_kind _ hc.1 (by decide) (.unchanged rfl)) fun _ => ?_
  refine arm_ite (fun hc => .welcome hc) fun _ => ?_
  refine arm_ite (fun hc => .of_kind _ (hone hc.1) (by decide) ?_) fun _ => ?_
  · unfold Registration.parseMyinfo
    split
    · exact .unchanged rfl
    · exact .of_eq rfl rfl rfl rfl id rfl
  refine arm_ite (fun hc => .of_kind _ (hone hc.1) (by decide) quiet_handleISupport) fun _ => ?_
  refine arm_ite (fun hc => .of_kind _ (hone hc) (by decide) (.unchanged rfl)) fun _ => ?_
  refine arm_ite (fun hc => .of_kind _ (hone hc) (by decide) quiet_handleBounce) fun _ => ?_
  refine arm_ite (fun hc => .of_kind _ (hone hc) (by decide) quiet_handleRedirect) fun _ => ?_
  refine arm_ite (fun hc => .ends hc.1 hc.2) fun hends => ?_
  refine arm_ite (fun hc => .quiet _ ?_ ?_ hends (.unchanged rfl)) fun _ => ?_
  · intro hk
    exact absurd (hk ▸ hc) (by decide)
  · intro hk
    exact absurd (hk ▸ hc) (by decide)
  refine arm_ite (fun hc => .of_kind _ (hone hc) (by decide) quiet_handleInvalidNick) fun _ => ?_
  refine arm_ite (fun hc => .of_kind _ hc (by decide) quiet_nextNick) fun _ => ?_
  refine arm_ite (fun hc => .of_kind _ hc (by decide) (.unchanged rfl)) fun _ => ?_
  refine arm_ite (fun hc => .loggedIn hc) fun hin => ?_
  refine arm_ite (fun hc => .loggedOut hc) fun hout => ?_
  refine arm_ite (fun hc => .of_kind _ hc.1 (by decide) (.unchanged rfl)) fun _ => ?_
  refine arm_ite (fun hc => .cap hc) fun _ => ?_
  exact arm_ite (fun _ => .quiet _ hin hout hends (.unchanged rfl))
    fun _ => .quiet _ hin hout hends (.unchanged rfl)

/-- **Which arm was taken**, if it did not panic. -/
inductive Took (msg : ServerMsg) (h : Handler N L) : Handler N L × List ClientMsg × Flow → Prop
  | quiet (out : Handler N L × List ClientMsg × Flow) : msg.kind.asBytes ≠ text "900" →
    msg.kind.asBytes ≠ text "901" → ¬ (EndsMotd msg ∧ h.state.isAwaitEnd = true) →
    Quiet h out → Took msg h out
  | welcome : IsWelcome msg → Took msg h (h.handleWelcome msg)
  | ends : EndsMotd msg → h.state.isAwaitEnd = true → Took msg h h.handleEnd
  | loggedIn : msg.kind.asBytes = text "900" → Took msg h (h.handleLoggedIn msg)
  | loggedOut : msg.kind.asBytes = text "901" → Took msg h (h.handleLoggedOut msg)
  | cap (out : Handler N L × List ClientMsg × Flow) : msg.kind.asBytes = text "CAP" →
    h.handleCap msg = .ok out → Took msg h out

theorem took_of_dispatch {ignoreSasl : Bool} {out : Handler N L × List ClientMsg × Flow}
    (hout : h.dispatch ignoreSasl msg = .ok out) : Took msg h out := by
  have harm := arm_dispatch msg h ignoreSasl
  rw [hout] at harm
  generalize hresult : (Except.ok out : Except Panic (Handler N L × List ClientMsg × Flow)) =
    result at harm
  cases harm with
  | quiet out' hin hlogout hends hquiet =>
    rw [Except.ok.inj hresult]
    exact .quiet out' hin hlogout hends hquiet
  | welcome hkind =>
    rw [Except.ok.inj hresult]
    exact .welcome hkind
  | ends hends hstate =>
    rw [Except.ok.inj hresult]
    exact .ends hends hstate
  | loggedIn hkind =>
    rw [Except.ok.inj hresult]
    exact .loggedIn hkind
  | loggedOut hkind =>
    rw [Except.ok.inj hresult]
    exact .loggedOut hkind
  | cap hkind => exact .cap out hkind hresult.symm

/-- What the `match` may come to: an arm with its effect, or the panic of the one for `CAP`. -/
def Comes (msg : ServerMsg) (h : Handler N L) :
    Except Panic (Handler N L × List ClientMsg × Flow) → Prop
  | .ok out => Effect msg h out
  | .error p => msg.kind.asBytes = text "CAP" ∧ h.handleCap msg = .error p

/-- **The `match`**: what each of its arms does. -/
theorem comes_dispatch (msg : ServerMsg) (h : Handler N L) (ignoreSasl : Bool) :
    Comes msg h (h.dispatch ignoreSasl msg) := by
  have harm := arm_dispatch msg h ignoreSasl
  generalize h.dispatch ignoreSasl msg = result at harm
  cases harm with
  | quiet out _ _ _ hquiet => exact hquiet.effect
  | welcome hkind => exact effect_handleWelcome hkind
  | ends _ hstate => exact effect_handleEnd hstate
  | loggedIn hkind => exact effect_handleLoggedIn hkind
  | loggedOut hkind => exact effect_handleLoggedOut
  | cap hkind =>
    cases hcap : h.handleCap msg with
    | ok out => exact (capArm_handleCap hcap).effect
    | error p => exact ⟨hkind, hcap⟩

/-- The arm for `CAP` is reached. -/
theorem dispatch_of_cap (hkind : msg.kind.asBytes = text "CAP") (ignoreSasl : Bool) :
    h.dispatch ignoreSasl msg = h.handleCap msg := by
  have hne : ∀ s : String, text "CAP" ≠ text s → msg.kind.asBytes ≠ text s := by
    intro s hs hk
    exact hs (hkind.symm.trans hk)
  have hnotMem : ∀ l : List (List UInt8), text "CAP" ∉ l → ∀ p : Prop,
      ¬ (msg.kind.asBytes ∈ l ∧ p) := by
    rintro l hl p ⟨hmem, -⟩
    exact hl (hkind ▸ hmem)
  have hnot : ∀ l : List (List UInt8), text "CAP" ∉ l → msg.kind.asBytes ∉ l := by
    intro l hl hmem
    exact hl (hkind ▸ hmem)
  unfold dispatch
  rw [if_neg (hnotMem _ (by decide) _), if_neg (hne "001" (by decide)),
    if_neg (fun hh => hne "004" (by decide) hh.1), if_neg (fun hh => hne "005" (by decide) hh.1),
    if_neg (hne "004" (by decide)), if_neg (hne "005" (by decide)), if_neg (hne "010" (by decide)),
    if_neg (hnotMem _ (by decide) _), if_neg (hnot _ (by decide)), if_neg (hne "432" (by decide)),
    if_neg (hnot _ (by decide)), if_neg (hnot _ (by decide)), if_neg (hne "900" (by decide)),
    if_neg (hne "901" (by decide)), if_neg (hnotMem _ (by decide) _), if_pos hkind]

omit [SaslLogic L] [NickGen N] in
/-- What follows the `match`. -/
theorem finish_eq (retval : Option Registration) :
    ∃ state, (h.finish retval).1 = { h with state } ∧
      (state.isAwaitEnd = true → h.state.isAwaitEnd = true) ∧
      ∀ r, (h.finish retval).2.2 = .ok r → r = retval := by
  cases hstate : h.state with
  | capEnd =>
    unfold finish
    rw [hstate]
    dsimp only
    split
    · exact ⟨h.state, rfl, by rw [hstate]; exact id, fun r hr => absurd hr (by simp)⟩
    · exact ⟨.awaitWelcome, rfl, fun hs => absurd hs (by simp [HandlerState.isAwaitEnd]),
        fun r hr => (Except.ok.inj hr).symm⟩
  | _ =>
    refine ⟨h.state, ?_, by rw [hstate]; exact id, ?_⟩
    · unfold finish
      rw [hstate]
      dsimp only
      rw [← hstate]
    · unfold finish
      rw [hstate]
      exact fun r hr => (Except.ok.inj hr).symm

variable [Base64.Engine]

/-- The handler when the `match` is reached. -/
def atMatch (h : Handler N L) (msg : ServerMsg) : Handler N L :=
  ((h.noteSource msg).handleSasl msg).1

omit [NickGen N] in
theorem atMatch_eq (h : Handler N L) (msg : ServerMsg) :
    ∃ source state, h.atMatch msg = { h with reg := { h.reg with source }, state } ∧
      state.isAwaitEnd = h.state.isAwaitEnd := by
  obtain ⟨source, hsource⟩ := noteSource_eq h msg
  obtain ⟨state, hsasl, hstate⟩ := handleSasl_eq (h.noteSource msg) msg
  refine ⟨source, state, ?_, ?_⟩
  · rw [atMatch, hsasl, hsource]
  · rw [hstate, hsource]

/-- **A step, in its three parts.** -/
theorem handle_cases (h : Handler N L) (msg : ServerMsg) :
    (∃ sent, h.handle msg = .ok (h.noteSource msg, sent, .ok none) ∧
      msg.kind.asBytes = text "PING") ∨
    ∃ ignoreSasl,
      (∃ p, (h.atMatch msg).dispatch ignoreSasl msg = .error p ∧ h.handle msg = .error p) ∨
      (∃ h₁ sent₁ sent r, (h.atMatch msg).dispatch ignoreSasl msg = .ok (h₁, sent₁, .ret r) ∧
        h.handle msg = .ok (h₁, sent, r)) ∨
      ∃ h₁ sent₁ sent retval,
        (h.atMatch msg).dispatch ignoreSasl msg = .ok (h₁, sent₁, .go retval) ∧
        h.handle msg = .ok ((h₁.finish retval).1, sent, (h₁.finish retval).2.2) := by
  unfold handle
  dsimp only
  cases hpong : pong msg with
  | some reply =>
    exact .inl ⟨[reply], rfl, kind_of_pong hpong⟩
  | none =>
    refine .inr ⟨((h.noteSource msg).handleSasl msg).2.2, ?_⟩
    dsimp only
    have hat : ((h.noteSource msg).handleSasl msg).1 = h.atMatch msg := rfl
    rw [hat]
    cases hdisp : (h.atMatch msg).dispatch ((h.noteSource msg).handleSasl msg).2.2 msg with
    | error p => exact .inl ⟨p, rfl, rfl⟩
    | ok out =>
      obtain ⟨h₁, sent₁, flow⟩ := out
      cases flow with
      | ret r => exact .inr (.inl ⟨h₁, sent₁, _, r, rfl, rfl⟩)
      | go retval => exact .inr (.inr ⟨h₁, sent₁, _, retval, rfl, rfl⟩)

/-- **How a step ends**: after a `PING`, in an arm that returns, or behind the `match`. -/
inductive Parts (msg : ServerMsg) (h : Handler N L) :
    Handler N L → List ClientMsg → Except HandlerError (Option Registration) → Prop
  | pong (reply : ClientMsg) : pong msg = some reply →
    Parts msg h (h.noteSource msg) [reply] (.ok none)
  | ret (ignoreSasl : Bool) (h₁ : Handler N L) (sent : List ClientMsg)
      (result : Except HandlerError (Option Registration)) :
    (h.atMatch msg).dispatch ignoreSasl msg = .ok (h₁, sent, .ret result) →
    Parts msg h h₁ (((h.noteSource msg).handleSasl msg).2.1 ++ sent) result
  | go (ignoreSasl : Bool) (h₁ : Handler N L) (sent : List ClientMsg)
      (retval : Option Registration) :
    (h.atMatch msg).dispatch ignoreSasl msg = .ok (h₁, sent, .go retval) →
    Parts msg h (h₁.finish retval).1
      (((h.noteSource msg).handleSasl msg).2.1 ++ sent ++ (h₁.finish retval).2.1)
      (h₁.finish retval).2.2

theorem parts_of_handle {sent : List ClientMsg} {r : Except HandlerError (Option Registration)}
    (hout : h.handle msg = .ok (h', sent, r)) : Parts msg h h' sent r := by
  unfold handle at hout
  dsimp only at hout
  cases hpong : pong msg with
  | some reply =>
    rw [hpong] at hout
    obtain ⟨rfl, hrest⟩ := Prod.mk.inj (Except.ok.inj hout)
    obtain ⟨rfl, rfl⟩ := Prod.mk.inj hrest
    exact .pong reply hpong
  | none =>
    rw [hpong] at hout
    dsimp only at hout
    split at hout
    · exact absurd hout (by simp)
    · rename_i h₁ sent₂ result hdisp
      obtain ⟨rfl, hrest⟩ := Prod.mk.inj (Except.ok.inj hout)
      obtain ⟨rfl, rfl⟩ := Prod.mk.inj hrest
      exact .ret _ h₁ sent₂ result hdisp
    · rename_i h₁ sent₂ retval hdisp
      obtain ⟨rfl, hrest⟩ := Prod.mk.inj (Except.ok.inj hout)
      obtain ⟨rfl, rfl⟩ := Prod.mk.inj hrest
      exact .go _ h₁ sent₂ retval hdisp

/-- What a step records: nothing more than the arm it takes. -/
theorem dispatch_of_handle {sent : List ClientMsg} {r : Except HandlerError (Option Registration)}
    (hout : h.handle msg = .ok (h', sent, r)) :
    (msg.kind.asBytes = text "PING" ∧ h' = h.noteSource msg) ∨
    ∃ ignoreSasl out, (h.atMatch msg).dispatch ignoreSasl msg = .ok out ∧
      h'.reg = out.1.reg := by
  cases parts_of_handle hout with
  | pong reply hpong => exact .inl ⟨kind_of_pong hpong, rfl⟩
  | ret ignoreSasl h₁ sent result hdisp => exact .inr ⟨ignoreSasl, _, hdisp, rfl⟩
  | go ignoreSasl h₁ sent retval hdisp =>
    obtain ⟨state, hfin, -⟩ := finish_eq (h := h₁) retval
    exact .inr ⟨ignoreSasl, _, hdisp, by rw [hfin]⟩

/-- The handler after a message, without what is sent and returned. -/
def step (h : Handler N L) (msg : ServerMsg) : Except Panic (Handler N L) :=
  (h.handle msg).map Prod.fst

theorem exists_handle_of_step (hstep : h.step msg = .ok h') :
    ∃ sent r, h.handle msg = .ok (h', sent, r) := by
  unfold step at hstep
  cases hout : h.handle msg with
  | error p =>
    rw [hout] at hstep
    exact absurd hstep (by simp [Except.map])
  | ok out =>
    rw [hout] at hstep
    exact ⟨out.2.1, out.2.2, by rw [← Except.ok.inj hstep]⟩

theorem step_of_handle {sent : List ClientMsg} {r : Except HandlerError (Option Registration)}
    (hout : h.handle msg = .ok (h', sent, r)) : h.step msg = .ok h' := by
  rw [step, hout]
  rfl

/-- **What a step may change**, and when it can report success. -/
theorem moves_handle {sent : List ClientMsg} {r : Except HandlerError (Option Registration)}
    (hout : h.handle msg = .ok (h', sent, r)) :
    Moves msg h h' ∧ (∀ reg, r = .ok (some reg) → h.state.isAwaitEnd = true) := by
  obtain ⟨source, state, hat, hstate⟩ := atMatch_eq h msg
  have hmoves : Moves msg h (h.atMatch msg) := by
    rw [hat]
    exact .of_eq rfl rfl rfl id fun hs => hstate ▸ hs
  have hback : (h.atMatch msg).state.isAwaitEnd = true → h.state.isAwaitEnd = true := by
    rw [hat]
    exact fun hs => hstate ▸ hs
  rcases handle_cases h msg with ⟨sent', hping, -⟩ | ⟨ignoreSasl, hcases⟩
  · rw [hping, Except.ok.injEq, Prod.mk.injEq, Prod.mk.injEq] at hout
    obtain ⟨rfl, -, rfl⟩ := hout
    obtain ⟨source', hsource⟩ := noteSource_eq h msg
    rw [hsource]
    exact ⟨.of_eq rfl rfl rfl id id, fun reg hreg => absurd hreg (by simp)⟩
  · have hcomes := comes_dispatch msg (h.atMatch msg) ignoreSasl
    rcases hcases with ⟨p, -, herr⟩ | ⟨h₁, sent₁, sent', r', hdisp, hok⟩ |
      ⟨h₁, sent₁, sent', retval, hdisp, hok⟩
    · rw [herr] at hout
      exact absurd hout (by simp)
    · rw [hdisp] at hcomes
      rw [hok, Except.ok.injEq, Prod.mk.injEq, Prod.mk.injEq] at hout
      obtain ⟨rfl, -, rfl⟩ := hout
      refine ⟨hmoves.trans hcomes.moves, ?_⟩
      rintro reg rfl
      exact hback (hcomes.success rfl)
    · rw [hdisp] at hcomes
      rw [hok, Except.ok.injEq, Prod.mk.injEq, Prod.mk.injEq] at hout
      obtain ⟨rfl, -, rfl⟩ := hout
      obtain ⟨state', hfin, hstate', hret⟩ := finish_eq (h := h₁) retval
      refine ⟨(hmoves.trans hcomes.moves).trans ?_, fun reg hreg => ?_⟩
      · rw [hfin]
        exact .of_eq rfl rfl rfl id hstate'
      · rw [← hret _ hreg] at hcomes
        exact hback (hcomes.success rfl)

end

end Handler

end Register

end Vinezombie
