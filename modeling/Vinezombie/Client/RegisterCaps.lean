import Vinezombie.Client.RegisterDeletes

/-!
# Advertised capabilities

What the registration handler has on record about the capabilities of the server, against what the
messages of the server say.  The record is a function from names to values, each `CAP` message makes
a change to it (`advertise`), and a step of the handler makes that change (`value_handle`).  A value
that is on record stays there until `CAP DEL` takes it out, whatever comes with later messages.

`ServerMsgArgs::combine` collects the lines of a reply the other way round: there the newer value
wins.  Over a sequence of `CAP LS` and `CAP NEW` messages the handler has the value that came first,
and `combine` the one that came last.

* `value_insertCaps`, `value_updateCaps`, `value_removeCaps`: the calls through the guard.
* `latest_combineAll`: what `combine` comes to.
* `accumulates_iff`: when the two agree.
-/

namespace Vinezombie

open Library Library.KeyedList Library.Machine Auth

/-! ## Replies of several lines -/

namespace Cap.ServerMsgArgs

variable {args : List ServerMsgArgs} {k : Key}

/-- `combine` with one message after the other; a message that cannot be combined begins anew. -/
def combineFrom (self : ServerMsgArgs) : List ServerMsgArgs → List ServerMsgArgs
  | [] => [self]
  | newer :: rest =>
    match self.combine newer with
    | (none, self) => combineFrom self rest
    | (some newer, self) => self :: combineFrom newer rest

/-- The replies that a sequence of messages is combined into. -/
def combineAll : List ServerMsgArgs → List ServerMsgArgs
  | [] => []
  | first :: rest => combineFrom first rest

/-- The value with which a capability is named last. -/
def latest (args : List ServerMsgArgs) (k : Key) : Option Word :=
  args.reverse.findSome? fun a => a.caps.get k

/-- The value with which a capability is named first. -/
def earliest (args : List ServerMsgArgs) (k : Key) : Option Word :=
  args.findSome? fun a => a.caps.get k

theorem latest_cons (a : ServerMsgArgs) (args : List ServerMsgArgs) (k : Key) :
    latest (a :: args) k = (latest args k).or (a.caps.get k) := by
  rw [latest, List.reverse_cons, List.findSome?_append, latest]
  congr 1
  rw [List.findSome?_cons]
  cases a.caps.get k with
  | none => rfl
  | some v => rfl

theorem earliest_cons (a : ServerMsgArgs) (args : List ServerMsgArgs) (k : Key) :
    earliest (a :: args) k = (a.caps.get k).or (earliest args k) := by
  rw [earliest, List.findSome?_cons]
  cases a.caps.get k with
  | none => rfl
  | some v => rfl

theorem latest_eq_none_iff : latest args k = none ↔ earliest args k = none := by
  rw [latest, earliest, List.findSome?_eq_none_iff, List.findSome?_eq_none_iff]
  simp

theorem latest_combineFrom (self : ServerMsgArgs) (args : List ServerMsgArgs) (k : Key) :
    latest (combineFrom self args) k = latest (self :: args) k := by
  induction args generalizing self with
  | nil => rfl
  | cons newer rest ih =>
    rw [combineFrom, combine]
    split_ifs with hapart
    · dsimp only
      rw [latest_cons, ih, ← latest_cons]
    · dsimp only
      rw [ih, latest_cons, OrderedMap.get_insertAll, ← Option.or_assoc, ← latest_cons,
        ← latest_cons]

/-- **In combined replies the newer value wins.** -/
theorem latest_combineAll (args : List ServerMsgArgs) (k : Key) :
    latest (combineAll args) k = latest args k := by
  cases args with
  | nil => rfl
  | cons first rest => exact latest_combineFrom first rest k

end Cap.ServerMsgArgs

namespace Register

open Cap

/-! ## What a message says -/

/-- The arguments of a `CAP` message. -/
def capArgs (msg : ServerMsg) : Option ServerMsgArgs :=
  if msg.kind.asBytes = text "CAP" then (ServerMsgArgs.parse msg.args).toOption else none

variable {msg : ServerMsg} {args : ServerMsgArgs} {k : Key}

theorem capArgs_eq_some_iff : capArgs msg = some args ↔
    msg.kind.asBytes = text "CAP" ∧ ServerMsgArgs.parse msg.args = .ok args := by
  unfold capArgs
  split
  · rename_i hkind
    cases ServerMsgArgs.parse msg.args with
    | error e => simp [Except.toOption]
    | ok args' => simp [Except.toOption, hkind]
  · rename_i hkind
    simp [hkind]

/-- **What a message changes** about the capabilities that are on record and their values. -/
def advertise (known : Key → Option Word) (msg : ServerMsg) : Key → Option Word :=
  match capArgs msg with
  | none => known
  | some args =>
    match args.subcmd with
    | .ls | .new | .ack => fun k => (known k).or (args.caps.get k)
    | .del => fun k => if (args.caps.get k).isSome then none else known k
    | .nak | .list => known

/-- A `CAP LS` or `CAP NEW` message, with its arguments. -/
def Advertises (msg : ServerMsg) (args : ServerMsgArgs) : Prop :=
  capArgs msg = some args ∧ (args.subcmd = .ls ∨ args.subcmd = .new)

theorem advertise_of_not_cap (known : Key → Option Word) (hkind : msg.kind.asBytes ≠ text "CAP") :
    advertise known msg = known := by
  rw [advertise, capArgs, if_neg hkind]

theorem deletedCaps_of_capArgs (hargs : capArgs msg = some args) (hsub : args.subcmd ≠ .del) :
    deletedCaps msg = none := by
  obtain ⟨hkind, hparse⟩ := capArgs_eq_some_iff.mp hargs
  rw [deletedCaps, if_pos hkind, hparse]
  exact if_neg hsub

namespace Handler

variable {N L : Type} {h h' : Handler N L}

/-- The value that is on record for a capability. -/
def value (h : Handler N L) (k : Key) : Option Word := (h.reg.caps.getUnion k).map Prod.snd

theorem value_eq_of_caps (hcaps : h'.reg.caps = h.reg.caps) : h'.value = h.value := by
  funext k
  rw [value, hcaps, value]

/-! ## The calls through the guard -/

theorem value_insertCaps (hs : StrictSorted NameMap.tag h.reg.caps.vec)
    (caps : OrderedMap Key Word) (k : Key) :
    (h.insertCaps caps).value k = (h.value k).or (caps.get k) := by
  have hfold := (NameMap.keeps_tryInsert false).getUnion_foldl hs caps.nodup_keys k
  rw [value, insertCaps, hfold, Option.map_or]
  rfl

theorem value_updateCaps (hs : StrictSorted NameMap.tag h.reg.caps.vec)
    (caps : OrderedMap Key Word) (k : Key) :
    (h.updateCaps caps).value k = (h.value k).or (caps.get k) := by
  have hfold := (NameMap.keeps_insertOrUpdate true).getUnion_foldl hs caps.nodup_keys k
  rw [value, updateCaps, hfold, Option.map_or]
  rfl

theorem value_removeCaps (hs : StrictSorted NameMap.tag h.reg.caps.vec)
    {caps : OrderedMap Key Word} (hr : h.removeCaps caps = .ok h') (k : Key) :
    h'.value k = if (caps.get k).isSome then none else h.value k := by
  by_cases hone : ∀ k ∈ caps.keys, ∀ k' ∈ caps.keys, h.Knows k → h.Knows k' → k = k'
  · obtain ⟨m, hm, hvec⟩ := removeCaps_eq hs caps hone
    rw [hr, Except.ok.injEq] at hm
    rw [hm, value, value, NameMap.getUnion_eq, NameMap.getUnion_eq, hvec, NameMap.lookup_map_fst,
      NameMap.lookup_map_fst, lookup_filter_notMem]
    by_cases hk : k ∈ caps.keys
    · rw [if_pos hk, if_pos (OrderedMap.get_isSome_iff.mpr hk)]
      rfl
    · rw [if_neg hk, if_neg fun hsome => hk (OrderedMap.get_isSome_iff.mp hsome)]
  · obtain ⟨p, hp⟩ := removeCaps_error hs caps hone
    rw [hr] at hp
    exact absurd hp (by simp)

/-! ## A step -/

section

variable [SaslLogic L]

theorem reg_handleReq (reqs : CapFn) (auths : SaslQueue L) :
    (h.handleReq reqs auths).1.reg = h.reg := by
  unfold handleReq
  dsimp only
  split_ifs <;> rfl

/-- An acknowledgement is not refused. -/
theorem onAck_ok (state : HandlerState L) (caps : OrderedMap Key Word) :
    (state.onAck true caps).2.2 = .ok () := by
  cases state with
  | ack ackd queue =>
    unfold HandlerState.onAck
    dsimp only
    rw [if_neg (by simp), if_pos rfl]
    split
    · cases Auth.Handler.fromQueue queue with
      | none => rfl
      | some handler => rfl
    · rfl
  | _ => rfl

theorem caps_handleAck_true (caps : OrderedMap Key Word) (andThen : Handler N L → Handler N L)
    (hthen : ∀ state, (andThen { h with state }).reg.caps = (andThen h).reg.caps) :
    (h.handleAck true caps andThen).1.reg.caps = (andThen h).reg.caps := by
  have hok := onAck_ok h.state caps
  unfold handleAck
  split
  · rename_i state sent e hon
    rw [hon] at hok
    exact absurd hok (by simp)
  · exact hthen _

/-- **The arm for `CAP`** changes what is on record as the message says. -/
theorem value_handleCap {out : Handler N L × List ClientMsg × Flow}
    (hs : StrictSorted NameMap.tag h.reg.caps.vec) (hkind : msg.kind.asBytes = text "CAP")
    (hout : h.handleCap msg = .ok out) : out.1.value = advertise h.value msg := by
  have hcase := capCase_handleCap msg h
  rw [hout] at hcase
  unfold advertise capArgs
  rw [if_pos hkind]
  cases hcase with
  | malformed e hparse =>
    rw [hparse]
    rfl
  | adds args hparse hsub =>
    rw [hparse]
    dsimp only [Except.toOption]
    rw [← funext (value_insertCaps hs args.caps)]
    rcases hsub with hsub | hsub
    · rw [hsub]
    · rw [hsub]
  | asks args reqs auths hparse hsub =>
    rw [hparse]
    dsimp only [Except.toOption]
    rw [hsub, ← funext (value_insertCaps hs args.caps)]
    exact value_eq_of_caps (by rw [reg_handleReq])
  | ack args hparse hsub =>
    rw [hparse]
    dsimp only [Except.toOption]
    rw [hsub, ← funext (value_updateCaps hs args.caps)]
    exact value_eq_of_caps (caps_handleAck_true _ _ fun _ => rfl)
  | nak args hparse hsub =>
    rw [hparse]
    dsimp only [Except.toOption]
    rw [hsub]
    exact value_eq_of_caps (by rw [reg_handleAck])
  | del args h₁ hparse hsub hr =>
    rw [hparse]
    dsimp only [Except.toOption]
    rw [hsub, ← funext (value_removeCaps hs hr)]
    exact value_eq_of_caps (by rw [reg_handleAck])
  | list args e hparse hsub =>
    rw [hparse]
    dsimp only [Except.toOption]
    rw [hsub]

variable [NickGen N]

/-- **The arms other than the one for `CAP`** send `NICK` messages only, and keep the capabilities
unless they hand the registration over. -/
theorem dispatch_of_not_cap {ignoreSasl : Bool} {out : Handler N L × List ClientMsg × Flow}
    (hkind : msg.kind.asBytes ≠ text "CAP") (hout : h.dispatch ignoreSasl msg = .ok out) :
    (∀ m ∈ out.2.1, m.cmd = Nick.cmd) ∧
      (¬ (EndsMotd msg ∧ h.state.isAwaitEnd = true) → out.1.reg.caps = h.reg.caps) := by
  cases took_of_dispatch hout with
  | quiet _ _ _ _ hquiet => exact ⟨hquiet.sent, fun _ => hquiet.caps⟩
  | welcome =>
    obtain ⟨reg, heq, -, hcaps, -⟩ := handleWelcome_eq h msg
    rw [heq]
    exact ⟨by simp, fun _ => hcaps⟩
  | ends hmotd hstate =>
    exact ⟨by simp [handleEnd], fun hends => absurd ⟨hmotd, hstate⟩ hends⟩
  | loggedIn =>
    rcases handleLoggedIn_cases h msg with ⟨-, heq⟩ | ⟨account, whoami, -, heq⟩
    · rw [heq]
      exact ⟨by simp, fun _ => rfl⟩
    · have hquiet := quiet_setWhoami
        (h := { h with reg := { h.reg with account := some account } }) whoami
      rw [heq]
      exact ⟨hquiet.sent, fun _ => hquiet.caps⟩
  | loggedOut =>
    have hquiet := quiet_setWhoami (h := { h with reg := { h.reg with account := none } })
      msg.args.splitLast.1.getLast?
    exact ⟨hquiet.sent, fun _ => hquiet.caps⟩
  | cap _ hcap => exact absurd hcap hkind

variable [Base64.Engine]

/-- **A step changes what is on record as the message says**, until the registration is handed
over. -/
theorem value_handle (hs : StrictSorted NameMap.tag h.reg.caps.vec)
    (hends : ¬ (EndsMotd msg ∧ h.state.isAwaitEnd = true)) {sent : List ClientMsg}
    {r : Except HandlerError (Option Registration)} (hout : h.handle msg = .ok (h', sent, r)) :
    h'.value = advertise h.value msg := by
  have hat : (h.atMatch msg).value = h.value := value_eq_of_caps (caps_atMatch h msg)
  rcases dispatch_of_handle hout with ⟨hping, rfl⟩ | ⟨ignoreSasl, out, hdisp, hreg⟩
  · obtain ⟨source, hsource⟩ := noteSource_eq h msg
    rw [advertise_of_not_cap _ (by rw [hping]; decide), hsource]
    rfl
  · have hvalue : h'.value = out.1.value := value_eq_of_caps (by rw [hreg])
    rw [hvalue, ← hat]
    by_cases hkind : msg.kind.asBytes = text "CAP"
    · rw [dispatch_of_cap hkind] at hdisp
      exact value_handleCap (by rwa [caps_atMatch]) hkind hdisp
    · rw [advertise_of_not_cap _ hkind]
      refine value_eq_of_caps ((dispatch_of_not_cap hkind hdisp).2 ?_)
      obtain ⟨source, state, heq, hstate⟩ := atMatch_eq h msg
      rw [heq]
      exact fun hh => hends ⟨hh.1, hstate ▸ hh.2⟩

/-! ## Sequences of `CAP LS` and `CAP NEW` -/

/-- The record has each capability that the messages name with the value that it was named with
last, and agrees with the replies that the messages are combined into. -/
structure Accumulates (h : Handler N L) (args : List ServerMsgArgs) : Prop where
  latest : ∀ k v, ServerMsgArgs.latest args k = some v → h.value k = some v
  combined : ∀ k v, ServerMsgArgs.latest (ServerMsgArgs.combineAll args) k = some v →
    h.value k = some v

/-- The values do not change: the last message that names a capability has the value that is on
record, or that the first message has if none is. -/
structure SameValues (h : Handler N L) (args : List ServerMsgArgs) : Prop where
  known : ∀ k v w, h.value k = some v → ServerMsgArgs.latest args k = some w → w = v
  fresh : ∀ k, h.value k = none → ServerMsgArgs.latest args k = ServerMsgArgs.earliest args k

/-- One message. -/
theorem value_of_advertises (hs : StrictSorted NameMap.tag h.reg.caps.vec)
    (hadv : Advertises msg args) :
    ∃ h', h.step msg = .ok h' ∧ ∀ k, h'.value k = (h.value k).or (args.caps.get k) := by
  obtain ⟨hargs, hsub⟩ := hadv
  have hdel : args.subcmd ≠ .del := by
    rcases hsub with hsub | hsub
    · simp [hsub]
    · simp [hsub]
  have hone : h.DeletesAtMostOne msg := by
    intro caps hcaps
    rw [deletedCaps_of_capArgs hargs hdel] at hcaps
    exact absurd hcaps (by simp)
  obtain ⟨h', sent, r, hout⟩ := handle_returns hs hone
  refine ⟨h', step_of_handle hout, fun k => ?_⟩
  have hkind := (capArgs_eq_some_iff.mp hargs).1
  have hends : ¬ (EndsMotd msg ∧ h.state.isAwaitEnd = true) := by
    rintro ⟨hmotd, -⟩
    rw [EndsMotd, hkind] at hmotd
    exact absurd hmotd (by decide)
  rw [value_handle hs hends hout, advertise, hargs]
  dsimp only
  rcases hsub with hsub | hsub
  · rw [hsub]
  · rw [hsub]

/-- **Whole sequences**: the value that came first. -/
theorem value_of_run {msgs : List ServerMsg} {args : List ServerMsgArgs}
    (hadv : List.Forall₂ Advertises msgs args) (hr : Reachable h) :
    ∃ h', msgs.foldlM step h = .ok h' ∧
      ∀ k, h'.value k = (h.value k).or (ServerMsgArgs.earliest args k) := by
  induction hadv generalizing h with
  | nil => exact ⟨h, rfl, fun k => Option.or_none.symm⟩
  | cons hmsg _ ih =>
    obtain ⟨h₁, hstep, hvalue⟩ := value_of_advertises hr.strictSorted hmsg
    obtain ⟨h', hrun, hvalue'⟩ := ih (.step _ hr hstep)
    refine ⟨h', ?_, fun k => ?_⟩
    · rw [List.foldlM_cons, hstep]
      exact hrun
    · rw [hvalue', hvalue, Option.or_assoc, ServerMsgArgs.earliest_cons]

/-- **When the handler agrees with `combine`.**  In every reachable state, a sequence of `CAP LS`
and `CAP NEW` messages is handled to its end, and leaves each capability with the value that it was
named with last exactly when the values do not change. -/
theorem accumulates_iff {msgs : List ServerMsg} {args : List ServerMsgArgs} (hr : Reachable h)
    (hadv : List.Forall₂ Advertises msgs args) :
    ∃ h', msgs.foldlM step h = .ok h' ∧ (h'.Accumulates args ↔ h.SameValues args) := by
  obtain ⟨h', hrun, hvalue⟩ := value_of_run hadv hr
  refine ⟨h', hrun, ?_, ?_⟩
  · rintro ⟨hlatest, -⟩
    constructor
    · intro k v w hv hw
      have hend := hlatest k w hw
      rw [hvalue, hv] at hend
      exact (Option.some.inj hend).symm
    · intro k hnone
      cases hl : ServerMsgArgs.latest args k with
      | none => rw [ServerMsgArgs.latest_eq_none_iff.mp hl]
      | some w =>
        have hend := hlatest k w hl
        rw [hvalue, hnone, Option.none_or] at hend
        exact hend.symm
  · rintro ⟨hknown, hfresh⟩
    have hlatest : ∀ k v, ServerMsgArgs.latest args k = some v → h'.value k = some v := by
      intro k v hl
      rw [hvalue]
      cases hk : h.value k with
      | none => rw [Option.none_or, ← hfresh k hk, hl]
      | some w => rw [Option.some_or, hknown k w v hk hl]
    refine ⟨hlatest, fun k v hl => hlatest k v ?_⟩
    rwa [ServerMsgArgs.latest_combineAll] at hl

end

/-- A `CAP` message that is not the last line of a reply. -/
def capMoreMsg (subcmd : Arg) (caps : Line) : ServerMsg :=
  ⟨Tags.new, none, .cmd Cap.cap, ((Args.ofWords [star, subcmd, star]).add caps).2⟩

theorem value_bot (k : Key) : (bot []).value k = none := rfl

/-- What a message to a client without a nick says, if it names two capabilities. -/
def lsArgs (isLast : Bool) (value : Word) (other : Key) : ServerMsgArgs :=
  ⟨Registration.default.nick, .ls, isLast,
    (OrderedMap.empty.insert (.fromStr "a") value).insert other .empty⟩

/-- The same line twice. -/
theorem accumulates_twice :
    letI := emptyEngine
    ∃ h', [capMsg (.fromStr "LS") (.fromStr "a=1 b"),
        capMsg (.fromStr "LS") (.fromStr "a=1 b")].foldlM step (bot []) = .ok h' ∧
      h'.Accumulates [lsArgs true (.fromStr "1") (.fromStr "b"),
        lsArgs true (.fromStr "1") (.fromStr "b")] := by
  let _ : Base64.Engine := emptyEngine
  have hadv : Advertises (capMsg (.fromStr "LS") (.fromStr "a=1 b"))
      (lsArgs true (.fromStr "1") (.fromStr "b")) := ⟨by decide +kernel, .inl rfl⟩
  obtain ⟨h', hrun, hiff⟩ := accumulates_iff reachable_bot (.cons hadv (.cons hadv .nil))
  refine ⟨h', hrun, hiff.mpr ⟨?_, fun k _ => ?_⟩⟩
  · intro k v w hv
    exact absurd hv (by simp [value_bot])
  · rw [ServerMsgArgs.latest_cons, ServerMsgArgs.latest_cons, ServerMsgArgs.earliest_cons,
      ServerMsgArgs.earliest_cons]
    simp [ServerMsgArgs.latest, ServerMsgArgs.earliest]

/-- **A value that changes.**  The second line of the reply has another value for the capability;
`combine` takes it, and the handler does not. -/
theorem not_accumulates_changed :
    letI := emptyEngine
    ServerMsg.parse 0 (.fromStr "CAP * LS * :a=1 b") =
        some (.ok (capMoreMsg (.fromStr "LS") (.fromStr "a=1 b"))) ∧
      ServerMsg.parse 0 (.fromStr "CAP * LS :a=2 c") =
        some (.ok (capMsg (.fromStr "LS") (.fromStr "a=2 c"))) ∧
      Advertises (capMoreMsg (.fromStr "LS") (.fromStr "a=1 b"))
        (lsArgs false (.fromStr "1") (.fromStr "b")) ∧
      Advertises (capMsg (.fromStr "LS") (.fromStr "a=2 c"))
        (lsArgs true (.fromStr "2") (.fromStr "c")) ∧
      Reachable (bot []) ∧
      ∃ h', [capMoreMsg (.fromStr "LS") (.fromStr "a=1 b"),
          capMsg (.fromStr "LS") (.fromStr "a=2 c")].foldlM step (bot []) = .ok h' ∧
        ¬ h'.Accumulates [lsArgs false (.fromStr "1") (.fromStr "b"),
          lsArgs true (.fromStr "2") (.fromStr "c")] := by
  let _ : Base64.Engine := emptyEngine
  have hadv₁ : Advertises (capMoreMsg (.fromStr "LS") (.fromStr "a=1 b"))
      (lsArgs false (.fromStr "1") (.fromStr "b")) := ⟨by decide +kernel, .inl rfl⟩
  have hadv₂ : Advertises (capMsg (.fromStr "LS") (.fromStr "a=2 c"))
      (lsArgs true (.fromStr "2") (.fromStr "c")) := ⟨by decide +kernel, .inl rfl⟩
  obtain ⟨h', hrun, hvalue⟩ := value_of_run (.cons hadv₁ (.cons hadv₂ .nil)) reachable_bot
  refine ⟨by decide +kernel, by decide +kernel, hadv₁, hadv₂, reachable_bot, h', hrun,
    fun hacc => ?_⟩
  have hlatest := hacc.latest (.fromStr "a") (.fromStr "2") (by decide +kernel)
  rw [hvalue, value_bot, Option.none_or] at hlatest
  exact absurd hlatest (by decide +kernel)

end Handler

end Register

end Vinezombie
