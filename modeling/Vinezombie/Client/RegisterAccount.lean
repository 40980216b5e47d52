import Vinezombie.Client.RegisterLogin

/-!
# The account at the end of registration

A handler that requires a login checks for one when 001 to 004 arrive and before it sends `CAP END`,
but not at the end of the message of the day, where it reports success.  A 901 message logs the
client out in any state.  Success is reported without an account when it arrives after 001.

* `accounts_dispatch`: what each arm of the `match` does to the account.
* `noteLogin`, `notes_handle`: the account after a message, and what is reported.
* `success_hasAccount_iff`: the runs in which success is reported with an account only.
-/

namespace Vinezombie

open Library Library.Machine Auth

namespace Register

instance (msg : ServerMsg) : Decidable (SetsAccount msg) := inferInstanceAs (Decidable (_ ∧ _))

instance (msg : ServerMsg) : Decidable (LogsOut msg) := inferInstanceAs (Decidable (_ = _))

instance (msg : ServerMsg) : Decidable (EndsMotd msg) := inferInstanceAs (Decidable (_ ∈ _))

namespace Handler

section

variable {N L : Type} {msg : ServerMsg} {h h' : Handler N L}

/-! ## The account, arm by arm -/

/-- An arm that leaves the account alone and does not succeed. -/
structure Keeps (h : Handler N L) (out : Handler N L × List ClientMsg × Flow) : Prop where
  account : out.1.reg.account = h.reg.account
  fails : out.2.2.succeeds = false

theorem keeps_handleWelcome : Keeps h (h.handleWelcome msg) := by
  obtain ⟨reg, heq, haccount, -⟩ := handleWelcome_eq h msg
  rw [heq]
  exact ⟨haccount, rfl⟩

section

variable [SaslLogic L]

theorem keeps_handleReq (reqs : CapFn) (auths : SaslQueue L) :
    Keeps h (h.handleReq reqs auths) := by
  unfold handleReq
  dsimp only
  split_ifs <;> exact ⟨rfl, rfl⟩

theorem keeps_handleAck (ack : Bool) (caps : OrderedMap Key Word)
    (andThen : Handler N L → Handler N L)
    (hthen : ∀ h, (andThen h).reg.account = h.reg.account) :
    Keeps h (h.handleAck ack caps andThen) := by
  unfold handleAck
  split
  · exact ⟨rfl, rfl⟩
  · exact ⟨hthen _, rfl⟩

theorem keeps_of_capArm {out : Handler N L × List ClientMsg × Flow} (harm : CapArm msg h out) :
    Keeps h out := by
  cases harm with
  | refused e => exact ⟨rfl, rfl⟩
  | inserts caps => exact ⟨rfl, rfl⟩
  | requests caps reqs auths _ =>
    obtain ⟨haccount, hfails⟩ := keeps_handleReq (h := h.insertCaps caps) reqs auths
    exact ⟨haccount, hfails⟩
  | ack capMsg => exact keeps_handleAck _ _ _ fun _ => rfl
  | nak caps => exact keeps_handleAck _ _ _ fun _ => rfl
  | del caps h₁ hr =>
    obtain ⟨m, rfl⟩ := removeCaps_ok hr
    obtain ⟨haccount, hfails⟩ := keeps_handleAck
      (h := { h with reg := { h.reg with caps := m } }) false caps id fun _ => rfl
    exact ⟨haccount, hfails⟩

end

/-- **What an arm does to the account.** -/
inductive Accounts (msg : ServerMsg) (h : Handler N L) :
    Handler N L × List ClientMsg × Flow → Prop
  | keeps {out : Handler N L × List ClientMsg × Flow} : ¬ SetsAccount msg → ¬ LogsOut msg →
    ¬ (EndsMotd msg ∧ h.state.isAwaitEnd = true) → Keeps h out → Accounts msg h out
  | login {out : Handler N L × List ClientMsg × Flow} : SetsAccount msg →
    out.1.reg.account.isSome = true → out.2.2.succeeds = false → Accounts msg h out
  | logout {out : Handler N L × List ClientMsg × Flow} : LogsOut msg →
    out.1.reg.account.isSome = false → out.2.2.succeeds = false → Accounts msg h out
  | success : EndsMotd msg → h.state.isAwaitEnd = true → Accounts msg h h.handleEnd

theorem accounts_handleLoggedIn (hkind : msg.kind.asBytes = text "900") :
    Accounts msg h (h.handleLoggedIn msg) := by
  rcases handleLoggedIn_cases h msg with ⟨hnil, heq⟩ | ⟨account, whoami, hsome, heq⟩
  · rw [heq]
    refine .keeps (fun hs => hs.2 hnil) (fun hout => ?_) (fun hends => ?_) ⟨rfl, rfl⟩
    · exact absurd (hkind.symm.trans hout) (by decide)
    · have hmem := hends.1
      rw [EndsMotd, hkind] at hmem
      exact absurd hmem (by decide)
  · have hquiet := quiet_setWhoami (h := { h with reg := { h.reg with account := some account } })
      whoami
    rw [heq]
    refine .login ⟨hkind, hsome⟩ ?_ hquiet.fails
    rw [hquiet.account]
    rfl

theorem accounts_handleLoggedOut (hkind : msg.kind.asBytes = text "901") :
    Accounts msg h (h.handleLoggedOut msg) := by
  have hquiet := quiet_setWhoami (h := { h with reg := { h.reg with account := none } })
    msg.args.splitLast.1.getLast?
  refine .logout hkind ?_ hquiet.fails
  rw [handleLoggedOut, hquiet.account]
  rfl

variable [SaslLogic L] [NickGen N]

/-- **The `match`**: what each of its arms does to the account. -/
theorem accounts_dispatch {ignoreSasl : Bool} {out : Handler N L × List ClientMsg × Flow}
    (hout : h.dispatch ignoreSasl msg = .ok out) : Accounts msg h out := by
  have hnot : ∀ {k : List UInt8} {out : Handler N L × List ClientMsg × Flow},
      msg.kind.asBytes = k → k ≠ text "900" → k ≠ text "901" →
      k ∉ [text "376", text "422"] → Keeps h out → Accounts msg h out := by
    rintro k out rfl hin hlogout hends hkeeps
    exact .keeps (fun hs => hin hs.1) hlogout (fun hs => hends hs.1) hkeeps
  cases took_of_dispatch hout with
  | quiet _ hin hlogout hends hquiet =>
    exact .keeps (fun hs => hin hs.1) hlogout hends ⟨hquiet.account, hquiet.fails⟩
  | welcome hkind => exact hnot hkind (by decide) (by decide) (by decide) keeps_handleWelcome
  | ends hends hstate => exact .success hends hstate
  | loggedIn hkind => exact accounts_handleLoggedIn hkind
  | loggedOut hkind => exact accounts_handleLoggedOut hkind
  | cap _ hkind hcap =>
    exact hnot hkind (by decide) (by decide) (by decide) (keeps_of_capArm (capArm_handleCap hcap))

/-! ## One message -/

/-- Whether an account is on record after a message, by the message and by the state in which it
arrives. -/
def noteLogin (h : Handler N L) (loggedIn : Bool) (msg : ServerMsg) : Bool :=
  if SetsAccount msg then true
  else if LogsOut msg ∨ EndsMotd msg ∧ h.state.isAwaitEnd = true then false
  else loggedIn

omit [SaslLogic L] [NickGen N] in
theorem noteLogin_login (hsets : SetsAccount msg) (b : Bool) : h.noteLogin b msg = true :=
  if_pos hsets

omit [SaslLogic L] [NickGen N] in
theorem noteLogin_logout (hlogout : LogsOut msg) (b : Bool) : h.noteLogin b msg = false := by
  have hnot : ¬ SetsAccount msg := fun hsets => absurd (hsets.1.symm.trans hlogout) (by decide)
  rw [noteLogin, if_neg hnot, if_pos (.inl hlogout)]

omit [SaslLogic L] [NickGen N] in
theorem noteLogin_ends (hends : EndsMotd msg) (hstate : h.state.isAwaitEnd = true) (b : Bool) :
    h.noteLogin b msg = false := by
  have hnot : ¬ SetsAccount msg := by
    intro hsets
    rw [EndsMotd, hsets.1] at hends
    exact absurd hends (by decide)
  rw [noteLogin, if_neg hnot, if_pos (.inr ⟨hends, hstate⟩)]

omit [SaslLogic L] [NickGen N] in
theorem noteLogin_other (hsets : ¬ SetsAccount msg) (hlogout : ¬ LogsOut msg)
    (hends : ¬ (EndsMotd msg ∧ h.state.isAwaitEnd = true)) (b : Bool) : h.noteLogin b msg = b := by
  rw [noteLogin, if_neg hsets, if_neg (not_or.mpr ⟨hlogout, hends⟩)]

/-- What a message does to the account, and what is reported about it. -/
structure Notes (msg : ServerMsg) (h h' : Handler N L)
    (r : Except HandlerError (Option Registration)) : Prop where
  account : h'.reg.account.isSome = h.noteLogin h.reg.account.isSome msg
  reported : ∀ reg, r = .ok (some reg) → EndsMotd msg ∧ h.state.isAwaitEnd = true ∧
    reg.account = h.reg.account
  reports : EndsMotd msg → h.state.isAwaitEnd = true → ∃ reg, r = .ok (some reg)

omit [SaslLogic L] [NickGen N] in
/-- A message that does not report success. -/
theorem Notes.of_account {r : Except HandlerError (Option Registration)}
    (haccount : h'.reg.account.isSome = h.noteLogin h.reg.account.isSome msg)
    (hends : ¬ (EndsMotd msg ∧ h.state.isAwaitEnd = true)) (hr : ∀ reg, r ≠ .ok (some reg)) :
    Notes msg h h' r :=
  ⟨haccount, fun reg hreg => absurd hreg (hr reg), fun h₁ h₂ => absurd ⟨h₁, h₂⟩ hends⟩

omit [SaslLogic L] [NickGen N] in
/-- What an arm does is what the message does, if the rest of the step leaves the account alone and
reports success as the arm does. -/
theorem Accounts.notes {out : Handler N L × List ClientMsg × Flow}
    {r : Except HandlerError (Option Registration)} (haccounts : Accounts msg h out)
    (haccount : h'.reg.account = out.1.reg.account)
    (hfails : out.2.2.succeeds = false → ∀ reg, r ≠ .ok (some reg))
    (hends : out = h.handleEnd → h.state.isAwaitEnd = true → r = .ok (some h.reg)) :
    Notes msg h h' r := by
  cases haccounts with
  | keeps hsets hlogout hnot hkeeps =>
    refine .of_account ?_ hnot (hfails hkeeps.fails)
    rw [noteLogin_other hsets hlogout hnot, haccount, hkeeps.account]
  | login hsets hsome hf =>
    refine .of_account ?_ ?_ (hfails hf)
    · rw [noteLogin_login hsets, haccount, hsome]
    · rintro ⟨hmotd, -⟩
      rw [EndsMotd, hsets.1] at hmotd
      exact absurd hmotd (by decide)
  | logout hlogout hnone hf =>
    refine .of_account ?_ ?_ (hfails hf)
    · rw [noteLogin_logout hlogout, haccount, hnone]
    · rintro ⟨hmotd, -⟩
      rw [EndsMotd, show msg.kind.asBytes = text "901" from hlogout] at hmotd
      exact absurd hmotd (by decide)
  | success hmotd hstate =>
    have hr := hends rfl hstate
    refine ⟨?_, fun reg hreg => ?_, fun _ _ => ⟨_, hr⟩⟩
    · rw [noteLogin_ends hmotd hstate, haccount]
      rfl
    · rw [hr, Except.ok.injEq, Option.some.injEq] at hreg
      exact ⟨hmotd, hstate, by rw [hreg]⟩

variable [Base64.Engine]

/-- **One message.** -/
theorem notes_handle {sent : List ClientMsg} {r : Except HandlerError (Option Registration)}
    (hout : h.handle msg = .ok (h', sent, r)) : Notes msg h h' r := by
  rcases handle_cases h msg with ⟨sent', hping, hkind⟩ | ⟨ignoreSasl, hcases⟩
  · rw [hping, Except.ok.injEq, Prod.mk.injEq, Prod.mk.injEq] at hout
    obtain ⟨rfl, -, rfl⟩ := hout
    obtain ⟨source, hsource⟩ := noteSource_eq h msg
    have hends : ¬ (EndsMotd msg ∧ h.state.isAwaitEnd = true) := by
      rintro ⟨hmotd, -⟩
      rw [EndsMotd, hkind] at hmotd
      exact absurd hmotd (by decide)
    refine .of_account ?_ hends (by simp)
    have hsets : ¬ SetsAccount msg := fun hsets => absurd (hkind.symm.trans hsets.1) (by decide)
    have hlogout : ¬ LogsOut msg := fun hlogout => absurd (hkind.symm.trans hlogout) (by decide)
    rw [noteLogin_other hsets hlogout hends, hsource]
  · -- the arm is reached by a handler with the same account, in the last state if this one is
    have hback : ∀ {h' : Handler N L} {r}, Notes msg (h.atMatch msg) h' r → Notes msg h h' r := by
      obtain ⟨source, state, hat, hstate⟩ := atMatch_eq h msg
      rw [hat]
      intro h' r hnotes
      obtain ⟨haccount, hreported, hreports⟩ := hnotes
      rw [noteLogin] at haccount
      simp only [hstate] at haccount hreported hreports
      exact ⟨haccount, hreported, hreports⟩
    refine hback ?_
    rcases hcases with ⟨p, -, herr⟩ | ⟨h₁, sent₁, sent', r', hdisp, hok⟩ |
      ⟨h₁, sent₁, sent', retval, hdisp, hok⟩
    · rw [herr] at hout
      exact absurd hout (by simp)
    · rw [hok, Except.ok.injEq, Prod.mk.injEq, Prod.mk.injEq] at hout
      obtain ⟨rfl, -, rfl⟩ := hout
      refine (accounts_dispatch hdisp).notes rfl ?_ ?_
      · rintro hfails reg rfl
        exact absurd hfails (by simp [Flow.succeeds])
      · intro hend _
        exact absurd (congrArg (fun out => out.2.2) hend) (by simp [handleEnd])
    · rw [hok, Except.ok.injEq, Prod.mk.injEq, Prod.mk.injEq] at hout
      obtain ⟨rfl, -, rfl⟩ := hout
      obtain ⟨state, hfin, -, hret⟩ := finish_eq (h := h₁) retval
      refine (accounts_dispatch hdisp).notes ?_ ?_ ?_
      · rw [hfin]
      · intro hfails reg hreg
        rw [← hret _ hreg] at hfails
        exact absurd hfails (by simp [Flow.succeeds])
      · intro hend hstate
        have hgo : Flow.go retval = .go (some (h.atMatch msg).reg) :=
          congrArg (fun out => out.2.2) hend
        have hh₁ : h₁ = (h.atMatch msg).handleEnd.1 := congrArg (fun out => out.1) hend
        rw [Flow.go.inj hgo]
        have hlast : h₁.state = .awaitEnd := by
          rw [hh₁]
          show (h.atMatch msg).state = .awaitEnd
          cases hs : (h.atMatch msg).state with
          | awaitEnd => rfl
          | _ => rw [hs] at hstate; exact absurd hstate (by simp [HandlerState.isAwaitEnd])
        rw [finish, hlast]

/-! ## Whole runs -/

/-- A registration that is reported has an account. -/
def ReportsAccount (h : Handler N L) (msg : ServerMsg) : Prop :=
  ∀ h' sent reg, h.handle msg = .ok (h', sent, .ok (some reg)) → reg.account.isSome = true

/-- A handler, and whether the messages so far leave the client logged in. -/
abbrev Watched (N L : Type) := Handler N L × Bool

/-- A message to a handler that is watched. -/
def Watched.step (w : Watched N L) (msg : ServerMsg) : Except Panic (Watched N L) :=
  (w.1.step msg).map fun h => (h, w.1.noteLogin w.2 msg)

/-- The end of the message of the day comes while the client is logged in. -/
def Watched.EndsLoggedIn (w : Watched N L) (msg : ServerMsg) : Prop :=
  EndsMotd msg → w.1.state.isAwaitEnd = true → w.2 = true

/-- Only a `CAP` message can make the handler panic. -/
theorem kind_of_handle_error {p : Panic} (hout : h.handle msg = .error p) :
    msg.kind.asBytes = text "CAP" := by
  rcases handle_cases h msg with ⟨sent', hping, -⟩ | ⟨ignoreSasl, hcases⟩
  · rw [hping] at hout
    exact absurd hout (by simp)
  · have hcomes := comes_dispatch msg (h.atMatch msg) ignoreSasl
    rcases hcases with ⟨p', hdisp, -⟩ | ⟨h₁, sent₁, sent', r', -, hok⟩ |
      ⟨h₁, sent₁, sent', retval, -, hok⟩
    · rw [hdisp] at hcomes
      exact hcomes.1
    · rw [hok] at hout
      exact absurd hout (by simp)
    · rw [hok] at hout
      exact absurd hout (by simp)

/-- **One message** reports an account where the end of the message of the day finds one. -/
theorem reportsAccount_iff :
    h.ReportsAccount msg ↔ Watched.EndsLoggedIn (h, h.reg.account.isSome) msg := by
  cases hout : h.handle msg with
  | error p =>
    refine iff_of_true (fun h' sent reg hok => ?_) (fun hmotd => ?_)
    · rw [hout] at hok
      exact absurd hok (by simp)
    · rw [EndsMotd, kind_of_handle_error hout] at hmotd
      exact absurd hmotd (by decide)
  | ok out =>
    obtain ⟨h', sent, r⟩ := out
    have hnotes := notes_handle hout
    constructor
    · intro hreports hmotd hstate
      obtain ⟨reg, rfl⟩ := hnotes.reports hmotd hstate
      show h.reg.account.isSome = true
      rw [← (hnotes.reported reg rfl).2.2]
      exact hreports h' sent reg hout
    · intro hends h'' sent' reg hout'
      rw [hout, Except.ok.injEq, Prod.mk.injEq, Prod.mk.injEq] at hout'
      obtain ⟨-, -, hr⟩ := hout'
      obtain ⟨hmotd, hstate, haccount⟩ := hnotes.reported reg hr
      rw [haccount]
      exact hends hmotd hstate

/-- **A run**, from a handler whose account is as it was noted. -/
theorem meets_reportsAccount_iff (msgs : List ServerMsg) (h : Handler N L) :
    Meets step ReportsAccount h msgs ↔
      Meets Watched.step Watched.EndsLoggedIn (h, h.reg.account.isSome) msgs := by
  induction msgs generalizing h with
  | nil => exact Iff.rfl
  | cons msg msgs ih =>
    refine and_congr reportsAccount_iff ?_
    cases hstep : h.step msg with
    | error p =>
      refine iff_of_true (fun h' hok => absurd hok (by simp)) (fun w' hok => ?_)
      rw [Watched.step, hstep] at hok
      exact absurd hok (by simp [Except.map])
    | ok h' =>
      obtain ⟨sent, r, hout⟩ := exists_handle_of_step hstep
      have hwatched : Watched.step (h, h.reg.account.isSome) msg =
          .ok (h', h'.reg.account.isSome) := by
        rw [Watched.step, hstep, (notes_handle hout).account]
        rfl
      rw [hwatched]
      constructor
      · intro hmeets w' hw'
        rw [← Except.ok.inj hw']
        exact (ih h').mp (hmeets h' rfl)
      · intro hmeets h'' hh'
        rw [← Except.ok.inj hh']
        exact (ih h').mpr (hmeets _ rfl)

/-- **When success is reported with an account only.**  A handler that requires a login does so in a
run exactly when every 376 or 422 that arrives after 001 finds the client logged in: of the 900
messages that name an account, the 901 messages and the successes before it, the last is a 900. -/
theorem success_hasAccount_iff (nicks : Nick × Option N) (caps : CapFn) (auths : SaslQueue L)
    (msgs : List ServerMsg) :
    Meets step ReportsAccount (Handler.new nicks caps true auths) msgs ↔
      Meets Watched.step Watched.EndsLoggedIn (Handler.new nicks caps true auths, false) msgs :=
  meets_reportsAccount_iff msgs (Handler.new nicks caps true auths)

end

/-- A 901 message. -/
def loggedOutMsg : ServerMsg := numericMsg ⟨text "901", by decide⟩

/-- **Success without an account.**  A client that has to be logged in logs in, is welcomed and
logged out again, and its registration is reported as successful. -/
theorem not_success_hasAccount :
    letI := emptyEngine
    ¬ Meets step ReportsAccount
      (Handler.new (N := Nick) (L := ExternalLogic) (.fromStr "nick", none) (fun _ => ∅) true .new)
      [loggedInMsg, welcomeMsg, loggedOutMsg, endOfMotdMsg] := by
  let _ : Base64.Engine := emptyEngine
  intro hmeets
  have hreports := (((hmeets.2 _ rfl).2 _ rfl).2 _ rfl).1 _ _ _ rfl
  exact absurd hreports (by decide)

end Handler

end Register

end Vinezombie
