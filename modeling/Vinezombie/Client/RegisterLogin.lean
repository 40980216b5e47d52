import Vinezombie.Client.RegisterSteps
import Vinezombie.Library.Machine

/-!
# Required logins

`Options::auths` says that a login is required when there are mechanisms to log in with and a
failure is not allowed.  `Register::handler` then keeps the requirement only if there are no
mechanisms, so the handler that it makes never requires a login, and the checks of `Handler::handle`
for one are never made.  Registration is reported as successful after 001 whether or not there was a
login.

What is left of the requirement is what the server grants: where every 001 comes after a login, so
does every success.

* `LoginEnforced`: success comes after a 900 message that set the account.
* `success_without_login`: the two messages after which it does not.
* `loginEnforced_runs`: the runs in which it does.
-/

namespace Vinezombie

open Library.Machine Auth

namespace Register

namespace Handler

section

variable {A N L : Type} [NickGen N] [SaslLogic L] [Base64.Engine] {h₀ h h' : Handler N L}

/-! ## Success and logins -/

/-- Wherever success is reported in the run on `msgs`, a 900 message that names an account was
received before. -/
def LoginEnforced (h₀ : Handler N L) (msgs : List ServerMsg) : Prop :=
  ∀ seen msg rest, msgs = seen ++ msg :: rest → ∀ h h' sent reg, seen.foldlM step h₀ = .ok h →
    h.handle msg = .ok (h', sent, .ok (some reg)) → ∃ m ∈ seen, SetsAccount m

/-- A 001 message comes after a login. -/
def WelcomeAfterLogin (h : Handler N L) (msg : ServerMsg) : Prop :=
  IsWelcome msg → h.reg.account.isSome = true

/-- An account, or the last state, is owed to a login. -/
def OwedToLogin (seen : List ServerMsg) (h : Handler N L) : Prop :=
  h.reg.account.isSome = true ∨ h.state.isAwaitEnd = true → ∃ m ∈ seen, SetsAccount m

/-- **One message** after a login, or one that is not 001. -/
theorem OwedToLogin.step {seen : List ServerMsg} {msg : ServerMsg} (howed : OwedToLogin seen h)
    (hgood : h.WelcomeAfterLogin msg) (hstep : h.step msg = .ok h') :
    OwedToLogin (seen ++ [msg]) h' := by
  obtain ⟨sent, r, hout⟩ := exists_handle_of_step hstep
  have hmoves := (moves_handle hout).1
  have hold : h.reg.account.isSome = true ∨ h.state.isAwaitEnd = true →
      ∃ m ∈ seen ++ [msg], SetsAccount m := by
    intro hh
    obtain ⟨m, hm, hsets⟩ := howed hh
    exact ⟨m, List.mem_append_left _ hm, hsets⟩
  rintro (haccount | hstate)
  · rcases hmoves.account haccount with haccount | hsets
    · exact hold (.inl haccount)
    · exact ⟨msg, by simp, hsets⟩
  · rcases hmoves.awaitEnd hstate with hstate | hwelcome
    · exact hold (.inr hstate)
    · exact hold (.inl (hgood hwelcome))

/-- **A run** in which 001 comes after a login. -/
theorem loginEnforced_of_meets (hinit : OwedToLogin [] h₀) {msgs : List ServerMsg}
    (hmeets : Meets Handler.step WelcomeAfterLogin h₀ msgs) : LoginEnforced h₀ msgs := by
  rintro seen msg rest rfl h h' sent reg hrun hout
  have howed : OwedToLogin ([] ++ seen) h :=
    foldlM_invariant OwedToLogin (fun _ _ _ _ howed hgood hstep => howed.step hgood hstep) seen []
      h₀ h hinit hmeets.of_append hrun
  exact howed (.inr ((moves_handle hout).2 reg rfl))

/-! ## Success without a login -/

/-- A numeric reply without arguments. -/
def numericMsg (n : Numeric) : ServerMsg := ⟨Tags.new, none, .numeric n, Args.empty⟩

/-- A 001 message. -/
def welcomeMsg : ServerMsg := numericMsg ⟨text "001", by decide⟩

/-- A 376 message. -/
def endOfMotdMsg : ServerMsg := numericMsg ⟨text "376", by decide⟩

/-- A 900 message that names an account. -/
def loggedInMsg : ServerMsg :=
  ⟨Tags.new, none, .numeric ⟨text "900", by decide⟩,
    Args.ofWords [.fromStr "account", .fromStr "welcome"]⟩

/-- **Two messages are enough** for a handler that does not require a login. -/
theorem success_without_login (nicks : Nick × Option N) (caps : CapFn) (auths : SaslQueue L) :
    ¬ LoginEnforced (Handler.new nicks caps false auths) [welcomeMsg, endOfMotdMsg] := by
  intro henforced
  have hwelcome : (Handler.new nicks caps false auths).handle welcomeMsg =
      .ok ({ Handler.new nicks caps false auths with state := .awaitEnd }, [], .ok none) := rfl
  have hend : ({ Handler.new nicks caps false auths with state := .awaitEnd } :
      Handler N L).handle endOfMotdMsg =
        .ok ({ Handler.new nicks caps false auths with
          state := .awaitEnd, reg := Registration.default }, [],
          .ok (some (Registration.new nicks.1))) := rfl
  have hrun : [welcomeMsg].foldlM step (Handler.new nicks caps false auths) =
      .ok { Handler.new nicks caps false auths with state := .awaitEnd } := by
    rw [List.foldlM_cons, step_of_handle hwelcome]
    rfl
  obtain ⟨m, hm, hkind, -⟩ := henforced [welcomeMsg] endOfMotdMsg [] rfl _ _ _ _ hrun hend
  rw [List.mem_singleton.mp hm] at hkind
  exact absurd hkind (by decide)

variable [Sasl A L]

/-- **When a required login is enforced.**  Whatever the options, the handler made from them reports
success without a login in some run; in every run in which 001 comes after a login, success does
too. -/
theorem loginEnforced_runs (register : Register (Options A) N L)
    (hauth : register.auth = Options.auths) :
    ∀ opts : Options A, (SaslQueue.fromIter opts.sasl : SaslQueue L).isEmpty = false →
      opts.allowSaslFail = false →
      (∀ msgs, Meets step WelcomeAfterLogin (register.handler opts).2 msgs →
        LoginEnforced (register.handler opts).2 msgs) ∧
      ¬ ∀ msgs, LoginEnforced (register.handler opts).2 msgs := by
  intro opts _ _
  constructor
  · intro msgs hmeets
    refine loginEnforced_of_meets ?_ hmeets
    rintro (haccount | hstate)
    · exact absurd haccount (by simp [Register.handler, Handler.new, Registration.new])
    · exact absurd hstate (by simp [Register.handler, Handler.new, HandlerState.isAwaitEnd])
  · intro hall
    have hnew : (register.handler opts).2 =
        Handler.new (register.registerMsgs opts).2 (register.caps opts)
          (register.handler opts).2.needsAuth (register.auth opts).1 := rfl
    rw [Register.needsAuth_handler hauth opts] at hnew
    refine success_without_login (register.registerMsgs opts).2 (register.caps opts)
      (register.auth opts).1 ?_
    rw [← hnew]
    exact hall _

end

/-- A run with a login before 001. -/
theorem loginEnforced_bot :
    letI := emptyEngine
    LoginEnforced (bot [⟨.empty⟩]) [loggedInMsg, welcomeMsg, endOfMotdMsg] := by
  let _ : Base64.Engine := emptyEngine
  have hlogin : ∀ h, (bot [⟨.empty⟩]).step loggedInMsg = .ok h → h.reg.account.isSome = true := by
    intro h hstep
    rw [← Except.ok.inj hstep]
    rfl
  have hother : ∀ (h : Handler Nick ExternalLogic) (msg : ServerMsg),
      msg.kind.asBytes ≠ text "001" → h.WelcomeAfterLogin msg :=
    fun h msg hne hwelcome => absurd hwelcome hne
  refine (loginEnforced_runs (A := External) (N := Nick)
    (registerAsBot fun _ => .fromStr "VNZB") rfl
    { (Options.new : Options External) with sasl := [⟨.empty⟩] } rfl rfl).1 _ ?_
  exact ⟨hother _ _ (by decide), fun h hstep => ⟨fun _ => hlogin h hstep,
    fun h' _ => ⟨hother _ _ (by decide), fun _ _ => trivial⟩⟩⟩

/-- **Success without a login.**  A bot with a mechanism and no permission to fail registers without
being logged in. -/
theorem not_loginEnforced_bot :
    letI := emptyEngine
    ServerMsg.parse 0 (.fromStr "001") = some (.ok welcomeMsg) ∧
      ServerMsg.parse 0 (.fromStr "376") = some (.ok endOfMotdMsg) ∧
      (SaslQueue.fromIter [(⟨.empty⟩ : External)] : SaslQueue ExternalLogic).isEmpty = false ∧
      (Options.new : Options External).allowSaslFail = false ∧
      ¬ LoginEnforced (bot [⟨.empty⟩]) [welcomeMsg, endOfMotdMsg] := by
  let _ : Base64.Engine := emptyEngine
  exact ⟨by decide +kernel, by decide +kernel, rfl, rfl, success_without_login _ _ _⟩

end Handler

end Register

end Vinezombie
