import Vinezombie.Client.Register

/-!
# Options for connection registration

`client/register.rs` and `client/register/defaults.rs`: what a registration is configured with, the
messages it begins with, and the handler that goes on from there.

The generators that the source makes of a list of nicks, and the user name that it asks the system
for, are arguments of `registerAsClient` and `registerAsBot`.

* `Register.handler`: the first messages, and the handler.
* `Options.auths`: the mechanisms to try, and whether a login is required.
* `Register.needsAuth_handler`: what the handler makes of that requirement.
-/

namespace Vinezombie

open Auth Register

/-- `Register`. -/
structure Register (O N L : Type) where
  password : O → Option Line
  username : O → User
  userP1 : O → Arg
  userP2 : O → Arg
  realname : O → Line
  nicks : O → N
  caps : O → CapFn
  /-- The mechanisms, and whether to close the connection on non-authentication. -/
  auth : O → SaslQueue L × Bool

namespace Register

variable {O N L : Type} [NickGen N]

/-- `register_msgs`: the messages that are sent, the nick, and the generator of further ones. -/
def registerMsgs (register : Register O N L) (opts : O) :
    List ClientMsg × (Nick × Option N) :=
  let pass := (register.password opts).toList.map fun pass =>
    (ClientMsg.new (.fromStr "PASS")).add pass
  let cap := ((ClientMsg.new Cap.cap).add (.fromStr "LS")).add (.fromStr "302")
  let user := ((((ClientMsg.new (.fromStr "USER")).addWord
    (register.username opts).toArg).addWord (register.userP1 opts)).addWord
    (register.userP2 opts)).add (register.realname opts)
  let (nick, nickgen) := NickGen.nextNick (register.nicks opts)
  (pass ++ [cap, user, (ClientMsg.new Nick.cmd).addWord nick.toArg], (nick, nickgen))

/-- `Register::handler`: the messages that are sent, and the handler. -/
def handler (register : Register O N L) (opts : O) : List ClientMsg × Handler N L :=
  let (sent, nicks) := register.registerMsgs opts
  let caps := register.caps opts
  let (auths, needsAuth) := register.auth opts
  let needsAuth := needsAuth && auths.isEmpty
  (sent, Handler.new nicks caps needsAuth auths)

end Register

/-! ## Options -/

/-- `Options`.  The password is the one inside the source's `Secret`. -/
structure Options (A : Type) where
  pass : Option Line
  nicks : List Nick
  username : Option User
  realname : Option Line
  sasl : List A
  allowSaslFail : Bool
  caps : Finset Key

namespace Options

variable {A L : Type}

/-- `Options::new`. -/
def new : Options A := ⟨none, [], none, none, [], false, ∅⟩

/-- `Options::auths`. -/
def auths [Sasl A L] (opts : Options A) : SaslQueue L × Bool :=
  let queue : SaslQueue L := SaslQueue.fromIter opts.sasl
  let requireSasl := !(opts.allowSaslFail || queue.isEmpty)
  (queue, requireSasl)

end Options

/-! ## Defaults -/

/-- `default_user_p1`. -/
def defaultUserP1 {O : Type} (_ : O) : Arg := .fromStr "8"

/-- `default_user_p2`. -/
def defaultUserP2 {O : Type} (_ : O) : Arg := star

/-- `common_caps`. -/
def commonCaps : Finset Key :=
  {.fromStr "account-notify", .fromStr "account-tag",
    .fromStr "chghost", .fromStr "extended-join",
    .fromStr "extended-monitor", .fromStr "invite-notify",
    .fromStr "labeled-response", .fromStr "message-tags",
    .fromStr "msgid", .fromStr "multi-prefix",
    .fromStr "server-time", .fromStr "setname",
    .fromStr "standard-replies", .fromStr "userhost-in-names"}

/-- `default_caps`. -/
def defaultCaps (caps : Finset Key) (addCommon require : Bool) : CapFn := fun capsAvail =>
  match addCommon, require with
  | false, false => caps ∩ capsAvail
  | false, true => caps
  | true, false => (caps ∪ commonCaps) ∩ capsAvail
  | true, true => caps ∪ (capsAvail ∩ commonCaps)

section

variable {O A N L : Type}

/-- `register_as_custom`. -/
def registerAsCustom (password : O → Option Line) (username : O → User) (realname : O → Line)
    (nicks : O → N) (caps : O → CapFn) (auth : O → SaslQueue L × Bool) : Register O N L where
  password := password
  username := username
  userP1 := defaultUserP1
  userP2 := defaultUserP2
  realname := realname
  nicks := nicks
  caps := caps
  auth := auth

variable [Sasl A L]

/-- `register_as_client`.  `defaultUsername` is the user name that `default_client_username` falls
back to, and `defaultNicks` is `default_client_nicks`. -/
def registerAsClient (defaultUsername : User) (defaultNicks : List Nick → N) :
    Register (Options A) N L :=
  registerAsCustom
    (fun opts => opts.pass)
    (fun opts => opts.username.getD defaultUsername)
    (fun opts => opts.realname.getD (.fromStr "???"))
    (fun opts => defaultNicks opts.nicks)
    (fun opts => defaultCaps opts.caps true false)
    Options.auths

/-- `register_as_bot`.  `defaultNicks` is `default_bot_nicks`. -/
def registerAsBot (defaultNicks : List Nick → N) : Register (Options A) N L :=
  registerAsCustom
    (fun opts => opts.pass)
    (fun opts => opts.username.getD (.fromStr "vnzb_bot"))
    (fun opts => opts.realname.getD (.fromStr "Vinezombie Bot"))
    (fun opts => defaultNicks opts.nicks)
    (fun opts => defaultCaps opts.caps false true)
    Options.auths

/-- **A login is never required.**  `Options::auths` requires one only if there is a mechanism, and
the handler keeps the requirement only if there is none. -/
theorem Register.needsAuth_handler [NickGen N] {register : Register (Options A) N L}
    (hauth : register.auth = Options.auths) (opts : Options A) :
    (register.handler opts).2.needsAuth = false := by
  show ((register.auth opts).2 && (register.auth opts).1.isEmpty) = false
  rw [hauth]
  show (!(opts.allowSaslFail || (SaslQueue.fromIter opts.sasl : SaslQueue L).isEmpty) &&
    (SaslQueue.fromIter opts.sasl : SaslQueue L).isEmpty) = false
  cases (SaslQueue.fromIter opts.sasl : SaslQueue L).isEmpty with
  | false => rw [Bool.and_false]
  | true => rw [Bool.or_true, Bool.not_true, Bool.false_and]

end

/-! ## A bot -/

/-- The handler of a bot with a single nick, which logs in by certificate where `sasl` says so. -/
def bot (sasl : List External) : Handler Nick ExternalLogic :=
  ((registerAsBot fun _ => .fromStr "VNZB").handler
    { (Options.new : Options External) with sasl }).2

/-- An engine that is right about empty data, which is all that a bot without an authzid encodes. -/
@[reducible] def emptyEngine : Base64.Engine where
  encode _ := []
  decode _ := .ok []
  isBase64_encode := by simp

end Vinezombie
