import Vinezombie.Client.Auth
import Vinezombie.Client.Cap
import Vinezombie.Util.NameMap

/-!
# Connection registration

`client/register/handler.rs`: the state machine that takes a connection from the first message of
the server to the end of the message of the day.

`Handler.handle` is written in the pieces of the source's function: what it does before its `match`,
one function for each arm that does more than return, and what it does after.  An arm either returns
from `handle` or goes on with a value, which `Flow` tells apart.  Calls of `unwrap` are `unwrap`,
with the proof that there is no error; what is left of the panics of the source is `swap_remove`, in
the removal of capabilities.

Nick generators are trait objects in the source; here they are the values of a type `N` with the
functions of `NickGen` that the handler calls.

* `Registration`, `HandlerError`, `HandlerState`: the data.
* `Handler.handle`: what the handler does with one message.
-/

namespace Vinezombie

open Library Auth

/-- `cmd::NICK`. -/
def Nick.cmd : Cmd := .fromStr "NICK"

/-- `NickGen`. -/
class NickGen (N : Type) where
  nextNick : N → Nick × Option N
  handleInvalid : N → Nick → Option N

/-- A single nick as a generator. -/
instance : NickGen Nick where
  nextNick nick := (nick, none)
  handleInvalid self nick := if nick = self then some self else none

/-- `owning_merged`. -/
def Source.owningMerged (s : Source) : Source := unwrap s.ownMerged (by rw [s.ownMerged_eq]; rfl)

theorem Source.owningMerged_eq (s : Source) : s.owningMerged = s := by
  unfold owningMerged
  simp only [s.ownMerged_eq]
  rfl

/-! ## Numbers in messages -/

/-- `std::num::IntErrorKind`, as far as parsing an unsigned integer can fail. -/
inductive IntErrorKind where
  | empty
  | invalidDigit
  | posOverflow
  deriving DecidableEq, Repr

/-- The digits of a `u16`, after the sign. -/
def parseU16Digits (result : ℕ) : List UInt8 → Except IntErrorKind UInt16
  | [] => .ok (UInt16.ofNat result)
  | c :: rest =>
    if !isAsciiDigit c then .error .invalidDigit
    else if UInt16.size ≤ result * 10 + Numeric.digit c then .error .posOverflow
    else parseU16Digits (result * 10 + Numeric.digit c) rest

/-- `u16::from_str`. -/
def parseU16 (bytes : List UInt8) : Except IntErrorKind UInt16 :=
  match bytes with
  | [] => .error .empty
  | c :: rest =>
    if c = byte '+' ∧ rest ≠ [] then parseU16Digits 0 rest
    else parseU16Digits 0 (c :: rest)

namespace Register

/-! ## Registrations -/

/-- `Registration`. -/
structure Registration where
  nick : Nick
  userhost : Option UserHost
  account : Option Arg
  source : Option Source
  caps : NameMap Bool
  version : Option Arg
  isupport : NameMap Unit
  deriving DecidableEq

namespace Registration

/-- `Registration::new`. -/
def new (nick : Nick) : Registration :=
  ⟨nick, none, none, none, FlatMap.new, none, FlatMap.new⟩

/-- `Default`: the nick is `names::STAR`. -/
def default : Registration := new (.fromStr "*")

/-- `parse_myinfo`. -/
def parseMyinfo (reg : Registration) (args : List Arg) : Registration :=
  match (args.drop 2).head? with
  | none => reg
  | some version => { reg with version := some version }

end Registration

/-- The errors that `HandlerError::Broken` wraps. -/
inductive Broken where
  | text (s : String)
  | parse (e : ParseError)
  /-- The port in a 010 message. -/
  | port (port : Arg) (e : IntErrorKind)
  deriving DecidableEq

/-- `register::HandlerError`. -/
inductive HandlerError where
  | noAccess (line : Line)
  | noNicks
  | noLogin
  | redirect (server : Word) (port : UInt16) (info : Line)
  | serverError (msg : ServerMsg)
  | broken (e : Broken)
  | missingCaps (caps : Finset Key)
  deriving DecidableEq

/-! ## States -/

/-- `CapFn`. -/
abbrev CapFn := Finset Key → Finset Key

/-- `HandlerState`. -/
inductive HandlerState (L : Type) where
  | broken
  | req (caps : CapFn) (auths : SaslQueue L)
  | ack (ackd : Finset Key) (queue : SaslQueue L)
  | sasl (handler : Auth.Handler L)
  | capEnd
  | awaitWelcome
  | awaitEnd

namespace HandlerState

variable {L : Type}

/-- `matches!(state, HandlerState::AwaitEnd)`. -/
def isAwaitEnd : HandlerState L → Bool
  | .awaitEnd => true
  | _ => false

variable [SaslLogic L]

/-- `HandlerState::ack`, with the messages that are sent. -/
def onAck (state : HandlerState L) (ack : Bool) (caps : OrderedMap Key Word) :
    HandlerState L × List ClientMsg × Except HandlerError Unit :=
  match state with
  | .ack ackd queue =>
    let caps := caps.keys.toFinset
    let missing := ackd ∩ caps
    if ack = false ∧ missing ≠ ∅ then (.ack ackd queue, [], .error (.missingCaps missing))
    else
      let ackd := if ack then ackd \ caps else ackd
      if ackd = ∅ then
        match Auth.Handler.fromQueue queue with
        | some handler => (.sasl handler, [handler.authMsg], .ok ())
        | none => (.capEnd, [], .ok ())
      else (.ack ackd queue, [], .ok ())
  | state => (state, [], .ok ())

end HandlerState

/-- How an arm of `handle` ends: it returns from the function, or goes on with a value. -/
inductive Flow where
  | ret (result : Except HandlerError (Option Registration))
  | go (retval : Option Registration)

/-- `return Err(e)`, `Err(e)?`. -/
def Flow.err (e : HandlerError) : Flow := .ret (.error e)

/-- `register::Handler`. -/
structure Handler (N L : Type) where
  nicks : Option N
  state : HandlerState L
  needsAuth : Bool
  reg : Registration

namespace Handler

variable {N L : Type}

/-- `Handler::new`. -/
def new (nicks : Nick × Option N) (caps : CapFn) (needsAuth : Bool) (auths : SaslQueue L) :
    Handler N L :=
  ⟨nicks.2, .req caps auths, needsAuth, Registration.new nicks.1⟩

/-! ## Before the `match` -/

/-- The source of the first message that has one. -/
def noteSource (h : Handler N L) (msg : ServerMsg) : Handler N L :=
  if h.reg.source.isNone then
    { h with reg := { h.reg with source := msg.source.map Source.owningMerged } }
  else h

/-- `handlers::pong`: the reply, if the message is a `PING`. -/
def pong (msg : ServerMsg) : Option ClientMsg :=
  if msg.kind.asBytes = text "PING" then
    let reply := ClientMsg.new (.fromStr "PONG")
    match msg.args.splitLast.2 with
    | some last => some (reply.add last)
    | none => some reply
  else none

section

variable [SaslLogic L] [Base64.Engine]

/-- The message is given to the SASL handler while there is one.  The last component is
`ignore_sasl`. -/
def handleSasl (h : Handler N L) (msg : ServerMsg) : Handler N L × List ClientMsg × Bool :=
  match h.state with
  | .sasl sasl =>
    match sasl.handle msg with
    | (sasl, sent, .ok false) => ({ h with state := .sasl sasl }, sent, true)
    | (_, sent, .ok true) => ({ h with state := .capEnd }, sent, true)
    | (_, sent, .error _) => ({ h with state := .capEnd }, sent, true)
  | _ => (h, [], false)

end

/-! ## The arms -/

/-- 001. -/
def handleWelcome (h : Handler N L) (msg : ServerMsg) : Handler N L × List ClientMsg × Flow :=
  let nick := (msg.args.words.head?.filter fun n => decide (n.bytes ≠ text "*")).bind fun n =>
    (Nick.fromSuper n).toOption
  let reg := match nick with
    | some nick => { h.reg with nick }
    | none => h.reg
  let reg := match msg.source with
    | some source =>
      if reg.source = some source then reg else { reg with source := some source.owningMerged }
    | none => reg
  ({ h with reg, state := .awaitEnd }, [], .go none)

/-- A token of 005, or nothing for one that is skipped. -/
def parseISupport (isupport : Arg) : Option (Key × Word) :=
  match (Splitter.new isupport).string .key false with
  | (.error _, _) => none
  | (.ok key, splitter) =>
    match splitter.nextByte with
    | (some b, splitter) =>
      if b ≠ byte '=' then none else some (key, (splitter.restOrDefault .word).1)
    | (none, splitter) => some (key, (splitter.restOrDefault .word).1)

/-- 005 after 001. -/
def handleISupport (h : Handler N L) (msg : ServerMsg) : Handler N L × List ClientMsg × Flow :=
  match msg.args.words with
  | [] => (h, [], .ret (.ok none))
  | _ :: isupports =>
    let ism := (isupports.filterMap parseISupport).foldl
      (fun ism kv => (ism.insert NameMap.tag (kv, ())).2) h.reg.isupport.edit
    ({ h with reg := { h.reg with isupport := ism.drop NameMap.tag } }, [], .go none)

/-- `u8::is_ascii_graphic`. -/
def isAsciiGraphic (b : UInt8) : Bool := byte '!' ≤ b && b ≤ byte '~'

/-- `rsplit(|c| !f(c)).next()`: what follows the last byte that does not satisfy `f`. -/
def afterLast (f : UInt8 → Bool) (bytes : List UInt8) : List UInt8 :=
  (bytes.reverse.takeWhile f).reverse

/-- The closure `split` in the arm for 005 before 001. -/
def parseBounce (last : List UInt8) : Option (Word × UInt16) :=
  let server := afterLast isAsciiGraphic (last.takeWhile fun c => c != byte ',')
  match last.dropWhile fun c => c != byte ',' with
  | [] => none
  | _ :: rest =>
    match Str.fromBytes .word server, parseU16 (afterLast isAsciiDigit rest) with
    | .ok server, .ok port => some (server, port)
    | _, _ => none

/-- 005 before 001. -/
def handleBounce (h : Handler N L) (msg : ServerMsg) : Handler N L × List ClientMsg × Flow :=
  match msg.args.splitLast.2 with
  | none => (h, [], .err (.broken (.text "empty 005 message")))
  | some last =>
    match parseBounce last.bytes with
    | some (server, port) => (h, [], .err (.redirect server port last))
    | none => (h, [], .err (.serverError msg))

/-- 010. -/
def handleRedirect (h : Handler N L) (msg : ServerMsg) : Handler N L × List ClientMsg × Flow :=
  match msg.args.splitLast with
  | ([_, client, port], some info) =>
    match parseU16 port.bytes with
    | .ok n => (h, [], .err (.redirect client.toWord n info))
    | .error e => (h, [], .err (.broken (.port port e)))
  | _ => (h, [], .err (.serverError msg))

/-- 376 and 422 after 001. -/
def handleEnd (h : Handler N L) : Handler N L × List ClientMsg × Flow :=
  ({ h with reg := Registration.default }, [], .go (some h.reg))

section

variable [NickGen N]

/-- `next_nick`, which is also 433 and 436. -/
def nextNick (h : Handler N L) : Handler N L × List ClientMsg × Flow :=
  match h.nicks with
  | none => (h, [], .err .noNicks)
  | some nicks =>
    let (nick, nicks) := NickGen.nextNick nicks
    ({ h with nicks, reg := { h.reg with nick } },
      [(ClientMsg.new Nick.cmd).addWord nick.toArg], .go none)

/-- 432. -/
def handleInvalidNick (h : Handler N L) : Handler N L × List ClientMsg × Flow :=
  nextNick { h with nicks := h.nicks.bind fun ng => NickGen.handleInvalid ng h.reg.nick }

end

/-- The end of 900 and 901: what the server calls us. -/
def setWhoami (h : Handler N L) (whoami : Option Arg) : Handler N L × List ClientMsg × Flow :=
  match whoami with
  | none => (h, [], .go none)
  | some whoami =>
    match Source.parse whoami.toWord with
    | .error e => (h, [], .err (.broken (.parse e)))
    | .ok whoami =>
      ({ h with reg := { h.reg with nick := whoami.nick, userhost := whoami.userhost } }, [],
        .go none)

/-- 900. -/
def handleLoggedIn (h : Handler N L) (msg : ServerMsg) : Handler N L × List ClientMsg × Flow :=
  let args := msg.args.splitLast.1
  match args.getLast? with
  | none => (h, [], .go none)
  | some account =>
    setWhoami { h with reg := { h.reg with account := some account } } args.dropLast.getLast?

/-- 901. -/
def handleLoggedOut (h : Handler N L) (msg : ServerMsg) : Handler N L × List ClientMsg × Flow :=
  setWhoami { h with reg := { h.reg with account := none } } msg.args.splitLast.1.getLast?

/-! ## `CAP` -/

/-- `caps.try_insert((key, value), false)` for every capability of the message. -/
def insertCaps (h : Handler N L) (caps : OrderedMap Key Word) : Handler N L :=
  let g := caps.entries.foldl (fun g kv => (g.tryInsert NameMap.tag (kv, false)).2)
    h.reg.caps.edit
  { h with reg := { h.reg with caps := g.drop NameMap.tag } }

section

variable [SaslLogic L]

/-- The queue after the mechanisms that the server does not support were taken out. -/
def filterAuths (caps : NameMap Bool) (auths : SaslQueue L) : SaslQueue L :=
  match NameMap.getParsed caps Cap.sasl Cap.Sasl.fromUnion with
  | some (.ok mechs) => auths.retain fun mech => decide (∃ m ∈ mechs, m.bytes = mech.bytes)
  | some (.error _) => auths
  | none => auths.clear

/-- `CAP LS`, the last line of it, in the state that waits for it.  The state is `Broken` where the
source returns before it sets another one. -/
def handleReq (h : Handler N L) (reqs : CapFn) (auths : SaslQueue L) :
    Handler N L × List ClientMsg × Flow :=
  let auths := filterAuths h.reg.caps auths
  let avail := (NameMap.keys h.reg.caps).toFinset
  let reqs := reqs avail
  if auths.isEmpty ∧ h.needsAuth then ({ h with state := .broken }, [], .err .noLogin)
  else
    let reqs := if auths.isEmpty then reqs else insert Cap.sasl reqs
    let diff := reqs \ avail
    if diff ≠ ∅ then ({ h with state := .broken }, [], .err (.missingCaps diff))
    else
      let reqs := reqs.erase Cap.sts
      if reqs = ∅ then ({ h with state := .capEnd }, [], .go none)
      else
        ({ h with state := .ack reqs auths },
          Cap.req (reqs.sort (· ≤ ·)) (some h.reg.nick.toArg) h.reg.source, .go none)

/-- `self.state.ack(ack, &caps, sink)?`, and what is to be done if it succeeds. -/
def handleAck (h : Handler N L) (ack : Bool) (caps : OrderedMap Key Word)
    (andThen : Handler N L → Handler N L) : Handler N L × List ClientMsg × Flow :=
  match h.state.onAck ack caps with
  | (state, sent, .error e) => ({ h with state }, sent, .err e)
  | (state, sent, .ok ()) => (andThen { h with state }, sent, .go none)

/-- `caps.insert_or_update((key, value), true)` for every capability of the message. -/
def updateCaps (h : Handler N L) (caps : OrderedMap Key Word) : Handler N L :=
  let g := caps.entries.foldl (fun g kv => (NameMap.insertOrUpdate g kv true).2)
    h.reg.caps.edit
  { h with reg := { h.reg with caps := g.drop NameMap.tag } }

/-- `caps.remove_raw(cap)` for every capability of the message. -/
def removeCaps (h : Handler N L) (caps : OrderedMap Key Word) : Except Panic (Handler N L) :=
  (h.reg.caps.edit.removeAll NameMap.tag caps.keys).map fun g =>
    { h with reg := { h.reg with caps := g.drop NameMap.tag } }

/-- `CAP`. -/
def handleCap (h : Handler N L) (msg : ServerMsg) :
    Except Panic (Handler N L × List ClientMsg × Flow) :=
  match Cap.ServerMsgArgs.parse msg.args with
  | .error e => .ok (h, [], .err (.broken (.parse e)))
  | .ok capMsg =>
    match capMsg.subcmd with
    | .ls =>
      let h := h.insertCaps capMsg.caps
      if capMsg.isLast then
        match h.state with
        | .req reqs auths => .ok (h.handleReq reqs auths)
        | _ => .ok (h, [], .go none)
      else .ok (h, [], .go none)
    | .new => .ok (h.insertCaps capMsg.caps, [], .go none)
    | .ack => .ok (h.handleAck true capMsg.caps fun h => h.updateCaps capMsg.caps)
    | .nak => .ok (h.handleAck false capMsg.caps id)
    | .del => (h.removeCaps capMsg.caps).map fun h => h.handleAck false capMsg.caps id
    | .list => .ok (h, [], .err (.broken (.text "unexpected CAP LIST")))

/-! ## The whole -/

variable [NickGen N] [Base64.Engine]

/-- The `match` of `handle`, with its arms in the order of the source. -/
def dispatch (h : Handler N L) (ignoreSasl : Bool) (msg : ServerMsg) :
    Except Panic (Handler N L × List ClientMsg × Flow) :=
  let kind := msg.kind.asBytes
  if kind ∈ [text "001", text "002", text "003", text "004"] ∧ h.needsAuth ∧
      h.reg.account.isNone then .ok (h, [], .err .noLogin)
  else if kind = text "001" then .ok (h.handleWelcome msg)
  else if kind = text "004" ∧ h.state.isAwaitEnd then
    .ok ({ h with reg := h.reg.parseMyinfo msg.args.words }, [], .go none)
  else if kind = text "005" ∧ h.state.isAwaitEnd then .ok (h.handleISupport msg)
  else if kind = text "004" then .ok (h, [], .err (.broken (.text "004 sent before 001")))
  else if kind = text "005" then .ok (h.handleBounce msg)
  else if kind = text "010" then .ok (h.handleRedirect msg)
  else if kind ∈ [text "376", text "422"] ∧ h.state.isAwaitEnd then .ok h.handleEnd
  else if kind ∈ [text "376", text "422"] then
    .ok (h, [], .err (.broken (.text "unexpected MOTD message")))
  else if kind = text "432" then .ok h.handleInvalidNick
  else if kind ∈ [text "433", text "436"] then .ok h.nextNick
  else if kind ∈ [text "464", text "465"] then
    .ok (h, [], .err (.noAccess (msg.args.splitLast.2.getD .empty)))
  else if kind = text "900" then .ok (h.handleLoggedIn msg)
  else if kind = text "901" then .ok (h.handleLoggedOut msg)
  else if kind ∈ [text "902", text "904", text "905", text "906", text "907"] ∧ ignoreSasl then
    .ok (h, [], .go none)
  else if kind = text "CAP" then h.handleCap msg
  else if msg.kind.isError = some true then .ok (h, [], .err (.serverError msg))
  else .ok (h, [], .go none)

/-- What follows the `match`: `CAP END`, once negotiation is over. -/
def finish (h : Handler N L) (retval : Option Registration) :
    Handler N L × List ClientMsg × Except HandlerError (Option Registration) :=
  match h.state with
  | .capEnd =>
    if h.needsAuth ∧ h.reg.account.isNone then (h, [], .error .noLogin)
    else
      ({ h with state := .awaitWelcome },
        [(ClientMsg.new Cap.cap).add (.fromStr "END")], .ok retval)
  | _ => (h, [], .ok retval)

/-- `handle`: the handler, the messages that are sent, and what is returned. -/
def handle (h : Handler N L) (msg : ServerMsg) :
    Except Panic (Handler N L × List ClientMsg × Except HandlerError (Option Registration)) :=
  let h := h.noteSource msg
  match pong msg with
  | some reply => .ok (h, [reply], .ok none)
  | none =>
    let (h, sent₁, ignoreSasl) := h.handleSasl msg
    match h.dispatch ignoreSasl msg with
    | .error p => .error p
    | .ok (h, sent₂, .ret result) => .ok (h, sent₁ ++ sent₂, result)
    | .ok (h, sent₂, .go retval) =>
      let (h, sent₃, result) := h.finish retval
      .ok (h, sent₁ ++ sent₂ ++ sent₃, result)

end

end Handler

end Register

end Vinezombie
