import Mathlib.Data.Finset.Basic
import Vinezombie.Message.Codec
import Vinezombie.Strings.Base64

/-!
# SASL authentication

`client/auth.rs` and `client/auth/handler.rs`: mechanisms, the queue of mechanisms to try, and the
handler that exchanges `AUTHENTICATE` messages with the server.

Mechanisms are trait objects in the source.  Here they are the values of a type `L` with the two
functions of `SaslLogic` that the handler calls, and configurations are the values of a type `A`
from which mechanisms are made.

* `Auth.SaslQueue`: the mechanisms that are left.
* `Auth.Handler.handle`: what the handler does with one message.
-/

namespace Vinezombie

open Base64

namespace Auth

/-! ## Mechanisms -/

/-- `SaslLogic`.  The mechanism answers a challenge with the bytes that it leaves in the buffer, or
not at all, which says that the server's implementation of it is broken. -/
class SaslLogic (L : Type) where
  name : L → Arg
  reply : L → List UInt8 → Option (List UInt8) × L

/-- `Sasl`. -/
class Sasl (A : Type) (L : outParam Type) where
  logic : A → List L

/-- `sasl::External`, with the authzid. -/
structure External where
  authzid : NoNul

/-- `ExternalLogic`. -/
structure ExternalLogic where
  authzid : NoNul

instance : SaslLogic ExternalLogic where
  name _ := .fromStr "EXTERNAL"
  reply logic input := (if input.isEmpty then some logic.authzid.bytes else none, logic)

instance : Sasl External ExternalLogic where
  logic sasl := [⟨sasl.authzid⟩]

/-- `SaslQueue`. -/
@[ext] structure SaslQueue (L : Type) where
  queue : List L

namespace SaslQueue

variable {A L : Type}

/-- `SaslQueue::new`. -/
def new : SaslQueue L := ⟨[]⟩

/-- `is_empty`. -/
def isEmpty (q : SaslQueue L) : Bool := q.queue.isEmpty

/-- `push`. -/
def push [Sasl A L] (q : SaslQueue L) (sasl : A) : SaslQueue L := ⟨q.queue ++ Sasl.logic sasl⟩

/-- `pop`, from the front. -/
def pop (q : SaslQueue L) : Option (L × SaslQueue L) :=
  match q.queue with
  | [] => none
  | logic :: rest => some (logic, ⟨rest⟩)

/-- `retain`. -/
def retain [SaslLogic L] (q : SaslQueue L) (supported : Arg → Bool) : SaslQueue L :=
  ⟨q.queue.filter fun l => supported (SaslLogic.name l)⟩

/-- `clear`. -/
def clear (_ : SaslQueue L) : SaslQueue L := ⟨[]⟩

/-- `FromIterator`. -/
def fromIter [Sasl A L] (iter : List A) : SaslQueue L := iter.foldl push new

end SaslQueue

/-! ## The handler -/

/-- `cmd::AUTHENTICATE`. -/
def authenticate : Cmd := .fromStr "AUTHENTICATE"

/-- `names::STAR`, as an argument. -/
def star : Arg := .fromStr "*"

/-- `msg_abort`. -/
def msgAbort : ClientMsg := (ClientMsg.new authenticate).addWord star

/-- `auth::HandlerError`. -/
inductive HandlerError where
  | broken (name : Arg)
  | unsupported
  | fail (reason : Line)
  deriving DecidableEq

/-- `auth::Handler`. -/
structure Handler (L : Type) where
  queue : SaslQueue L
  logic : L
  decoder : ChunkDecoder

namespace Handler

variable {L : Type}

/-- `Handler::new`. -/
def new (logic : L) (queue : SaslQueue L) : Handler L := ⟨queue, logic, ChunkDecoder.new 400⟩

/-- `Handler::from_queue`. -/
def fromQueue (queue : SaslQueue L) : Option (Handler L) :=
  match queue.pop with
  | none => none
  | some (logic, queue) => some (new logic queue)

variable [SaslLogic L]

/-- `auth_msg`, which names the current mechanism. -/
def authMsg (h : Handler L) : ClientMsg :=
  (ClientMsg.new authenticate).addWord (SaslLogic.name h.logic)

variable [Engine]

/-- The arm of `handle` for `AUTHENTICATE`, once a challenge is complete. -/
def handleChallenge (h : Handler L) (chal : List UInt8) :
    Handler L × List ClientMsg × Except HandlerError Bool :=
  match SaslLogic.reply h.logic chal with
  | (none, logic) =>
    let name := SaslLogic.name logic
    let queue := h.queue.retain fun ln => decide (name ≠ ln)
    match queue.pop with
    | some (newLogic, queue) => ({ h with logic := newLogic, queue }, [msgAbort], .ok false)
    | none => ({ h with logic, queue }, [msgAbort], .error (.broken name))
  | (some buf, logic) =>
    ({ h with logic },
      (ChunkEncoder.new buf 400).toList.map fun chunk => (ClientMsg.new authenticate).addWord chunk,
      .ok false)

/-- The arm of `handle` for `AUTHENTICATE`. -/
def handleAuthenticate (h : Handler L) (msg : ServerMsg) :
    Handler L × List ClientMsg × Except HandlerError Bool :=
  let (res, decoder) :=
    match msg.args.words.head? with
    | some first => h.decoder.add first.bytes
    | none => (some h.decoder.decode.1, h.decoder.decode.2)
  match res with
  | none => ({ h with decoder }, [], .ok false)
  | some (.error _) =>
    ({ h with decoder }, [msgAbort], .error (.broken (.fromStr "base64")))
  | some (.ok chal) => handleChallenge { h with decoder } chal

/-- The arm of `handle` for 902 and 904. -/
def handleFail (h : Handler L) (msg : ServerMsg) :
    Handler L × List ClientMsg × Except HandlerError Bool :=
  match h.queue.pop with
  | some (nextLogic, queue) =>
    let h : Handler L := { h with logic := nextLogic, queue }
    (h, [h.authMsg], .ok false)
  | none => (h, [], .error (.fail (msg.args.splitLast.2.getD .empty)))

/-- The arm of `handle` for 908. -/
def handleMechs (h : Handler L) (msg : ServerMsg) :
    Handler L × List ClientMsg × Except HandlerError Bool :=
  let set := msg.args.splitLast.1
  let queue := h.queue.retain fun ln => decide (ln ∈ set)
  if queue.isEmpty ∧ SaslLogic.name h.logic ∉ set then
    ({ h with queue }, [], .error .unsupported)
  else ({ h with queue }, [], .ok false)

/-- `handle`: the handler, the messages that are sent, and what is returned. -/
def handle (h : Handler L) (msg : ServerMsg) :
    Handler L × List ClientMsg × Except HandlerError Bool :=
  let kind := msg.kind.asBytes
  if kind = text "AUTHENTICATE" then h.handleAuthenticate msg
  else if kind = text "902" ∨ kind = text "904" then h.handleFail msg
  else if kind = text "905" then (h, [], .error (.broken (.fromStr "counting")))
  else if kind = text "906" then (h, [h.authMsg], .ok false)
  else if kind = text "908" then h.handleMechs msg
  else if kind = text "900" ∨ kind = text "903" ∨ kind = text "907" then (h, [], .ok true)
  else (h, [], .ok false)

end Handler

end Auth

end Vinezombie
