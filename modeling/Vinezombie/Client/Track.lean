import Vinezombie.Client.State
import Vinezombie.Message.ArgsEdits

/-!
# Keeping track of the client's source

`Registration::save` of `client/register/handler.rs`, which stores what is known when a connection
is registered, and `client/handlers/track.rs`, the handler that keeps the source of the client up to
date from then on.

The tracker computes the assumed length of the source again whenever it changes the source, so that
a length that is current stays so.  `save` computes it as its first step, from the limits that were
stored before; the limits of the new connection are stored behind that.

* `TrackClientSource.sourceLenCurrent_handle`: the tracker, one message.
* `sourceLenCurrent_save_iff`: what `save` leaves.
* `sourceLenCurrent_run_iff`: both, for any messages.
-/

namespace Vinezombie

variable {I A : Type} [LinearOrder I] [TypeId I] [ISupport.StdSearch]

/-- `User::from_super`. -/
def User.fromSuper (arg : Arg) : Except InvalidString User :=
  arg.fromSuper (fun bs => checkBytes bs (isInvalidForUser false)) (by
    intro bs harg hcheck
    obtain ⟨hfirst, hword⟩ := StringType.arg.findInvalid_eq_none_iff.mp harg
    refine StringType.user.findInvalid_eq_none_iff.mpr ⟨hfirst, fun b hb => ?_⟩
    have hb' := checkBytes_eq_none_iff.mp hcheck b hb
    simp only [isInvalidForUser, Bool.false_eq_true, if_false, Bool.or_false,
      Bool.or_eq_false_iff, beq_eq_false_iff_ne] at hb'
    exact isInvalidForUser_eq_false.mpr ⟨hb'.1, hb'.2, hword b hb⟩)

/-! ## Saving a registration -/

namespace Register.Registration

/-- `Registration::save`. -/
def save (r : Registration) (state : ClientState I A) : ClientState I A :=
  let source : Source := ⟨r.nick, r.userhost⟩
  let state := state.updateSourceLenFrom (some source) true
  let state := state.insert .clientSource source
  let state := state.insert .account r.account
  let state := state.insert .caps r.caps
  let state := state.insert .iSupport r.isupport
  let state := match r.source with
    | some serverSource => state.insert .serverSource serverSource
    | none => state
  match r.version with
  | some version => state.insert .serverVersion version
  | none => state

end Register.Registration

/-! ## The tracker -/

/-- The `Debug` text of an `Option<u8>`. -/
def debugByte : Option UInt8 → List UInt8
  | some b => text "Some(" ++ text (toString b.toNat) ++ text ")"
  | none => text "None"

namespace TrackClientSource

/-- The `is_op` of an item, and what is left of it. -/
def parseIsOp (splitter : Splitter .arg) : Except ParseError (Bool × Splitter .arg) :=
  let (first, splitter) := splitter.nextByte
  if first = some (byte '=') then .ok (false, splitter)
  else if first = some (byte '*') then
    let (second, splitter) := splitter.nextByte
    if second = some (byte '=') then .ok (true, splitter)
    else .error (.invalidField "is_op" (text "expected =, got " ++ debugByte second))
  else .error (.invalidField "is_op" (text "expected * or =, got " ++ debugByte first))

/-- The `is_away` of an item, and what is left of it. -/
def parseIsAway (splitter : Splitter .arg) : Except ParseError (Bool × Splitter .arg) :=
  let (first, splitter) := splitter.nextByte
  if first = some (byte '+') then .ok (false, splitter)
  else if first = some (byte '-') then .ok (true, splitter)
  else .error (.invalidField "is_away" (text "expected + or -, got " ++ debugByte first))

/-- `parse_userhost_item`.  An item about another nick is an error without a `ParseError`. -/
def parseUserhostItem (item : Arg) (nick : Nick) : Except (Option ParseError) UserHost :=
  match (Splitter.new item).saveEnd fun s =>
    ((s.untilByteEq (byte '=')).untilByteEq (byte '*')).string .nick true with
  | (.error _, _) => .error none
  | (.ok n, splitter) =>
    if n ≠ nick then .error none
    else
      match parseIsOp splitter with
      | .error e => .error (some e)
      | .ok (_, splitter) =>
        match parseIsAway splitter with
        | .error e => .error (some e)
        | .ok (_, splitter) =>
          match UserHost.parse (splitter.restOrDefault .word).1 with
          | .error e => .error (some e)
          | .ok userhost => .ok userhost

/-- The loop over the items of a 302 message: the first that is about the client. -/
def findUserhost (nick : Nick) : List Arg → Option UserHost
  | [] => none
  | item :: items =>
    match parseUserhostItem item nick with
    | .ok userhost => some userhost
    | .error _ => findUserhost nick items

/-- What the arms of `handle` do with the source that is stored: whether the handler is finished,
and the state, where `change` is the new source if there is one. -/
def withClientSource (state : ClientState I A) (change : Source → Option Source) :
    Bool × ClientState I A :=
  match state.get .clientSource with
  | none => (true, state)
  | some src =>
    match change src with
    | some src => (false, (state.write .clientSource src).updateSourceLen)
    | none => (false, state)

/-- 302. -/
def handleUserhost (items : List Arg) (src : Source) : Option Source :=
  (findUserhost src.nick items).map fun userhost => { src with userhost := some userhost }

/-- `NICK`. -/
def handleNick (msgSource : Option Source) (nick : Arg) (src : Source) : Option Source :=
  match Nick.fromSuper nick with
  | .error _ => none
  | .ok nick =>
    if msgSource.map Source.nick = some src.nick then some { src with nick := nick } else none

/-- `CHGHOST`. -/
def handleChghost (msgSource : Option Source) (user host : Arg) (src : Source) : Option Source :=
  if msgSource.map Source.nick = some src.nick then
    match User.fromSuper user with
    | .error _ => none
    | .ok user => some { src with userhost := some ⟨some user, host.toWord⟩ }
  else none

/-- `handle`: whether the handler is finished, and the state. -/
def handle (msg : ServerMsg) (state : ClientState I A) : Bool × ClientState I A :=
  let kind := msg.kind.asBytes
  if kind = text "302" then
    match msg.args.all with
    | some (_ :: items) => withClientSource state (handleUserhost items)
    | _ => (false, state)
  else if kind = text "NICK" then
    match msg.args.all with
    | some [nick] => withClientSource state (handleNick msg.source nick)
    | _ => (false, state)
  else if kind = text "CHGHOST" then
    match msg.args.all with
    | some [user, host] => withClientSource state (handleChghost msg.source user host)
    | _ => (false, state)
  else (false, state)

/-- **What the tracker does with a message**: nothing, or it changes the source that is stored and
computes the length again. -/
theorem handle_cases (msg : ServerMsg) (state : ClientState I A) :
    handle msg state = (false, state) ∨
      ∃ change : Source → Option Source, handle msg state = withClientSource state change := by
  simp only [handle]
  split
  · split
    · exact Or.inr ⟨_, rfl⟩
    · exact Or.inl rfl
  · split
    · split
      · exact Or.inr ⟨_, rfl⟩
      · exact Or.inl rfl
    · split
      · split
        · exact Or.inr ⟨_, rfl⟩
        · exact Or.inl rfl
      · exact Or.inl rfl

/-- **One message.**  A length that is current stays current. -/
theorem sourceLenCurrent_handle (msg : ServerMsg) {state : ClientState I A}
    (h : state.SourceLenCurrent) : (handle msg state).2.SourceLenCurrent := by
  rcases handle_cases msg state with hsame | ⟨change, hchange⟩
  · rw [hsame]
    exact h
  · rw [hchange]
    unfold withClientSource
    split
    · exact h
    · split
      · exact ClientState.sourceLenCurrent_updateSourceLen _
      · exact h

/-- The tracker is not finished as long as a source is stored, and there is one behind it. -/
theorem clientSource_handle (msg : ServerMsg) {state : ClientState I A}
    (h : (state.get .clientSource).isSome) :
    (handle msg state).1 = false ∧ ((handle msg state).2.get .clientSource).isSome := by
  rcases handle_cases msg state with hsame | ⟨change, hchange⟩
  · rw [hsame]
    exact ⟨rfl, h⟩
  · obtain ⟨src, hsrc⟩ := Option.isSome_iff_exists.mp h
    rw [hchange]
    cases hnew : change src with
    | none =>
      simp only [withClientSource, hsrc, hnew]
      exact ⟨trivial, rfl⟩
    | some new =>
      simp only [withClientSource, hsrc, hnew]
      exact ⟨trivial, Option.isSome_of_eq_some (ClientState.get_write hsrc new).1⟩

/-- The state after some messages. -/
def run (msgs : List ServerMsg) (state : ClientState I A) : ClientState I A :=
  msgs.foldl (fun state msg => (handle msg state).2) state

/-- **The tracker stays** as long as a source is stored, which no message changes: it is not
finished by any message that comes behind others. -/
theorem isBreak_run (msgs : List ServerMsg) (msg : ServerMsg) {state : ClientState I A}
    (h : (state.get .clientSource).isSome) : (handle msg (run msgs state)).1 = false := by
  induction msgs generalizing state with
  | nil => exact (clientSource_handle msg h).1
  | cons first msgs ih => exact ih (clientSource_handle first h).2

/-- **Any messages.** -/
theorem sourceLenCurrent_run (msgs : List ServerMsg) {state : ClientState I A}
    (h : state.SourceLenCurrent) : (run msgs state).SourceLenCurrent := by
  induction msgs generalizing state with
  | nil => exact h
  | cons msg msgs ih => exact ih (sourceLenCurrent_handle msg h)

end TrackClientSource

/-! ## Both -/

namespace Register.Registration

variable (r : Registration) (s : ClientState I A)

/-- What `save` leaves of what the assumed length depends on. -/
structure Saved (state : ClientState I A) : Prop where
  sourceLen : state.sourceLen = ClientState.calcSourceLen s (some ⟨r.nick, r.userhost⟩) false
  clientSource : state.get .clientSource = some ⟨r.nick, r.userhost⟩
  iSupport : state.get .iSupport = some r.isupport

variable {r s}

/-- Values of other keys do not matter. -/
theorem Saved.insert {V : Type} {state : ClientState I A} (h : Saved r s state)
    {key : ClientStateKey I A V} (hsource : key.typeId ≠ TypeId.of .clientSource)
    (hisupport : key.typeId ≠ TypeId.of .iSupport) (value : V) :
    Saved r s (state.insert key value) where
  sourceLen := h.sourceLen
  clientSource :=
    ((ClientState.get_insert key value state).2 .clientSource hsource.symm).trans h.clientSource
  iSupport :=
    ((ClientState.get_insert key value state).2 .iSupport hisupport.symm).trans h.iSupport

theorem saved_save (r : Registration) (s : ClientState I A) : Saved r s (r.save s) := by
  have hne : ∀ {k k' : StateKey}, k ≠ k' → (TypeId.of k : I) ≠ TypeId.of k' :=
    fun h => TypeId.of_injective.ne h
  let source : Source := ⟨r.nick, r.userhost⟩
  let s₁ := s.updateSourceLenFrom (some source) true
  let s₂ := s₁.insert .clientSource source
  let s₃ := s₂.insert .account r.account
  let s₄ := s₃.insert .caps r.caps
  have hsource : s₄.get .clientSource = some source := by
    rw [(ClientState.get_insert _ _ s₃).2 _ (hne (by decide)),
      (ClientState.get_insert _ _ s₂).2 _ (hne (by decide))]
    exact (ClientState.get_insert _ _ s₁).1
  have hsaved : Saved r s (s₄.insert .iSupport r.isupport) :=
    { sourceLen := rfl
      clientSource := ((ClientState.get_insert _ _ s₄).2 _ (hne (by decide))).trans hsource
      iSupport := (ClientState.get_insert _ _ s₄).1 }
  have hversion : ∀ {state : ClientState I A}, Saved r s state →
      Saved r s (match r.version with
        | some version => state.insert .serverVersion version
        | none => state) := by
    intro state hstate
    split
    · exact hstate.insert (hne (by decide)) (hne (by decide)) _
    · exact hstate
  refine hversion ?_
  split
  · exact hsaved.insert (hne (by decide)) (hne (by decide)) _
  · exact hsaved

/-- **What `save` leaves** is current if the user is known, and otherwise if the limits that were
stored before give the same length as those of the registration. -/
theorem sourceLenCurrent_save_iff (r : Registration) (s : ClientState I A) :
    (r.save s).SourceLenCurrent ↔
      (r.userhost.bind UserHost.user).isSome ∨
        ClientState.assumedLen r.nick (r.userhost.map UserHost.host) (s.get .iSupport) =
          ClientState.assumedLen r.nick (r.userhost.map UserHost.host) (some r.isupport) := by
  have hsaved := saved_save r s
  have hlen : (r.save s).SourceLenCurrent ↔
      ClientState.calcSourceLen (r.save s) (some ⟨r.nick, r.userhost⟩) false =
        ClientState.calcSourceLen s (some ⟨r.nick, r.userhost⟩) false := by
    rw [ClientState.SourceLenCurrent, hsaved.sourceLen, ← hsaved.clientSource]
    rfl
  rw [hlen]
  cases huser : r.userhost.bind UserHost.user with
  | some user =>
    have hsome : ((Source.userhost ⟨r.nick, r.userhost⟩).bind UserHost.user).isSome :=
      Option.isSome_of_eq_some huser
    exact iff_of_true (ClientState.calcSourceLen_of_user hsome (r.save s) s false) (Or.inl rfl)
  | none =>
    rw [← PNat.coe_inj, ClientState.calcSourceLen_of_noUser huser,
      ClientState.calcSourceLen_of_noUser huser, hsaved.iSupport, eq_comm]
    exact (or_iff_right (by simp)).symm

/-- **The assumed length over a connection.**  It is what would be computed, behind `save` and any
messages that the tracker handles, exactly when `save` leaves it so. -/
theorem sourceLenCurrent_run_iff (r : Registration) (s : ClientState I A) :
    (∀ msgs : List ServerMsg, (TrackClientSource.run msgs (r.save s)).SourceLenCurrent) ↔
      (r.userhost.bind UserHost.user).isSome ∨
        ClientState.assumedLen r.nick (r.userhost.map UserHost.host) (s.get .iSupport) =
          ClientState.assumedLen r.nick (r.userhost.map UserHost.host) (some r.isupport) := by
  rw [← sourceLenCurrent_save_iff]
  constructor
  · intro h
    exact h []
  · intro h msgs
    exact TrackClientSource.sourceLenCurrent_run msgs h

omit [ISupport.StdSearch] in
/-- **A first connection** on which only the nick became known.  85 is assumed, as nothing was
stored before, and 79 would be computed from what is stored. -/
theorem not_sourceLenCurrent_foo :
    letI := ISupport.StdSearch.first
    ¬ ∀ msgs : List ServerMsg,
      (TrackClientSource.run msgs ((new (.fromStr "foo")).save
        (ClientState.new : ClientState ℕ Empty))).SourceLenCurrent := by
  let _ : ISupport.StdSearch := ISupport.StdSearch.first
  intro h
  have hlen := (sourceLenCurrent_save_iff (new (.fromStr "foo"))
    (ClientState.new : ClientState ℕ Empty)).mp (h [])
  rw [ClientState.get_new] at hlen
  revert hlen
  decide +kernel

end Register.Registration

end Vinezombie
