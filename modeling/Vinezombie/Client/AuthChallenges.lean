import Vinezombie.Client.AuthWire

/-!
# Whose challenge it is

The arguments of `AUTHENTICATE` messages are collected until a challenge is complete, and then the
current mechanism gets it.  What was collected is dropped only when a challenge is complete.  So a
902, 904 or 906 message in the middle of a challenge leaves what came before it to the mechanism
that is tried next; and a mechanism that took the place of one that refused a challenge is current
before the server was told its name, so that it may get a challenge that was not meant for it.

`Exchange` is the handler together with what an observer of the messages knows: whether the name of
the current mechanism was sent, the `AUTHENTICATE` messages since then or since its last challenge,
and whether there was an unfinished challenge at the last 902, 904 or 906 message.

* `Exchange.step`: one message.
* `Exchange.informed`: what the observer knows of the current mechanism is right.
* `Exchange.Tracks`: what the decoder holds, by what the observer knows.
* `challenges_own`: the runs in which every challenge is made of the right messages.
-/

namespace Vinezombie

open Library.Machine Base64

namespace Auth

/-- The handler, and what is known from the messages. -/
structure Exchange (L : Type) where
  handler : Handler L
  /-- The name of the current mechanism was sent. -/
  announced : Bool
  /-- The `AUTHENTICATE` messages since it was sent, or since its last challenge. -/
  since : List ServerMsg
  /-- The last 902, 904 or 906 message came in the middle of a challenge, and no challenge was
  complete since then. -/
  stale : Bool

namespace Exchange

section

variable {L : Type}

/-- The start of a run, when `auth_msg` is sent. -/
def new (logic : L) (queue : SaslQueue L) : Exchange L := ⟨Handler.new logic queue, true, [], false⟩

variable [SaslLogic L] [Engine]

/-- What a message does to what is known, when it leads to the handler `h'`. -/
def observe (x : Exchange L) (msg : ServerMsg) (h' : Handler L) : Exchange L :=
  if Restarts msg then ⟨h', true, [], x.stale || !x.since.isEmpty⟩
  else
    match x.handler.challenge msg with
    | some chal => ⟨h', x.announced && (SaslLogic.reply x.handler.logic chal).1.isSome, [], false⟩
    | none =>
      if IsAuthenticate msg then { x with handler := h', since := x.since ++ [msg] }
      else { x with handler := h' }

/-- A message to the handler. -/
def step (x : Exchange L) (msg : ServerMsg) : Except (Except HandlerError Unit) (Exchange L) :=
  (x.handler.next msg).map (x.observe msg)

/-- **What is passed to the mechanism is its own challenge**: its name was sent, and the challenge
is what the arguments since then, or since its last challenge, decode to. -/
def ChallengesOwn (x : Exchange L) (msg : ServerMsg) : Prop :=
  ∀ chal, x.handler.challenge msg = some chal → x.announced = true ∧
    Engine.decode ((x.since ++ [msg]).flatMap Handler.payload) = .ok chal

/-- An `AUTHENTICATE` message comes to a mechanism whose name was sent, and not after a 902, 904 or
906 message in the middle of a challenge. -/
def InTurn (x : Exchange L) (msg : ServerMsg) : Prop :=
  IsAuthenticate msg → x.announced = true ∧ x.stale = false

/-- What is known of the current mechanism after a message is right: a 902, 904 or 906 message is
answered with its name, and after any other one it is the mechanism whose name was sent before, up to
what a challenge has made of it. -/
def Informed (x : Exchange L) (msg : ServerMsg) : Prop :=
  ∀ x', x.step msg = .ok x' →
    (Restarts msg → (x.handler.handle msg).2.1 = [x'.handler.authMsg]) ∧
    (¬ Restarts msg → x'.announced = true → x.announced = true ∧
      (x'.handler.logic = x.handler.logic ∨ ∃ chal, x.handler.challenge msg = some chal ∧
        x'.handler.logic = (SaslLogic.reply x.handler.logic chal).2))

/-- What the decoder holds. -/
structure Tracks (x : Exchange L) : Prop where
  chunkLen : x.handler.decoder.chunkLen = 400
  buf : x.stale = false → x.handler.decoder.buf = x.since.flatMap Handler.payload

omit [SaslLogic L] [Engine] in
theorem tracks_new (logic : L) (queue : SaslQueue L) : Tracks (new logic queue) :=
  ⟨rfl, fun _ => rfl⟩

variable {x x' : Exchange L} {msg : ServerMsg}

theorem observe_of_restarts (hmsg : Restarts msg) (h' : Handler L) :
    x.observe msg h' = ⟨h', true, [], x.stale || !x.since.isEmpty⟩ :=
  if_pos hmsg

theorem observe_of_challenge {chal : List UInt8} (hchal : x.handler.challenge msg = some chal)
    (h' : Handler L) :
    x.observe msg h' =
      ⟨h', x.announced && (SaslLogic.reply x.handler.logic chal).1.isSome, [], false⟩ := by
  have hmsg := (Handler.challenge_eq_some hchal).1.not_restarts
  rw [observe, if_neg hmsg, hchal]

theorem observe_of_isAuthenticate (hmsg : IsAuthenticate msg)
    (hchal : x.handler.challenge msg = none) (h' : Handler L) :
    x.observe msg h' = { x with handler := h', since := x.since ++ [msg] } := by
  rw [observe, if_neg hmsg.not_restarts, hchal]
  exact if_pos hmsg

theorem observe_of_other (hauth : ¬ IsAuthenticate msg) (hmsg : ¬ Restarts msg) (h' : Handler L) :
    x.observe msg h' = { x with handler := h' } := by
  have hchal : x.handler.challenge msg = none := if_neg hauth
  rw [observe, if_neg hmsg, hchal]
  exact if_neg hauth

/-- **What is known of the current mechanism is right.** -/
theorem informed (x : Exchange L) (msg : ServerMsg) : x.Informed msg := by
  intro x' hstep
  unfold Exchange.step at hstep
  cases hnext : x.handler.next msg with
  | error r =>
    rw [hnext] at hstep
    exact absurd hstep (by simp [Except.map])
  | ok h' =>
    rw [hnext] at hstep
    rw [← Except.ok.inj hstep]
    have hcont := Handler.continues_of_next hnext
    generalize (x.handler.handle msg).2.1 = sent at hcont ⊢
    cases hcont with
    | collects first hauth hchal =>
      rw [observe_of_isAuthenticate hauth hchal]
      exact ⟨fun hmsg => absurd hmsg hauth.not_restarts, fun _ hann => ⟨hann, .inl rfl⟩⟩
    | replies chal buf logic hchal hreply =>
      have hauth := (Handler.challenge_eq_some hchal).1
      rw [observe_of_challenge hchal]
      refine ⟨fun hmsg => absurd hmsg hauth.not_restarts, fun _ hann => ?_⟩
      exact ⟨(Bool.and_eq_true_iff.mp hann).1, .inr ⟨chal, hchal, by rw [hreply]⟩⟩
    | refuses chal logic next queue hchal hreply =>
      -- the next mechanism is current, and its name was not sent
      have hauth := (Handler.challenge_eq_some hchal).1
      rw [observe_of_challenge hchal, hreply]
      exact ⟨fun hmsg => absurd hmsg hauth.not_restarts, fun _ hann => by simp at hann⟩
    | cycles next queue hmsg =>
      rw [observe_of_restarts hmsg.restarts]
      exact ⟨fun _ => rfl, fun hnot => absurd hmsg.restarts hnot⟩
    | again hmsg =>
      rw [observe_of_restarts hmsg]
      exact ⟨fun _ => rfl, fun hnot => absurd hmsg hnot⟩
    | retains supported hauth hmsg =>
      rw [observe_of_other hauth hmsg]
      exact ⟨fun hrestarts => absurd hrestarts hmsg, fun _ hann => ⟨hann, .inl rfl⟩⟩
    | ignores hauth hmsg =>
      rw [observe_of_other hauth hmsg]
      exact ⟨fun hrestarts => absurd hrestarts hmsg, fun _ hann => ⟨hann, .inl rfl⟩⟩

omit [SaslLogic L] [Engine] in
/-- A long argument is collected as it is. -/
theorem payload_of_le {first : Arg} (hfirst : msg.args.words.head? = some first)
    (hle : 400 ≤ first.bytes.length) : Handler.payload msg = first.bytes := by
  have hplus : first.bytes ≠ text "+" := by
    intro hplus
    rw [hplus] at hle
    exact absurd hle (by decide)
  rw [Handler.payload, hfirst]
  exact if_neg hplus

/-- A 902, 904 or 906 message leaves the decoder as it is. -/
theorem Tracks.restart (hx : Tracks x) (hmsg : Restarts msg) {h' : Handler L}
    (hdecoder : h'.decoder = x.handler.decoder) : Tracks (x.observe msg h') := by
  rw [observe_of_restarts hmsg]
  refine ⟨by rw [hdecoder]; exact hx.chunkLen, fun hstale => ?_⟩
  obtain ⟨hfresh, hsince⟩ := Bool.or_eq_false_iff.mp hstale
  have hnil : x.since = [] := by simpa using hsince
  show h'.decoder.buf = []
  rw [hdecoder, hx.buf hfresh, hnil]
  rfl

/-- A challenge that is complete leaves nothing in the decoder. -/
theorem Tracks.challenged (hx : Tracks x) {chal : List UInt8}
    (hchal : x.handler.challenge msg = some chal) {h' : Handler L}
    (hdecoder : h'.decoder = ⟨[], x.handler.decoder.chunkLen⟩) : Tracks (x.observe msg h') := by
  rw [observe_of_challenge hchal]
  refine ⟨by rw [hdecoder]; exact hx.chunkLen, fun _ => ?_⟩
  show h'.decoder.buf = []
  rw [hdecoder]

/-- Any other message leaves the decoder as it is. -/
theorem Tracks.other (hx : Tracks x) (hauth : ¬ IsAuthenticate msg) (hmsg : ¬ Restarts msg)
    {h' : Handler L} (hdecoder : h'.decoder = x.handler.decoder) : Tracks (x.observe msg h') := by
  rw [observe_of_other hauth hmsg]
  exact ⟨by rw [hdecoder]; exact hx.chunkLen, fun hstale => by rw [hdecoder]; exact hx.buf hstale⟩

/-- **One message.** -/
theorem Tracks.step (hx : Tracks x) (hstep : x.step msg = .ok x') : Tracks x' := by
  unfold Exchange.step at hstep
  cases hnext : x.handler.next msg with
  | error r =>
    rw [hnext] at hstep
    exact absurd hstep (by simp [Except.map])
  | ok h' =>
    rw [hnext] at hstep
    rw [← Except.ok.inj hstep]
    have hcont := Handler.continues_of_next hnext
    generalize (x.handler.handle msg).2.1 = sent at hcont
    cases hcont with
    | collects first hauth hchal hfirst hle =>
      rw [hx.chunkLen] at hle
      rw [observe_of_isAuthenticate hauth hchal]
      refine ⟨hx.chunkLen, fun hstale => ?_⟩
      show x.handler.decoder.buf ++ first.bytes = (x.since ++ [msg]).flatMap Handler.payload
      rw [hx.buf hstale, List.flatMap_append, List.flatMap_singleton, payload_of_le hfirst hle]
    | replies chal buf logic hchal => exact hx.challenged hchal rfl
    | refuses chal logic next queue hchal => exact hx.challenged hchal rfl
    | cycles next queue hmsg => exact hx.restart hmsg.restarts rfl
    | again hmsg => exact hx.restart hmsg rfl
    | retains supported hauth hmsg => exact hx.other hauth hmsg rfl
    | ignores hauth hmsg => exact hx.other hauth hmsg rfl

omit [SaslLogic L] in
/-- **A message in turn** is part of the right challenge. -/
theorem Tracks.challengesOwn (hx : Tracks x) (hturn : x.InTurn msg) : x.ChallengesOwn msg := by
  intro chal hchal
  obtain ⟨hauth, hdec, -⟩ := Handler.challenge_eq_some hchal
  obtain ⟨hannounced, hstale⟩ := hturn hauth
  refine ⟨hannounced, ?_⟩
  rw [List.flatMap_append, List.flatMap_singleton, ← hx.buf hstale]
  exact hdec

/-- **Whose challenge it is.**  In every run in which `AUTHENTICATE` messages come in turn, every
challenge is made of exactly the arguments that its mechanism was sent; and the mechanism whose name
was sent is the one that gets them. -/
theorem challenges_own (logic : L) (queue : SaslQueue L) (msgs : List ServerMsg) :
    Meets Exchange.step InTurn (new logic queue) msgs →
      Meets Exchange.step (fun x msg => x.ChallengesOwn msg ∧ x.Informed msg) (new logic queue)
        msgs :=
  Meets.mono Tracks (fun x msg hx hturn => ⟨hx.challengesOwn hturn, x.informed msg⟩)
    (fun _ _ _ hx _ hstep => hx.step hstep) (tracks_new logic queue)

end

/-- A challenge that the first mechanism gets. -/
theorem challenges_own_external :
    letI := standardEngine
    Meets Exchange.step (fun x msg => x.ChallengesOwn msg ∧ x.Informed msg)
      (new (⟨.empty⟩ : ExternalLogic) .new) [authenticateMsg ChunkEncoder.plus] := by
  let _ : Engine := standardEngine
  exact challenges_own _ _ _ ⟨fun _ => ⟨rfl, rfl⟩, fun _ _ => trivial⟩

/-- A chunk that is not the last one of a challenge. -/
def fullChunk : Arg where
  bytes := List.replicate 400 (byte 'A')
  valid := by
    refine StringType.arg.findInvalid_eq_none_iff.mpr ⟨rfl, fun b hb => ?_⟩
    rw [List.eq_of_mem_replicate hb]
    decide

/-- A 904 message. -/
def failMsg : ServerMsg := ⟨Tags.new, none, .numeric ⟨text "904", by decide⟩, Args.empty⟩

set_option maxRecDepth 10000 in
/-- **Someone else's challenge.**  The first chunk of a challenge, a 904 message, and the end of a
challenge: the second mechanism gets the chunk that was sent to the first. -/
theorem not_challenges_own :
    letI := standardEngine
    ¬ Meets Exchange.step ChallengesOwn
      (new (⟨.empty⟩ : ExternalLogic) ⟨[(⟨.empty⟩ : ExternalLogic)]⟩)
      [authenticateMsg fullChunk, failMsg, authenticateMsg ChunkEncoder.plus] := by
  let _ : Engine := standardEngine
  intro hmeets
  have hown := ((hmeets.2 _ rfl).2 _ rfl).1 (List.replicate 300 0) (by decide +kernel)
  exact absurd hown.2 (by decide +kernel)

end Exchange

end Auth

end Vinezombie
