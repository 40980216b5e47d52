import Vinezombie.Client.Auth
import Vinezombie.Strings.Base64RoundTrip

/-!
# What a message does to the authentication handler

A run of the handler goes on as long as `handle` returns `Ok(false)`; with any other answer the
callers drop the handler.  `Continues` lists what a message can have done when the run goes on.

* `challenge`: what `handle` passes to the mechanism.
* `handle_of_challenge`: what it does with the answer of the mechanism.
* `handle_cases`: the arms of `handle`.
* `continues_of_handle`: the messages after which the run goes on.
-/

namespace Vinezombie

open Base64

namespace Auth

/-- An `AUTHENTICATE` message of the server. -/
def IsAuthenticate (msg : ServerMsg) : Prop := msg.kind.asBytes = text "AUTHENTICATE"

/-- 902 and 904. -/
def IsFailure (msg : ServerMsg) : Prop := msg.kind.asBytes ∈ [text "902", text "904"]

/-- 902, 904 and 906, to which the handler answers with the name of a mechanism. -/
def Restarts (msg : ServerMsg) : Prop :=
  msg.kind.asBytes ∈ [text "902", text "904", text "906"]

instance (msg : ServerMsg) : Decidable (IsAuthenticate msg) := inferInstanceAs (Decidable (_ = _))

instance (msg : ServerMsg) : Decidable (IsFailure msg) := inferInstanceAs (Decidable (_ ∈ _))

instance (msg : ServerMsg) : Decidable (Restarts msg) := inferInstanceAs (Decidable (_ ∈ _))

theorem IsFailure.restarts {msg : ServerMsg} (h : IsFailure msg) : Restarts msg := by
  have hsubset : [text "902", text "904"] ⊆ [text "902", text "904", text "906"] :=
    List.subset_append_left _ [text "906"]
  exact hsubset h

theorem IsAuthenticate.not_restarts {msg : ServerMsg} (h : IsAuthenticate msg) :
    ¬ Restarts msg := by
  rw [Restarts, show msg.kind.asBytes = text "AUTHENTICATE" from h]
  decide

namespace Handler

variable {L : Type} [SaslLogic L] [Engine] {h h' : Handler L} {msg : ServerMsg}

/-! ## Challenges -/

/-- What the decoder answers to the argument of an `AUTHENTICATE` message, and what becomes of
it. -/
def received (h : Handler L) (msg : ServerMsg) :
    Option (Except DecodeError (List UInt8)) × ChunkDecoder :=
  match msg.args.words.head? with
  | some first => h.decoder.add first.bytes
  | none => (some h.decoder.decode.1, h.decoder.decode.2)

/-- **The challenge that `handle` passes to `SaslLogic::reply`**, if it passes one. -/
def challenge (h : Handler L) (msg : ServerMsg) : Option (List UInt8) :=
  if IsAuthenticate msg then (h.received msg).1.bind Except.toOption else none

/-- The bytes that the argument of an `AUTHENTICATE` message adds to a challenge. -/
def payload (msg : ServerMsg) : List UInt8 :=
  match msg.args.words.head? with
  | some first => ChunkDecoder.payload first.bytes
  | none => []

omit [SaslLogic L] in
/-- **The decoder**: a challenge goes on with a long argument, and ends with any other. -/
theorem received_cases (h : Handler L) (msg : ServerMsg) :
    (h.received msg = (some (Engine.decode (h.decoder.buf ++ payload msg)),
      ⟨[], h.decoder.chunkLen⟩)) ∨
    ∃ first, msg.args.words.head? = some first ∧ h.decoder.chunkLen ≤ first.bytes.length ∧
      h.received msg = (none, ⟨h.decoder.buf ++ first.bytes, h.decoder.chunkLen⟩) := by
  unfold received payload
  cases msg.args.words.head? with
  | none =>
    refine .inl ?_
    dsimp only
    rw [List.append_nil]
    rfl
  | some first =>
    rcases Nat.lt_or_ge first.bytes.length h.decoder.chunkLen with hlt | hle
    · exact .inl (ChunkDecoder.add_of_lt hlt)
    · exact .inr ⟨first, rfl, hle, ChunkDecoder.add_of_le hle⟩

omit [SaslLogic L] in
/-- What is passed to the mechanism is what was collected, with the argument of the message. -/
theorem challenge_eq_some {chal : List UInt8} (hchal : h.challenge msg = some chal) :
    IsAuthenticate msg ∧ Engine.decode (h.decoder.buf ++ payload msg) = .ok chal ∧
      (h.received msg).2 = ⟨[], h.decoder.chunkLen⟩ := by
  by_cases hauth : IsAuthenticate msg
  · rw [challenge, if_pos hauth] at hchal
    refine ⟨hauth, ?_⟩
    rcases received_cases h msg with hrec | ⟨first, -, -, hrec⟩
    · rw [hrec] at hchal ⊢
      refine ⟨?_, rfl⟩
      cases hdec : Engine.decode (h.decoder.buf ++ payload msg) with
      | error e =>
        rw [hdec] at hchal
        exact absurd hchal (by simp [Except.toOption])
      | ok bytes =>
        rw [hdec] at hchal
        rw [Option.some.inj hchal]
    · rw [hrec] at hchal
      exact absurd hchal (by simp)
  · rw [challenge, if_neg hauth] at hchal
    exact absurd hchal (by simp)

theorem handle_of_isAuthenticate (hauth : IsAuthenticate msg) :
    h.handle msg = h.handleAuthenticate msg :=
  if_pos hauth

theorem handleAuthenticate_of_received {res : Option (Except DecodeError (List UInt8))}
    {decoder : ChunkDecoder} (hrec : h.received msg = (res, decoder)) :
    (res = none → h.handleAuthenticate msg = ({ h with decoder }, [], .ok false)) ∧
    (∀ e, res = some (.error e) → h.handleAuthenticate msg =
      ({ h with decoder }, [msgAbort], .error (.broken (.fromStr "base64")))) ∧
    ∀ chal, res = some (.ok chal) →
      h.handleAuthenticate msg = handleChallenge { h with decoder } chal := by
  unfold received at hrec
  unfold handleAuthenticate
  cases hhead : msg.args.words.head? with
  | none =>
    rw [hhead] at hrec
    obtain ⟨rfl, rfl⟩ := Prod.mk.inj hrec
    refine ⟨by simp, fun e he => ?_, fun chal hchal => ?_⟩
    · dsimp only
      rw [Option.some.inj he]
    · dsimp only
      rw [Option.some.inj hchal]
  | some first =>
    rw [hhead] at hrec
    dsimp only at hrec ⊢
    rw [hrec]
    refine ⟨?_, ?_, ?_⟩
    · rintro rfl
      rfl
    · rintro e rfl
      rfl
    · rintro chal rfl
      rfl

/-- **A challenge** is answered by the current mechanism. -/
theorem handle_of_challenge {chal : List UInt8} (hchal : h.challenge msg = some chal) :
    h.handle msg =
      handleChallenge { h with decoder := ⟨[], h.decoder.chunkLen⟩ } chal := by
  obtain ⟨hauth, hdec, hdecoder⟩ := challenge_eq_some hchal
  rw [handle_of_isAuthenticate hauth]
  rcases received_cases h msg with hrec | ⟨first, -, -, hrec⟩
  · rw [hdec] at hrec
    exact (handleAuthenticate_of_received hrec).2.2 chal rfl
  · rw [challenge, if_pos hauth, hrec] at hchal
    exact absurd hchal (by simp)

/-! ## Messages after which the run goes on -/

/-- **What a message can have done** when the run goes on. -/
inductive Continues (h : Handler L) (msg : ServerMsg) : Handler L → List ClientMsg → Prop
  /-- A challenge that is not complete. -/
  | collects (first : Arg) : IsAuthenticate msg → h.challenge msg = none →
    msg.args.words.head? = some first → h.decoder.chunkLen ≤ first.bytes.length →
    Continues h msg
      { h with decoder := ⟨h.decoder.buf ++ first.bytes, h.decoder.chunkLen⟩ } []
  /-- A challenge that the mechanism answers. -/
  | replies (chal buf : List UInt8) (logic : L) : h.challenge msg = some chal →
    SaslLogic.reply h.logic chal = (some buf, logic) →
    Continues h msg { h with logic, decoder := ⟨[], h.decoder.chunkLen⟩ }
      ((ChunkEncoder.new buf 400).toList.map fun chunk =>
        (ClientMsg.new authenticate).addWord chunk)
  /-- A challenge that the mechanism refuses. -/
  | refuses (chal : List UInt8) (logic next : L) (queue : SaslQueue L) :
    h.challenge msg = some chal → SaslLogic.reply h.logic chal = (none, logic) →
    (h.queue.retain fun ln => decide (SaslLogic.name logic ≠ ln)).pop = some (next, queue) →
    Continues h msg ⟨queue, next, ⟨[], h.decoder.chunkLen⟩⟩ [msgAbort]
  /-- 902 and 904. -/
  | cycles (next : L) (queue : SaslQueue L) : IsFailure msg → h.queue.pop = some (next, queue) →
    Continues h msg { h with logic := next, queue }
      [authMsg ({ h with logic := next, queue } : Handler L)]
  /-- 906. -/
  | again : Restarts msg → ¬ IsFailure msg → Continues h msg h [h.authMsg]
  /-- 908. -/
  | retains (supported : Arg → Bool) : ¬ IsAuthenticate msg → ¬ Restarts msg →
    Continues h msg { h with queue := h.queue.retain supported } []
  | ignores : ¬ IsAuthenticate msg → ¬ Restarts msg → Continues h msg h []

theorem continues_of_challenge {sent : List ClientMsg} {chal : List UInt8}
    (hchal : h.challenge msg = some chal) (hout : h.handle msg = (h', sent, .ok false)) :
    Continues h msg h' sent := by
  rw [handle_of_challenge hchal, handleChallenge] at hout
  cases hreply : SaslLogic.reply h.logic chal with
  | mk buf logic =>
    rw [hreply] at hout
    cases buf with
    | some buf =>
      obtain ⟨rfl, hsent⟩ := Prod.mk.inj hout
      obtain ⟨rfl, -⟩ := Prod.mk.inj hsent
      exact .replies chal buf logic hchal hreply
    | none =>
      dsimp only at hout
      cases hpop : (h.queue.retain fun ln => decide (SaslLogic.name logic ≠ ln)).pop with
      | none =>
        rw [hpop] at hout
        exact absurd (congrArg (fun out => out.2.2) hout) (by simp)
      | some next =>
        rw [hpop] at hout
        obtain ⟨rfl, hsent⟩ := Prod.mk.inj hout
        obtain ⟨rfl, -⟩ := Prod.mk.inj hsent
        exact .refuses chal logic next.1 next.2 hchal hreply hpop

theorem continues_of_isAuthenticate {sent : List ClientMsg} (hauth : IsAuthenticate msg)
    (hout : h.handle msg = (h', sent, .ok false)) : Continues h msg h' sent := by
  cases hchal : h.challenge msg with
  | some chal => exact continues_of_challenge hchal hout
  | none =>
    rw [handle_of_isAuthenticate hauth] at hout
    rcases received_cases h msg with hrec | ⟨first, hfirst, hle, hrec⟩
    · rw [challenge, if_pos hauth, hrec] at hchal
      cases hdec : Engine.decode (h.decoder.buf ++ payload msg) with
      | error e =>
        rw [hdec] at hrec
        rw [(handleAuthenticate_of_received hrec).2.1 e rfl] at hout
        exact absurd (congrArg (fun out => out.2.2) hout) (by simp)
      | ok bytes =>
        rw [hdec] at hchal
        exact absurd hchal (by simp [Except.toOption])
    · rw [(handleAuthenticate_of_received hrec).1 rfl] at hout
      obtain ⟨rfl, hsent⟩ := Prod.mk.inj hout
      obtain ⟨rfl, -⟩ := Prod.mk.inj hsent
      exact .collects first hauth hchal hfirst hle

/-- **The arms of `handle`.** -/
theorem handle_cases (h : Handler L) (msg : ServerMsg) :
    IsAuthenticate msg ∨
    (IsFailure msg ∧ h.handle msg = h.handleFail msg) ∨
    (Restarts msg ∧ ¬ IsFailure msg ∧ h.handle msg = (h, [h.authMsg], .ok false)) ∨
    (¬ IsAuthenticate msg ∧ ¬ Restarts msg ∧
      (h.handle msg = h.handleMechs msg ∨ ∃ result, h.handle msg = (h, [], result))) := by
  by_cases hauth : msg.kind.asBytes = text "AUTHENTICATE"
  · exact .inl hauth
  refine .inr ?_
  unfold handle
  dsimp only
  rw [if_neg hauth]
  by_cases hfail : msg.kind.asBytes = text "902" ∨ msg.kind.asBytes = text "904"
  · refine .inl ⟨?_, if_pos hfail⟩
    simp only [IsFailure, List.mem_cons, List.not_mem_nil, or_false]
    exact hfail
  refine .inr ?_
  rw [if_neg hfail]
  by_cases hcounting : msg.kind.asBytes = text "905"
  · refine .inr ⟨hauth, ?_, .inr ⟨_, if_pos hcounting⟩⟩
    rw [Restarts, hcounting]
    decide
  rw [if_neg hcounting]
  by_cases hagain : msg.kind.asBytes = text "906"
  · refine .inl ⟨?_, ?_, if_pos hagain⟩
    · rw [Restarts, hagain]
      decide
    · rw [IsFailure, hagain]
      decide
  have hrestarts : ¬ Restarts msg := by
    simp only [Restarts, List.mem_cons, List.not_mem_nil, or_false]
    rintro (h902 | h904 | h906)
    · exact hfail (.inl h902)
    · exact hfail (.inr h904)
    · exact hagain h906
  refine .inr ⟨hauth, hrestarts, ?_⟩
  rw [if_neg hagain]
  by_cases hmechs : msg.kind.asBytes = text "908"
  · exact .inl (if_pos hmechs)
  rw [if_neg hmechs]
  by_cases hlogin : msg.kind.asBytes = text "900" ∨ msg.kind.asBytes = text "903" ∨
      msg.kind.asBytes = text "907"
  · exact .inr ⟨_, if_pos hlogin⟩
  · exact .inr ⟨_, if_neg hlogin⟩

/-- **A message after which the run goes on.** -/
theorem continues_of_handle {sent : List ClientMsg}
    (hout : h.handle msg = (h', sent, .ok false)) : Continues h msg h' sent := by
  have hsame : ∀ {x : Handler L} {s : List ClientMsg} {r : Except HandlerError Bool},
      (x, s, r) = (h', sent, .ok false) → x = h' ∧ s = sent := by
    intro x s r heq
    obtain ⟨hx, hs⟩ := Prod.mk.inj heq
    exact ⟨hx, (Prod.mk.inj hs).1⟩
  rcases handle_cases h msg with hauth | ⟨hfail, heq⟩ | ⟨hrestarts, hnot, heq⟩ |
    ⟨hauth, hrestarts, heq | ⟨result, heq⟩⟩
  · exact continues_of_isAuthenticate hauth hout
  · rw [heq, handleFail] at hout
    cases hpop : h.queue.pop with
    | none =>
      rw [hpop] at hout
      exact absurd (congrArg (fun out => out.2.2) hout) (by simp)
    | some next =>
      rw [hpop] at hout
      obtain ⟨rfl, rfl⟩ := hsame hout
      exact .cycles next.1 next.2 hfail hpop
  · obtain ⟨rfl, rfl⟩ := hsame (heq.symm.trans hout)
    exact .again hrestarts hnot
  · rw [heq] at hout
    unfold handleMechs at hout
    dsimp only at hout
    split at hout
    · exact absurd (congrArg (fun out => out.2.2) hout) (by simp)
    · obtain ⟨rfl, rfl⟩ := hsame hout
      exact .retains _ hauth hrestarts
  · obtain ⟨rfl, rfl⟩ := hsame (heq.symm.trans hout)
    exact .ignores hauth hrestarts

/-! ## Runs -/

/-- A step of a run.  The run goes on after `Ok(false)`, and ends with any other result. -/
def next (h : Handler L) (msg : ServerMsg) : Except (Except HandlerError Unit) (Handler L) :=
  match (h.handle msg).2.2 with
  | .ok false => .ok (h.handle msg).1
  | .ok true => .error (.ok ())
  | .error e => .error (.error e)

theorem continues_of_next (hnext : h.next msg = .ok h') :
    Continues h msg h' (h.handle msg).2.1 := by
  unfold next at hnext
  split at hnext
  · rename_i hresult
    refine continues_of_handle ?_
    rw [← Except.ok.inj hnext, ← hresult]
  · exact absurd hnext (by simp)
  · exact absurd hnext (by simp)

end Handler

end Auth

end Vinezombie
