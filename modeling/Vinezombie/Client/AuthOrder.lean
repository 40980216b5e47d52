import Vinezombie.Client.AuthWire

/-!
# The order in which mechanisms are tried

A mechanism becomes current by being taken from the front of the queue, and nothing is ever put into
the queue.  So the mechanisms become current in the order of the queue, each at most once.  When a
mechanism refuses a challenge, every mechanism of its name is taken out of the queue; from then on
none of that name is current, and its name is not sent any more.

Mechanisms are told apart by an identity that a reply does not change.  It may be a label that each
has of its own, as the box of a trait object has its address.

What the client sends in answer to an `AUTHENTICATE` message is data: a piece of a reply, or the
message that aborts.  The name of a mechanism is sent in answer to another message.

* `queue_next`: which messages put another mechanism in the place of the current one.
* `currents`, `currents_sublist`: the mechanisms that become current in a run.
* `Without`, `Without.next`: no mechanism of a name is left.
* `authenticators_in_order`: both, for whole runs.
-/

namespace Vinezombie

open Base64

namespace Auth

/-- A queue of mechanisms of two kinds. -/
instance {L M : Type} [SaslLogic L] [SaslLogic M] : SaslLogic (L ⊕ M) where
  name := Sum.elim SaslLogic.name SaslLogic.name
  reply logic input :=
    match logic with
    | .inl l => ((SaslLogic.reply l input).1, .inl (SaslLogic.reply l input).2)
    | .inr l => ((SaslLogic.reply l input).1, .inr (SaslLogic.reply l input).2)

namespace SaslQueue

variable {L : Type}

theorem pop_eq_some {q q' : SaslQueue L} {logic : L} (h : q.pop = some (logic, q')) :
    q.queue = logic :: q'.queue := by
  unfold pop at h
  split at h
  · exact absurd h (by simp)
  · rename_i l rest hq
    obtain ⟨rfl, rfl⟩ := Prod.mk.inj (Option.some.inj h)
    exact hq

theorem retain_sublist [SaslLogic L] (q : SaslQueue L) (supported : Arg → Bool) :
    (q.retain supported).queue.Sublist q.queue :=
  List.filter_sublist

end SaslQueue

namespace Handler

section

variable {L : Type} [SaslLogic L] [Engine] {h h' : Handler L} {msg : ServerMsg} {n : Arg}

/-! ## In the order of the queue -/

/-- The message puts another mechanism in the place of the current one, if one is left: it is 902 or
904, or a challenge that the current mechanism refuses. -/
def replaces (h : Handler L) (msg : ServerMsg) : Bool :=
  decide (IsFailure msg) ||
    match h.challenge msg with
    | some chal => (SaslLogic.reply h.logic chal).1.isNone
    | none => false

/-- **The mechanisms that become current in a run**, by their identities: the current one of every
state that has another than the state before it. -/
def currents {ι : Type} [DecidableEq ι] (ident : L → ι) (h : Handler L) : List ServerMsg → List ι
  | [] => []
  | msg :: msgs =>
    match h.next msg with
    | .ok h' =>
      if ident h'.logic = ident h.logic then h'.currents ident msgs
      else ident h'.logic :: h'.currents ident msgs
    | .error _ => []

theorem replaces_of_challenge {chal : List UInt8} (hchal : h.challenge msg = some chal) :
    h.replaces msg = (SaslLogic.reply h.logic chal).1.isNone := by
  have hfailure : ¬ IsFailure msg := fun hfailure =>
    (challenge_eq_some hchal).1.not_restarts hfailure.restarts
  rw [replaces, decide_eq_false hfailure, hchal, Bool.false_or]

theorem replaces_of_none (hfailure : ¬ IsFailure msg) (hchal : h.challenge msg = none) :
    h.replaces msg = false := by
  rw [replaces, decide_eq_false hfailure, hchal]
  rfl

/-- **One message**: the mechanism that becomes current comes from the front of the queue, and the
queue only gets shorter. -/
theorem queue_next (hnext : h.next msg = .ok h') :
    h.replaces msg = true ∧ (h'.logic :: h'.queue.queue).Sublist h.queue.queue ∨
    h.replaces msg = false ∧ h'.queue.queue.Sublist h.queue.queue ∧
      (h'.logic = h.logic ∨
        ∃ chal, h.challenge msg = some chal ∧ h'.logic = (SaslLogic.reply h.logic chal).2) := by
  have hnone : ¬ IsAuthenticate msg → h.challenge msg = none := fun hauth => if_neg hauth
  have hcont := continues_of_next hnext
  generalize (h.handle msg).2.1 = sent at hcont
  cases hcont with
  | collects first hauth hchal =>
    have hfailure : ¬ IsFailure msg := fun hfailure => hauth.not_restarts hfailure.restarts
    exact .inr ⟨replaces_of_none hfailure hchal, .refl _, .inl rfl⟩
  | replies chal buf logic hchal hreply =>
    refine .inr ⟨?_, .refl _, .inr ⟨chal, hchal, ?_⟩⟩
    · rw [replaces_of_challenge hchal, hreply]
      rfl
    · rw [hreply]
  | refuses chal logic next queue hchal hreply hpop =>
    refine .inl ⟨?_, ?_⟩
    · rw [replaces_of_challenge hchal, hreply]
      rfl
    · show (next :: queue.queue).Sublist h.queue.queue
      rw [← SaslQueue.pop_eq_some hpop]
      exact SaslQueue.retain_sublist _ _
  | cycles next queue hfailure hpop =>
    refine .inl ⟨?_, ?_⟩
    · rw [replaces, decide_eq_true hfailure]
      rfl
    · show (next :: queue.queue).Sublist h.queue.queue
      rw [← SaslQueue.pop_eq_some hpop]
  | again hrestarts hfailure =>
    have hauth : ¬ IsAuthenticate msg := fun hauth => hauth.not_restarts hrestarts
    exact .inr ⟨replaces_of_none hfailure (hnone hauth), .refl _, .inl rfl⟩
  | retains supported hauth hrestarts =>
    have hfailure : ¬ IsFailure msg := fun hfailure => hrestarts hfailure.restarts
    exact .inr ⟨replaces_of_none hfailure (hnone hauth), SaslQueue.retain_sublist _ _, .inl rfl⟩
  | ignores hauth hrestarts =>
    have hfailure : ¬ IsFailure msg := fun hfailure => hrestarts hfailure.restarts
    exact .inr ⟨replaces_of_none hfailure (hnone hauth), .refl _, .inl rfl⟩

/-- **A run**: the mechanisms that become current are some of the queue, in its order. -/
theorem currents_sublist {ι : Type} [DecidableEq ι] {ident : L → ι}
    (hident : ∀ (logic : L) (chal : List UInt8),
      ident (SaslLogic.reply logic chal).2 = ident logic)
    (msgs : List ServerMsg) (h : Handler L) :
    (h.currents ident msgs).Sublist (h.queue.queue.map ident) := by
  induction msgs generalizing h with
  | nil => exact List.nil_sublist _
  | cons msg msgs ih =>
    rw [currents]
    cases hnext : h.next msg with
    | error r => exact List.nil_sublist _
    | ok h' =>
      dsimp only
      rcases queue_next hnext with ⟨-, hqueue⟩ | ⟨-, hqueue, hlogic⟩
      · -- whether its identity is new or not, it is the next of the queue
        have hmap := hqueue.map ident
        split
        · exact ((ih h').trans (List.sublist_cons_self _ _)).trans hmap
        · exact ((ih h').cons_cons (ident h'.logic)).trans hmap
      · have hsame : ident h'.logic = ident h.logic := by
          rcases hlogic with hlogic | ⟨chal, -, hlogic⟩
          · rw [hlogic]
          · rw [hlogic, hident]
        rw [if_pos hsame]
        exact (ih h').trans (hqueue.map ident)

/-! ## After a refusal -/

/-- `AUTHENTICATE` with the name of a mechanism is sent, in answer to a message that is not
`AUTHENTICATE` itself. -/
def Announces (h : Handler L) (msg : ServerMsg) (n : Arg) : Prop :=
  ¬ IsAuthenticate msg ∧ chunkMsg n ∈ (h.handle msg).2.1

omit [Engine] in
theorem eq_name_of_chunkMsg_eq (heq : chunkMsg n = h.authMsg) : n = SaslLogic.name h.logic := by
  have hwords : [n] = [SaslLogic.name h.logic] := congrArg (fun m => m.args.words) heq
  exact List.singleton_inj.mp hwords

/-- A name that is sent is that of the current mechanism, or that of one in the queue. -/
theorem name_of_announces (hann : h.Announces msg n) :
    n = SaslLogic.name h.logic ∨ ∃ logic ∈ h.queue.queue, n = SaslLogic.name logic := by
  obtain ⟨hauth, hsent⟩ := hann
  rcases handle_cases h msg with hauth' | ⟨-, heq⟩ | ⟨-, -, heq⟩ | ⟨-, -, heq | ⟨result, heq⟩⟩
  · exact absurd hauth' hauth
  · rw [heq, handleFail] at hsent
    cases hpop : h.queue.pop with
    | none =>
      rw [hpop] at hsent
      exact absurd hsent List.not_mem_nil
    | some next =>
      rw [hpop] at hsent
      refine .inr ⟨next.1, ?_, eq_name_of_chunkMsg_eq (List.mem_singleton.mp hsent)⟩
      rw [SaslQueue.pop_eq_some hpop]
      exact List.mem_cons_self
  · rw [heq] at hsent
    exact .inl (eq_name_of_chunkMsg_eq (List.mem_singleton.mp hsent))
  · rw [heq] at hsent
    unfold handleMechs at hsent
    dsimp only at hsent
    split at hsent
    · exact absurd hsent List.not_mem_nil
    · exact absurd hsent List.not_mem_nil
  · rw [heq] at hsent
    exact absurd hsent List.not_mem_nil

/-- A message that is data of the current exchange: it aborts, or is a piece of the reply of the
current mechanism. -/
def IsData (h : Handler L) (msg : ServerMsg) (m : ClientMsg) : Prop :=
  m = msgAbort ∨ ∃ chal buf logic, h.challenge msg = some chal ∧
    SaslLogic.reply h.logic chal = (some buf, logic) ∧
    m ∈ (ChunkEncoder.new buf 400).toList.map chunkMsg

/-- **What is sent in answer to `AUTHENTICATE`** is data. -/
theorem isData_of_isAuthenticate (hauth : IsAuthenticate msg) {m : ClientMsg}
    (hm : m ∈ (h.handle msg).2.1) : h.IsData msg m := by
  cases hchal : h.challenge msg with
  | some chal =>
    rw [handle_of_challenge hchal, handleChallenge] at hm
    cases hreply : SaslLogic.reply h.logic chal with
    | mk buf logic =>
      rw [hreply] at hm
      cases buf with
      | some buf => exact .inr ⟨chal, buf, logic, hchal, hreply, hm⟩
      | none =>
        dsimp only at hm
        split at hm <;> exact .inl (List.mem_singleton.mp hm)
  | none =>
    rw [handle_of_isAuthenticate hauth] at hm
    rw [challenge, if_pos hauth] at hchal
    cases hrec : h.received msg with
    | mk res decoder =>
      obtain ⟨hnone, herror, -⟩ := handleAuthenticate_of_received hrec
      rw [hrec] at hchal
      cases res with
      | none =>
        rw [hnone rfl] at hm
        exact absurd hm List.not_mem_nil
      | some res =>
        cases res with
        | error e =>
          rw [herror e rfl] at hm
          exact .inl (List.mem_singleton.mp hm)
        | ok chal => exact absurd hchal (by simp [Except.toOption])

/-- No mechanism of a name is current or waits to be. -/
structure Without (n : Arg) (h : Handler L) : Prop where
  logic : SaslLogic.name h.logic ≠ n
  queue : ∀ logic ∈ h.queue.queue, SaslLogic.name logic ≠ n

/-- **One message**, where replies do not change the name of a mechanism. -/
theorem Without.next (hname : ∀ (logic : L) (chal : List UInt8),
      SaslLogic.name (SaslLogic.reply logic chal).2 = SaslLogic.name logic)
    (hw : Without n h) (hnext : h.next msg = .ok h') : Without n h' := by
  rcases queue_next hnext with ⟨-, hqueue⟩ | ⟨-, hqueue, hlogic⟩
  · exact ⟨hw.queue _ (hqueue.subset List.mem_cons_self),
      fun logic hlogic => hw.queue logic (hqueue.subset (List.mem_cons_of_mem _ hlogic))⟩
  · refine ⟨?_, fun logic hlogic => hw.queue logic (hqueue.subset hlogic)⟩
    rcases hlogic with hlogic | ⟨chal, -, hlogic⟩
    · rw [hlogic]
      exact hw.logic
    · rw [hlogic, hname]
      exact hw.logic

/-- **A run.** -/
theorem Without.run (hname : ∀ (logic : L) (chal : List UInt8),
      SaslLogic.name (SaslLogic.reply logic chal).2 = SaslLogic.name logic)
    (msgs : List ServerMsg) {h h' : Handler L} (hw : Without n h)
    (hrun : msgs.foldlM Handler.next h = .ok h') : Without n h' := by
  induction msgs generalizing h with
  | nil =>
    rw [← Except.ok.inj hrun]
    exact hw
  | cons msg msgs ih =>
    rw [List.foldlM_cons] at hrun
    cases hnext : h.next msg with
    | error r =>
      rw [hnext] at hrun
      exact absurd hrun (by simp [bind, Except.bind])
    | ok h₁ =>
      rw [hnext] at hrun
      exact ih (hw.next hname hnext) hrun

theorem Without.not_announces (hw : Without n h) (msg : ServerMsg) : ¬ h.Announces msg n := by
  intro hann
  rcases name_of_announces hann with hlogic | ⟨logic, hmem, hlogic⟩
  · exact hw.logic hlogic.symm
  · exact hw.queue logic hmem hlogic.symm

/-- **A refusal** takes every mechanism of the name out of the queue. -/
theorem without_of_refusal {chal : List UInt8} {logic : L} (hchal : h.challenge msg = some chal)
    (hreply : SaslLogic.reply h.logic chal = (none, logic)) (hnext : h.next msg = .ok h') :
    Without (SaslLogic.name logic) h' := by
  have hcont := continues_of_next hnext
  have hauth := (challenge_eq_some hchal).1
  generalize (h.handle msg).2.1 = sent at hcont
  cases hcont with
  | collects first _ hnone => exact absurd (hchal.symm.trans hnone) (by simp)
  | replies chal' buf logic' hchal' hreply' =>
    rw [← Option.some.inj (hchal.symm.trans hchal'), hreply] at hreply'
    exact absurd (congrArg Prod.fst hreply') (by simp)
  | refuses chal' logic' next queue hchal' hreply' hpop =>
    rw [← Option.some.inj (hchal.symm.trans hchal'), hreply] at hreply'
    obtain rfl : logic = logic' := congrArg Prod.snd hreply'
    have hqueue := SaslQueue.pop_eq_some hpop
    have hall : ∀ l ∈ next :: queue.queue, SaslLogic.name l ≠ SaslLogic.name logic := by
      intro l hl
      rw [← hqueue] at hl
      have hkept := (List.mem_filter.mp hl).2
      exact fun heq => of_decide_eq_true hkept heq.symm
    exact ⟨hall next List.mem_cons_self, fun l hl => hall l (List.mem_cons_of_mem _ hl)⟩
  | cycles next queue hfailure => exact absurd hfailure.restarts hauth.not_restarts
  | again hrestarts => exact absurd hrestarts hauth.not_restarts
  | retains supported hnot => exact absurd hauth hnot
  | ignores hnot => exact absurd hauth hnot

/-- **The order in which mechanisms are tried.**  In every run, the mechanisms that become current
are some of the queue in its order.  A message puts another mechanism in the place of the current
one if it is 902 or 904 or a challenge that is refused, and then the next of the queue; otherwise
the current mechanism is as it was, or as its reply left it.  Once a mechanism named `n` has refused
a challenge, in every later state the current mechanism is not named `n`, and no message makes the
client send `AUTHENTICATE n` other than as data of an exchange with another mechanism. -/
theorem authenticators_in_order {ι : Type} [DecidableEq ι] (ident : L → ι)
    (hident : ∀ (logic : L) (chal : List UInt8),
      ident (SaslLogic.reply logic chal).2 = ident logic)
    (hname : ∀ (logic : L) (chal : List UInt8),
      SaslLogic.name (SaslLogic.reply logic chal).2 = SaslLogic.name logic)
    (logic : L) (queue : SaslQueue L) (msgs : List ServerMsg) :
    (ident logic :: (Handler.new logic queue).currents ident msgs).Sublist
      ((logic :: queue.queue).map ident) ∧
    (∀ before msg after, msgs = before ++ msg :: after →
      ∀ h h', before.foldlM Handler.next (Handler.new logic queue) = .ok h → h.next msg = .ok h' →
      h.replaces msg = true ∧ (h'.logic :: h'.queue.queue).Sublist h.queue.queue ∨
      h.replaces msg = false ∧ h'.queue.queue.Sublist h.queue.queue ∧
        (h'.logic = h.logic ∨
          ∃ chal, h.challenge msg = some chal ∧ h'.logic = (SaslLogic.reply h.logic chal).2)) ∧
    ∀ before msg after, msgs = before ++ msg :: after →
      ∀ h h' chal refused, before.foldlM Handler.next (Handler.new logic queue) = .ok h →
      h.challenge msg = some chal → SaslLogic.reply h.logic chal = (none, refused) →
      h.next msg = .ok h' →
      ∀ later rest, after = later ++ rest → ∀ h'', later.foldlM Handler.next h' = .ok h'' →
      SaslLogic.name h''.logic ≠ SaslLogic.name h.logic ∧
        (∀ m, ¬ h''.Announces m (SaslLogic.name h.logic)) ∧
        ∀ m, IsAuthenticate m → ∀ sent ∈ (h''.handle m).2.1, h''.IsData m sent := by
  refine ⟨(currents_sublist hident msgs (Handler.new logic queue)).cons_cons (ident logic),
    fun before msg after _ h h' _ hnext => queue_next hnext, ?_⟩
  rintro before msg after - h h' chal refused - hchal hreply hnext later rest - h'' hrun
  have hsame : SaslLogic.name refused = SaslLogic.name h.logic := by
    rw [← hname h.logic chal, hreply]
  have hw := (without_of_refusal hchal hreply hnext).run hname later hrun
  rw [hsame] at hw
  exact ⟨hw.logic, hw.not_announces, fun m hauth sent hsent => isData_of_isAuthenticate hauth hsent⟩

end

/-- `EXTERNAL` refuses a challenge that is not empty, and `PLAIN` is tried.  The two are told apart
by their kind. -/
theorem authenticators_in_order_external :
    letI := standardEngine
    (Handler.new (.inl ⟨.empty⟩ : ExternalLogic ⊕ PlainLogic)
      ⟨[.inl ⟨.empty⟩, .inr (PlainLogic.new [] (text "u") (text "p"))]⟩).currents Sum.isLeft
        [authenticateMsg (.fromStr "AAAA")] = [false] ∧
    ∀ m, ¬ Handler.Announces (⟨.new, .inr (PlainLogic.new [] (text "u") (text "p")), .new 400⟩ :
      Handler (ExternalLogic ⊕ PlainLogic)) m (.fromStr "EXTERNAL") := by
  let _ : Engine := standardEngine
  have hname : ∀ (logic : ExternalLogic ⊕ PlainLogic) (chal : List UInt8),
      SaslLogic.name (SaslLogic.reply logic chal).2 = SaslLogic.name logic := by
    rintro (logic | logic) chal
    · rfl
    · rfl
  have hident : ∀ (logic : ExternalLogic ⊕ PlainLogic) (chal : List UInt8),
      (SaslLogic.reply logic chal).2.isLeft = logic.isLeft := by
    rintro (logic | logic) chal
    · rfl
    · rfl
  refine ⟨rfl, ?_⟩
  obtain ⟨-, -, hrefused⟩ := authenticators_in_order Sum.isLeft hident hname (.inl ⟨.empty⟩)
    ⟨[.inl ⟨.empty⟩, .inr (PlainLogic.new [] (text "u") (text "p"))]⟩
    [authenticateMsg (.fromStr "AAAA")]
  exact (hrefused [] (authenticateMsg (.fromStr "AAAA")) [] rfl
    (Handler.new (.inl ⟨.empty⟩) ⟨[.inl ⟨.empty⟩, .inr (PlainLogic.new [] (text "u") (text "p"))]⟩)
    ⟨.new, .inr (PlainLogic.new [] (text "u") (text "p")), .new 400⟩ [0, 0, 0] _ rfl rfl rfl rfl
    [] [] rfl _ rfl).2.1

end Handler

end Auth

end Vinezombie
