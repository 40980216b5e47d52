import Vinezombie.Client.Oneshot
import Vinezombie.Client.Parker

/-!
# Receiving from a oneshot channel

`recv` of `client/handler/channel/oneshot.rs`, on a receiver and a parker as `SyncChannels` makes
them.  If nothing has been sent yet the thread parks, and then it takes what there is.  The senders
are wrapped in unparkers, whose `send` unparks after a value was accepted, and whose drop unparks if
it is the last one.

The channel of `Oneshot` and the parker of `Parker` go on side by side.  Of what ties a sender to its
unparker there is one thing, that nobody unparks but after a `send` that returned `Ok`, once for
each.  Otherwise they are independent, which allows for more orders than there are.

The token of the thread may be set, and `std::thread::park` return, for reasons that are not of the
parties; see `Parker`.

* `Inv`: what holds as long as nothing comes from outside.  `Going`: what holds in any case.
* `receives`: what `recv` returns, and when it waits.
* `goes_on`: `recv` does not get stuck.
-/

namespace Vinezombie

namespace BlockingRecv

open Library.Machine

variable {T : Type}

/-! ## The state -/

/-- Where `recv` is. -/
inductive Pc where
  /-- Before `is_empty`. -/
  | held
  /-- Before `park`. -/
  | empty
  | parking
  /-- Before `recv_now`. -/
  | ready
  | receiving
  deriving DecidableEq

/-- A receiver with its parker, and their senders. -/
structure State (T : Type) where
  /-- The channel. -/
  chan : Oneshot.State T
  /-- The parker of the receiver, and the unparkers around the senders. -/
  parker : Parker.State
  /-- How often somebody unparked. -/
  unparked : ℕ
  /-- Where `recv` is. -/
  pc : Pc

/-- `new_oneshot` of `SyncChannels`. -/
def new : State T := ⟨Oneshot.channel, Parker.new, 0, .held⟩

/-! ## Actions -/

/-- The actions of the parties, and what comes from outside. -/
inductive Action (T : Type) where
  /-- An action of a sender, or the next operation of `recv_now`. -/
  | chan (a : Oneshot.Action T)
  /-- What `send` of an unparker does after its value was accepted. -/
  | unpark
  /-- An unparker is cloned or dropped, or wakes a thread; or the next operation of `park`; or
  something from outside. -/
  | parker (a : Parker.Action)
  /-- `is_empty`. -/
  | check
  /-- The call of `park`. -/
  | park
  /-- The call of `recv_now`. -/
  | recvNow

/-- It is no action of a party. -/
def Action.outside : Action T → Bool
  | .parker a => a.outside
  | _ => false

/-- The action is not possible. -/
inductive Blocked where
  | blocked

/-- An action of the channel. -/
def State.onChan (s : State T) (pc : Pc) (a : Oneshot.Action T) : Except Blocked (State T) :=
  match Oneshot.step s.chan a with
  | .ok chan => .ok { s with chan := chan, pc := pc }
  | .error _ => .error .blocked

/-- An action of the parker. -/
def State.onParker (s : State T) (pc : Pc) (unparked : ℕ) (a : Parker.Action) :
    Except Blocked (State T) :=
  match Parker.step s.parker a with
  | .ok parker => .ok { s with parker := parker, unparked := unparked, pc := pc }
  | .error _ => .error .blocked

/-- An action, if it is possible. -/
def step (s : State T) : Action T → Except Blocked (State T)
  | .chan .recvNow => .error .blocked
  | .chan .dropReceiver => .error .blocked
  | .chan a => s.onChan s.pc a
  | .unpark =>
    if s.unparked < s.chan.accepted.length then s.onParker s.pc (s.unparked + 1) .unpark
    else .error .blocked
  | .parker .unpark => .error .blocked
  | .parker .park => .error .blocked
  | .parker a => s.onParker s.pc s.unparked a
  | .check =>
    match s.pc with
    | .held => .ok { s with pc := if s.chan.inner.lock = .complete then .ready else .empty }
    | _ => .error .blocked
  | .park =>
    match s.pc with
    | .empty => s.onParker .parking s.unparked .park
    | _ => .error .blocked
  | .recvNow =>
    if s.pc = .ready ∨ s.pc = .parking ∧ s.parker.pc = .idle then s.onChan .receiving .recvNow
    else .error .blocked

/-- The states of a receiver, its parker and their senders, if nothing comes from outside. -/
def Reachable (s : State T) : Prop :=
  ∃ as : List (Action T), (∀ a ∈ as, a.outside = false) ∧ as.foldlM step new = .ok s

/-- **What an action can do.** -/
inductive Does (s s' : State T) : Action T → Prop
  | chan {a : Oneshot.Action T} {chan : Oneshot.State T} (hstep : Oneshot.step s.chan a = .ok chan)
      (hrecv : a ≠ .recvNow) (hdrop : a ≠ .dropReceiver) (hs' : s' = { s with chan := chan }) :
    Does s s' (.chan a)
  | unpark {parker : Parker.State} (hlt : s.unparked < s.chan.accepted.length)
      (hstep : Parker.step s.parker .unpark = .ok parker)
      (hs' : s' = { s with parker := parker, unparked := s.unparked + 1 }) : Does s s' .unpark
  | parker {a : Parker.Action} {parker : Parker.State} (hstep : Parker.step s.parker a = .ok parker)
      (hunpark : a ≠ .unpark) (hpark : a ≠ .park) (hs' : s' = { s with parker := parker }) :
    Does s s' (.parker a)
  | check (hpc : s.pc = .held)
      (hs' : s' = { s with pc := if s.chan.inner.lock = .complete then .ready else .empty }) :
    Does s s' .check
  | park {parker : Parker.State} (hpc : s.pc = .empty)
      (hstep : Parker.step s.parker .park = .ok parker)
      (hs' : s' = { s with parker := parker, pc := .parking }) : Does s s' .park
  | recvNow {chan : Oneshot.State T} (hpc : s.pc = .ready ∨ s.pc = .parking ∧ s.parker.pc = .idle)
      (hstep : Oneshot.step s.chan .recvNow = .ok chan)
      (hs' : s' = { s with chan := chan, pc := .receiving }) : Does s s' .recvNow

section Cases

variable {s s' : State T}

theorem onChan_ok {pc : Pc} {a : Oneshot.Action T} (h : s.onChan pc a = .ok s') :
    ∃ chan, Oneshot.step s.chan a = .ok chan ∧ s' = { s with chan := chan, pc := pc } := by
  unfold State.onChan at h
  split at h
  · exact ⟨_, ‹_›, (Except.ok.inj h).symm⟩
  · cases h

theorem onParker_ok {pc : Pc} {unparked : ℕ} {a : Parker.Action}
    (h : s.onParker pc unparked a = .ok s') : ∃ parker, Parker.step s.parker a = .ok parker ∧
      s' = { s with parker := parker, unparked := unparked, pc := pc } := by
  unfold State.onParker at h
  split at h
  · exact ⟨_, ‹_›, (Except.ok.inj h).symm⟩
  · cases h

theorem step_cases {a : Action T} (h : step s a = .ok s') : Does s s' a := by
  cases a with
  | chan a =>
    cases a with
    | recvNow | dropReceiver => cases h
    | clone | send | dropSender | sender | receiver =>
      obtain ⟨chan, hstep, hs'⟩ := onChan_ok h
      exact .chan hstep (by simp) (by simp) hs'
  | unpark =>
    simp only [step] at h
    split at h
    · obtain ⟨parker, hstep, hs'⟩ := onParker_ok h
      exact .unpark ‹_› hstep hs'
    · cases h
  | parker a =>
    cases a with
    | unpark | park => cases h
    | clone | drop | wake | parker | spurious | elsewhere =>
      simp only [step] at h
      obtain ⟨parker, hstep, hs'⟩ := onParker_ok h
      exact .parker hstep (by simp) (by simp) hs'
  | check =>
    simp only [step] at h
    split at h
    · exact .check ‹_› (Except.ok.inj h).symm
    · cases h
  | park =>
    simp only [step] at h
    split at h
    · obtain ⟨parker, hstep, hs'⟩ := onParker_ok h
      exact .park ‹_› hstep hs'
    · cases h
  | recvNow =>
    simp only [step] at h
    split at h
    · obtain ⟨chan, hstep, hs'⟩ := onChan_ok h
      exact .recvNow ‹_› hstep hs'
    · cases h

end Cases

/-! ## The channel -/

/-- A move of a sender keeps what was accepted from it. -/
theorem accepted_senderMove {inner : Oneshot.Inner T} {pc : Oneshot.SenderPc T}
    {m : Oneshot.Move (Oneshot.SenderPc T) T} (h : Oneshot.senderMove inner pc = some m) :
    pc.accepted.length ≤ m.pc.accepted.length := by
  cases pc with
  | held | gone => cases h
  | loading | writing | completing => exact Nat.zero_le _
  | competing value => exact Nat.zero_le _
  | dropping sent | lastLoad sent =>
    obtain rfl := Option.some.inj h
    dsimp only
    split
    · exact Nat.le_refl _
    · exact Nat.le_refl _
  | releasing sent =>
    obtain rfl := Option.some.inj h
    exact Nat.le_refl _

/-- **What was accepted stays accepted.** -/
theorem accepted_step {s s' : Oneshot.State T} {a : Oneshot.Action T}
    (h : Oneshot.step s a = .ok s') : s.accepted.length ≤ s'.accepted.length := by
  have hsplit (front back : List (Oneshot.SenderPc T)) (pc : Oneshot.SenderPc T) :
      ((front ++ pc :: back).flatMap Oneshot.SenderPc.accepted).length =
        (front.flatMap Oneshot.SenderPc.accepted).length + pc.accepted.length +
          (back.flatMap Oneshot.SenderPc.accepted).length := by
    rw [List.flatMap_append, List.flatMap_cons, List.length_append, List.length_append]
    omega
  unfold Oneshot.State.accepted
  cases Oneshot.step_cases h with
  | clone front back hsenders hs' =>
    rw [hs', List.flatMap_append, List.length_append]
    exact Nat.le_add_right _ _
  | send front back hsenders hs' =>
    rw [hs', hsenders, hsplit, hsplit]
    exact Nat.le_refl _
  | dropSender front back hsenders hs' =>
    rw [hs', hsenders, hsplit, hsplit]
    exact Nat.le_refl _
  | sender front back pc m hget hsenders hmove hs' =>
    have hle := accepted_senderMove hmove
    rw [hs', hsenders, hsplit, hsplit]
    omega
  | recvNow hreceiver hs' =>
    subst hs'
    exact Nat.le_refl _
  | dropReceiver hreceiver hs' =>
    subst hs'
    exact Nat.le_refl _
  | receiver m hmove hs' =>
    rw [hs']
    exact Nat.le_refl _

/-- Actions of others leave a receiver alone that is not in a call. -/
theorem receiver_step {s s' : Oneshot.State T} {a : Oneshot.Action T}
    (h : Oneshot.step s a = .ok s') (hrecv : a ≠ .recvNow) (hdrop : a ≠ .dropReceiver)
    (hheld : s.receiver = .held) : s'.receiver = .held := by
  cases Oneshot.step_cases h with
  | clone front back hsenders hs' => rw [hs']; exact hheld
  | send front back hsenders hs' => rw [hs']; exact hheld
  | dropSender front back hsenders hs' => rw [hs']; exact hheld
  | sender front back pc m hget hsenders hmove hs' => rw [hs']; exact hheld
  | recvNow hreceiver hs' => exact absurd rfl hrecv
  | dropReceiver hreceiver hs' => exact absurd rfl hdrop
  | receiver m hmove hs' =>
    rw [hheld] at hmove
    cases hmove

/-- The call that the receiver is in, or was in. -/
def fn : Oneshot.ReceiverPc T → Option Oneshot.End
  | .held => none
  | .storing fn | .closing fn | .emptying fn | .taking fn => some fn
  | .counting fn _ | .releasing fn _ | .gone fn _ => some fn

theorem fn_receiverMove {inner : Oneshot.Inner T} {pc : Oneshot.ReceiverPc T}
    {m : Oneshot.Move (Oneshot.ReceiverPc T) T} (h : Oneshot.receiverMove inner pc = some m) :
    fn m.pc = fn pc := by
  cases pc with
  | held | gone => cases h
  | storing | emptying | taking | releasing =>
    obtain rfl := Option.some.inj h
    rfl
  | closing =>
    simp only [Oneshot.receiverMove] at h
    split at h
    · obtain rfl := Option.some.inj h
      rfl
    · cases h
    · obtain rfl := Option.some.inj h
      rfl
  | counting =>
    obtain rfl := Option.some.inj h
    dsimp only
    split
    · rfl
    · rfl

theorem fn_step {s s' : Oneshot.State T} {a : Oneshot.Action T} (h : Oneshot.step s a = .ok s')
    {e : Oneshot.End} (he : fn s.receiver = some e) : fn s'.receiver = some e := by
  cases Oneshot.step_cases h with
  | clone front back hsenders hs' => rw [hs']; exact he
  | send front back hsenders hs' => rw [hs']; exact he
  | dropSender front back hsenders hs' => rw [hs']; exact he
  | sender front back pc m hget hsenders hmove hs' => rw [hs']; exact he
  | recvNow hreceiver hs' =>
    rw [hreceiver] at he
    cases he
  | dropReceiver hreceiver hs' =>
    rw [hreceiver] at he
    cases he
  | receiver m hmove hs' =>
    rw [hs']
    exact (fn_receiverMove hmove).trans he

/-- A channel on which something was sent, as `is_empty` sees it. -/
theorem accepted_of_complete {s : Oneshot.State T} (h : Oneshot.Reachable s)
    (hheld : s.receiver = .held) (hlock : s.inner.lock = .complete) : s.accepted ≠ [] := by
  cases h.phase with
  | untouched h₁ => cases hlock.symm.trans h₁
  | filling h₁ => cases hlock.symm.trans h₁
  | emptying h₁ => cases hlock.symm.trans h₁
  | full h₁ h₂ v h₃ =>
    unfold Oneshot.State.accepted
    rw [h₃]
    simp
  | empty h₁ h₂ h₃ fn h₄ =>
    rw [hheld] at h₄
    cases h₄

/-! ## The parker -/

/-- Somebody unparked, or the call of `park` is about to end. -/
def Stirred (p : Parker.State) : Prop :=
  p.notified = true ∨ p.token = true ∨ p.waking ≠ [] ∨
    p.pc = .woken ∨ p.pc = .refused ∨ p.pc = .clearing ∨ p.pc = .leaving

section Parker

variable {p p' : Parker.State}

/-- What an action on a parker can stir. -/
structure Stirs (p p' : Parker.State) (a : Parker.Action) : Prop where
  stirred : Stirred p' → Stirred p ∨ a = .unpark ∨ p'.handles = 0
  idle : p'.pc = .idle → (a ≠ .park ∧ p.pc = .idle) ∨ Stirred p ∨ p'.handles = 0
  handles : p.handles = 0 → p'.handles = 0
  notified : p.notified = true → p'.notified = true ∨ p'.pc = .leaving
  left : p.pc = .leaving → p'.pc = .leaving ∨ p'.pc = .idle

/-- Somebody unparked, and the parker goes on. -/
theorem Stirs.of_stirred {a : Parker.Action} (hstirred : Stirred p) (hhandles : p'.handles = p.handles)
    (hnotified : p.notified = true → p'.notified = true ∨ p'.pc = .leaving)
    (hleft : p.pc = .leaving → p'.pc = .leaving ∨ p'.pc = .idle) : Stirs p p' a :=
  ⟨fun _ => .inl hstirred, fun _ => .inr (.inl hstirred), fun h => hhandles.trans h, hnotified,
    hleft⟩

/-- A call of `park` begins with `park`. -/
theorem idle_step {a : Parker.Action} (hs : Parker.step p a = .ok p') (ha : a ≠ .park)
    (hpc : p.pc = .idle) : p'.pc = .idle := by
  cases a with
  | clone | unpark | wake =>
    simp only [Parker.step] at hs
    split at hs
    · obtain rfl := Except.ok.inj hs
      exact hpc
    · cases hs
  | drop =>
    simp only [Parker.step] at hs
    split at hs
    · obtain rfl := Except.ok.inj hs
      split
      · exact hpc
      · exact hpc
    · cases hs
  | park => exact absurd rfl ha
  | parker => simp [Parker.step, Parker.parkerStep, hpc] at hs
  | spurious => simp [Parker.step, hpc] at hs
  | elsewhere =>
    obtain rfl := Except.ok.inj hs
    exact hpc

theorem stirs_parkerStep (h : Parker.Inv p) (hs : Parker.parkerStep p = some p') :
    Stirs p p' .parker := by
  have hphase := h.phase
  unfold Parker.parkerStep at hs
  unfold Parker.Phase at hphase
  cases hpc : p.pc with
  | idle =>
    rw [hpc] at hs
    cases hs
  | before =>
    simp only [hpc] at hs hphase
    split at hs
    · obtain rfl := Option.some.inj hs
      refine ⟨fun hstirred => .inl ?_, by simp, id, .inl, by simp [hpc]⟩
      rcases hstirred with hnotified | htoken | hwaking | hends
      · exact .inl hnotified
      · exact .inr (.inl htoken)
      · exact .inr (.inr (.inl hwaking))
      · simp at hends
    · rename_i hnull
      obtain rfl := Option.some.inj hs
      -- the pointer is not null, so that somebody has unparked
      have hskip : p.ptr = .skip := by
        rcases hphase.2 with hdead | ⟨-, hthread⟩
        · simp [Parker.State.alive, hpc, Parker.Pc.holds] at hdead
        · cases hptr : p.ptr with
          | null => exact absurd hptr hnull
          | skip => rfl
          | thread call => exact absurd hptr (hthread call)
      exact .of_stirred (.inl (h.notified.mpr hskip)) rfl .inl (by simp [hpc])
  | armed =>
    simp only [hpc] at hs
    obtain rfl := Option.some.inj hs
    by_cases hnone : p.handles = 0
    · exact ⟨fun _ => .inr (.inr hnone), fun _ => .inr (.inr hnone), id, .inl, by simp [hpc]⟩
    · rw [if_neg hnone]
      refine ⟨fun hstirred => .inl ?_, by simp, id, .inl, by simp [hpc]⟩
      rcases hstirred with hnotified | htoken | hwaking | hends
      · exact .inl hnotified
      · exact .inr (.inl htoken)
      · exact .inr (.inr (.inl hwaking))
      · simp at hends
  | parking =>
    simp only [hpc] at hs
    split at hs
    · rename_i htoken
      obtain rfl := Option.some.inj hs
      exact .of_stirred (.inr (.inl htoken)) rfl .inl (by simp [hpc])
    · cases hs
  | woken =>
    simp only [hpc] at hs
    obtain rfl := Option.some.inj hs
    exact .of_stirred (by simp [Stirred, hpc]) rfl .inl (by simp [hpc])
  | refused =>
    simp only [hpc] at hs
    obtain rfl := Option.some.inj hs
    exact .of_stirred (by simp [Stirred, hpc]) rfl .inl (by simp [hpc])
  | clearing =>
    simp only [hpc] at hs
    obtain rfl := Option.some.inj hs
    exact .of_stirred (by simp [Stirred, hpc]) rfl (fun _ => .inr rfl) (by simp [hpc])
  | leaving =>
    simp only [hpc] at hs
    obtain rfl := Option.some.inj hs
    exact .of_stirred (by simp [Stirred, hpc]) rfl .inl (fun _ => .inr rfl)

theorem stirs_step (h : Parker.Inv p) {a : Parker.Action} (ha : a.outside = false)
    (hs : Parker.step p a = .ok p') : Stirs p p' a := by
  cases a with
  | clone =>
    simp only [Parker.step] at hs
    split at hs
    · rename_i hpos
      obtain rfl := Except.ok.inj hs
      exact ⟨.inl, fun hidle => .inl ⟨by simp, hidle⟩, fun hnone => by omega, .inl, .inl⟩
    · cases hs
  | unpark =>
    simp only [Parker.step] at hs
    split at hs
    · rename_i hpos
      obtain rfl := Except.ok.inj hs
      exact ⟨fun _ => .inr (.inl rfl), fun hidle => .inl ⟨by simp, hidle⟩,
        fun hnone => by omega, fun _ => .inl rfl, .inl⟩
    · cases hs
  | drop =>
    simp only [Parker.step] at hs
    split at hs
    · rename_i hdrop
      have hpos := hdrop.pos
      obtain rfl := Except.ok.inj hs
      split
      · exact ⟨.inl, fun hidle => .inl ⟨by simp, hidle⟩, fun hnone => by omega, .inl, .inl⟩
      · rename_i hdead
        have hnone : p.handles - 1 = 0 := by
          simp only [Parker.State.alive, Bool.or_eq_true, decide_eq_true_eq, not_or] at hdead
          exact Nat.eq_zero_of_not_pos hdead.2
        exact ⟨fun _ => .inr (.inr hnone), fun _ => .inr (.inr hnone), fun _ => hnone, .inl, .inl⟩
    · cases hs
  | wake i =>
    simp only [Parker.step] at hs
    split at hs
    · rename_i w hi
      obtain rfl := Except.ok.inj hs
      have hstirred : Stirred p := .inr (.inr (.inl fun hnil => by simp [hnil] at hi))
      exact .of_stirred hstirred rfl .inl .inl
    · cases hs
  | park =>
    simp only [Parker.step] at hs
    split at hs
    · rename_i hpc
      obtain rfl := Except.ok.inj hs
      split
      · refine ⟨fun hstirred => .inl ?_, by simp, id, .inl, by simp [hpc]⟩
        rcases hstirred with hnotified | htoken | hwaking | hends
        · exact .inl hnotified
        · exact .inr (.inl htoken)
        · exact .inr (.inr (.inl hwaking))
        · simp at hends
      · rename_i hdead
        have hnone : p.handles = 0 := by
          simp only [Parker.State.alive, Bool.or_eq_true, decide_eq_true_eq, not_or] at hdead
          exact Nat.eq_zero_of_not_pos hdead.2
        exact ⟨.inl, fun _ => .inr (.inr hnone), id, .inl, .inl⟩
    · cases hs
  | parker =>
    simp only [Parker.step] at hs
    split at hs
    · rename_i hmove
      obtain rfl := Except.ok.inj hs
      exact stirs_parkerStep h hmove
    · cases hs
  | spurious | elsewhere => cases ha

end Parker

/-! ## What holds in any case -/

/-- Where `recv` is agrees with where its parts are. -/
structure Going (s : State T) : Prop where
  chan : Oneshot.Reachable s.chan
  live : Parker.Live s.parker
  held : s.pc ≠ .receiving → s.chan.receiver = .held
  receiving : s.pc = .receiving → fn s.chan.receiver = some .recvNow
  idle : s.pc ≠ .parking → s.parker.pc = .idle

section Going

variable {s s' : State T}

theorem Going.of_chan (h : Going s) {a : Oneshot.Action T} {chan : Oneshot.State T}
    (hstep : Oneshot.step s.chan a = .ok chan) (hrecv : a ≠ .recvNow) (hdrop : a ≠ .dropReceiver) :
    Going { s with chan := chan } where
  chan := .step a h.chan hstep
  live := h.live
  held hpc := receiver_step hstep hrecv hdrop (h.held hpc)
  receiving hpc := fn_step hstep (h.receiving hpc)
  idle := h.idle

/-- An action on the parker, which may be an unpark or the beginning of `park`. -/
theorem Going.of_parker (h : Going s) {a : Parker.Action} {parker : Parker.State} {pc : Pc}
    {unparked : ℕ} (hstep : Parker.step s.parker a = .ok parker)
    (hpc : a ≠ .park ∧ pc = s.pc ∨ a = .park ∧ s.pc = .empty ∧ pc = .parking) :
    Going { s with parker := parker, unparked := unparked, pc := pc } := by
  refine ⟨h.chan, h.live.after hstep, fun hne => ?_, fun hreceiving => ?_, fun hne => ?_⟩
  · rcases hpc with ⟨-, rfl⟩ | ⟨-, hempty, -⟩
    · exact h.held hne
    · exact h.held (by simp [hempty])
  · rcases hpc with ⟨-, rfl⟩ | ⟨-, -, rfl⟩
    · exact h.receiving hreceiving
    · cases hreceiving
  · rcases hpc with ⟨hpark, rfl⟩ | ⟨-, -, rfl⟩
    · exact idle_step hstep hpark (h.idle hne)
    · exact absurd rfl hne

theorem Going.check (h : Going s) (hpc : s.pc = .held) :
    Going { s with pc := if s.chan.inner.lock = .complete then .ready else .empty } := by
  have hheld : s.chan.receiver = .held := h.held (by simp [hpc])
  have hidle : s.parker.pc = .idle := h.idle (by simp [hpc])
  split
  · exact ⟨h.chan, h.live, fun _ => hheld, by simp, fun _ => hidle⟩
  · exact ⟨h.chan, h.live, fun _ => hheld, by simp, fun _ => hidle⟩

theorem Going.recvNow (h : Going s) {chan : Oneshot.State T}
    (hpc : s.pc = .ready ∨ s.pc = .parking ∧ s.parker.pc = .idle)
    (hstep : Oneshot.step s.chan .recvNow = .ok chan) :
    Going { s with chan := chan, pc := .receiving } where
  chan := .step _ h.chan hstep
  live := h.live
  held := by simp
  receiving _ := by
    cases Oneshot.step_cases hstep with
    | recvNow hreceiver hs' => rw [hs']; rfl
  idle _ := by
    rcases hpc with hready | ⟨-, hidle⟩
    · exact h.idle (by simp [hready])
    · exact hidle

/-- **What every action keeps**, also one from outside. -/
theorem Going.step (h : Going s) {a : Action T} (hdoes : Does s s' a) : Going s' := by
  cases hdoes with
  | chan hstep hrecv hdrop hs' =>
    subst hs'
    exact h.of_chan hstep hrecv hdrop
  | unpark hlt hstep hs' =>
    subst hs'
    exact h.of_parker hstep (.inl ⟨by simp, rfl⟩)
  | parker hstep hunpark hpark hs' =>
    subst hs'
    exact h.of_parker hstep (.inl ⟨hpark, rfl⟩)
  | check hpc hs' =>
    subst hs'
    exact h.check hpc
  | park hpc hstep hs' =>
    subst hs'
    exact h.of_parker hstep (.inr ⟨rfl, hpc, rfl⟩)
  | recvNow hpc hstep hs' =>
    subst hs'
    exact h.recvNow hpc hstep

end Going

theorem going_new : Going (new : State T) where
  chan := .init rfl
  live := Parker.live_new
  held _ := rfl
  receiving h := by cases h
  idle _ := rfl

theorem going_of_reach {s : State T} (h : Reach (fun s => s = new) step s) : Going s := by
  refine Reach.invariant Going ?_ (fun _ _ _ hs hstep => hs.step (step_cases hstep)) h
  rintro s rfl
  exact going_new

/-! ## The invariant -/

/-- There is no reason to wait: a value was accepted, or nobody can unpark any more. -/
def State.Due (s : State T) : Prop := 0 < s.chan.accepted.length ∨ s.parker.handles = 0

/-- What holds as long as nothing comes from outside. -/
structure Inv (s : State T) : Prop extends Going s where
  parker : Parker.Inv s.parker
  stirred : Stirred s.parker → s.Due
  back : s.pc = .parking → s.parker.pc = .idle → s.Due
  ready : s.pc = .ready ∨ s.pc = .receiving → s.Due
  unparked : s.unparked ≤ s.chan.accepted.length
  /-- Who has unparked is noticed by the call of `park`. -/
  noticed : 0 < s.unparked → s.parker.notified = true ∨
    (s.pc ≠ .held ∧ s.pc ≠ .empty) ∧ (s.parker.pc = .leaving ∨ s.parker.pc = .idle)

theorem inv_new : Inv (new : State T) where
  toGoing := going_new
  parker := Parker.inv_new
  stirred h := by simp [Stirred, new, Parker.new] at h
  back h := by cases h
  ready h := by simp [new] at h
  unparked := Nat.le_refl 0
  noticed h := absurd h (Nat.lt_irrefl 0)

section Actions

variable {s s' : State T}

theorem Inv.of_chan (h : Inv s) {a : Oneshot.Action T} {chan : Oneshot.State T}
    (hstep : Oneshot.step s.chan a = .ok chan) (hrecv : a ≠ .recvNow) (hdrop : a ≠ .dropReceiver) :
    Inv { s with chan := chan } := by
  have haccepted := accepted_step hstep
  have hdue : s.Due → 0 < chan.accepted.length ∨ s.parker.handles = 0 :=
    fun hdue => hdue.imp_left fun hlt => Nat.lt_of_lt_of_le hlt haccepted
  exact {
    toGoing := h.toGoing.of_chan hstep hrecv hdrop
    parker := h.parker
    stirred := fun hstirred => hdue (h.stirred hstirred)
    back := fun hpc hidle => hdue (h.back hpc hidle)
    ready := fun hpc => hdue (h.ready hpc)
    unparked := Nat.le_trans h.unparked haccepted
    noticed := h.noticed }

/-- An action on the parker, which may be an unpark or the beginning of `park`. -/
theorem Inv.of_parker (h : Inv s) {a : Parker.Action} {parker : Parker.State} {pc : Pc}
    {unparked : ℕ} (hstep : Parker.step s.parker a = .ok parker) (ha : a.outside = false)
    (hunpark : a = .unpark → 0 < s.chan.accepted.length)
    (hpc : a ≠ .park ∧ pc = s.pc ∨ a = .park ∧ s.pc = .empty ∧ pc = .parking)
    (hunparked : unparked = s.unparked ∨ a = .unpark ∧ unparked ≤ s.chan.accepted.length) :
    Inv { s with parker := parker, unparked := unparked, pc := pc } := by
  have hstirs := stirs_step h.parker ha hstep
  have hgoing : Going { s with parker := parker, unparked := unparked, pc := pc } :=
    h.toGoing.of_parker hstep hpc
  have hdue : s.Due → 0 < s.chan.accepted.length ∨ parker.handles = 0 :=
    fun hdue => hdue.imp_right hstirs.handles
  refine ⟨hgoing, h.parker.after ha hstep, fun hstirred => ?_, fun hparking hend => ?_,
    fun hready => ?_, ?_, fun hpos => ?_⟩
  · rcases hstirs.stirred hstirred with hstirred | hact | hnone
    · exact hdue (h.stirred hstirred)
    · exact .inl (hunpark hact)
    · exact .inr hnone
  · rcases hstirs.idle hend with ⟨hpark, hwas⟩ | hstirred | hnone
    · rcases hpc with ⟨-, rfl⟩ | ⟨hpark', -, -⟩
      · exact hdue (h.back hparking hwas)
      · exact absurd hpark' hpark
    · exact hdue (h.stirred hstirred)
    · exact .inr hnone
  · rcases hpc with ⟨-, rfl⟩ | ⟨-, -, rfl⟩
    · exact hdue (h.ready hready)
    · rcases hready with hready | hready
      · cases hready
      · cases hready
  · rcases hunparked with rfl | ⟨-, hle⟩
    · exact h.unparked
    · exact hle
  · rcases hunparked with rfl | ⟨rfl, -⟩
    · rcases h.noticed hpos with hnotified | ⟨⟨hheld, hempty⟩, hends⟩
      · refine (hstirs.notified hnotified).imp_right fun hleaving => ⟨?_, .inl hleaving⟩
        constructor
        · rintro rfl
          cases hleaving.symm.trans (hgoing.idle (by simp))
        · rintro rfl
          cases hleaving.symm.trans (hgoing.idle (by simp))
      · rcases hpc with ⟨hpark, rfl⟩ | ⟨-, hempty', -⟩
        · refine .inr ⟨⟨hheld, hempty⟩, ?_⟩
          rcases hends with hleaving | hend
          · exact hstirs.left hleaving
          · exact .inr (idle_step hstep hpark hend)
        · exact absurd hempty' hempty
    · simp only [Parker.step] at hstep
      split at hstep
      · obtain rfl := Except.ok.inj hstep
        exact .inl rfl
      · cases hstep

theorem Inv.check (h : Inv s) (hpc : s.pc = .held) :
    Inv { s with pc := if s.chan.inner.lock = .complete then .ready else .empty } := by
  have hgoing := h.toGoing.check hpc
  have hheld : s.chan.receiver = .held := h.held (by simp [hpc])
  have hnotified : 0 < s.unparked → s.parker.notified = true := by
    intro hpos
    rcases h.noticed hpos with hnotified | ⟨⟨hne, -⟩, -⟩
    · exact hnotified
    · exact absurd hpc hne
  by_cases hlock : s.chan.inner.lock = .complete
  · have hdue : s.Due := .inl (List.length_pos_of_ne_nil (accepted_of_complete h.chan hheld hlock))
    rw [if_pos hlock] at hgoing ⊢
    exact ⟨hgoing, h.parker, h.stirred, by simp, fun _ => hdue, h.unparked,
      fun hpos => .inl (hnotified hpos)⟩
  · rw [if_neg hlock] at hgoing ⊢
    exact ⟨hgoing, h.parker, h.stirred, by simp, by simp, h.unparked,
      fun hpos => .inl (hnotified hpos)⟩

theorem Inv.recvNow (h : Inv s) {chan : Oneshot.State T}
    (hpc : s.pc = .ready ∨ s.pc = .parking ∧ s.parker.pc = .idle)
    (hstep : Oneshot.step s.chan .recvNow = .ok chan) :
    Inv { s with chan := chan, pc := .receiving } := by
  have haccepted := accepted_step hstep
  have hgoing := h.toGoing.recvNow hpc hstep
  have hdue : s.Due → 0 < chan.accepted.length ∨ s.parker.handles = 0 :=
    fun hdue => hdue.imp_left fun hlt => Nat.lt_of_lt_of_le hlt haccepted
  have hdue' : s.Due := by
    rcases hpc with hready | ⟨hparking, hidle⟩
    · exact h.ready (.inl hready)
    · exact h.back hparking hidle
  exact {
    toGoing := hgoing
    parker := h.parker
    stirred := fun _ => hdue hdue'
    back := by simp
    ready := fun _ => hdue hdue'
    unparked := Nat.le_trans h.unparked haccepted
    noticed := fun hpos => .inr ⟨by simp, .inr (hgoing.idle (by simp))⟩ }

/-- **What every action of a party keeps.** -/
theorem Inv.step (h : Inv s) {a : Action T} (ha : a.outside = false) (hdoes : Does s s' a) :
    Inv s' := by
  cases hdoes with
  | chan hstep hrecv hdrop hs' =>
    subst hs'
    exact h.of_chan hstep hrecv hdrop
  | unpark hlt hstep hs' =>
    subst hs'
    exact h.of_parker hstep rfl (fun _ => Nat.zero_lt_of_lt hlt) (.inl ⟨by simp, rfl⟩)
      (.inr ⟨rfl, hlt⟩)
  | parker hstep hunpark hpark hs' =>
    subst hs'
    exact h.of_parker hstep ha (fun hact => absurd hact hunpark) (.inl ⟨hpark, rfl⟩) (.inl rfl)
  | check hpc hs' =>
    subst hs'
    exact h.check hpc
  | park hpc hstep hs' =>
    subst hs'
    exact h.of_parker hstep rfl (by simp) (.inr ⟨rfl, hpc, rfl⟩) (.inl rfl)
  | recvNow hpc hstep hs' =>
    subst hs'
    exact h.recvNow hpc hstep

end Actions

theorem Inv.foldlM {as : List (Action T)} {s s' : State T} (h : Inv s)
    (has : ∀ a ∈ as, a.outside = false) (hs' : as.foldlM BlockingRecv.step s = .ok s') :
    Inv s' := by
  induction as generalizing s with
  | nil =>
    rw [← Except.ok.inj hs']
    exact h
  | cons a as ih =>
    obtain ⟨s₁, hs, hrest⟩ := foldlM_cons_ok hs'
    exact ih (h.step (has a List.mem_cons_self) (step_cases hs))
      (fun b hb => has b (List.mem_cons_of_mem _ hb)) hrest

theorem Reachable.inv {s : State T} (h : Reachable s) : Inv s := by
  obtain ⟨as, has, hs⟩ := h
  exact inv_new.foldlM has hs

/-! ## Receiving -/

/-- **What `recv` returns**: the value that was accepted, or nothing if nobody is left who could send
one and nothing was accepted.  And as long as it waits, nobody who had sent a value has unparked. -/
theorem receives {s : State T} (h : Reachable s) :
    (∀ got, s.chan.receiver = .gone .recvNow got →
      (∃ v, got = some v ∧ s.chan.accepted = [v]) ∨
        got = none ∧ s.chan.accepted = [] ∧ s.parker.handles = 0) ∧
      (s.parker.Waits → s.unparked = 0) := by
  have hinv := h.inv
  constructor
  · intro got hgone
    rcases hinv.chan.outcome_cases (by rw [hgone]; rfl) with ⟨v, rfl, haccepted, -⟩ |
      ⟨rfl, haccepted, -⟩
    · exact .inl ⟨v, rfl, haccepted⟩
    · refine .inr ⟨rfl, haccepted, ?_⟩
      have hpc : s.pc = .receiving := by
        by_contra hne
        cases hgone.symm.trans (hinv.held hne)
      rcases hinv.ready (.inr hpc) with hpos | hnone
      · rw [haccepted] at hpos
        exact absurd hpos (Nat.lt_irrefl 0)
      · exact hnone
  · rintro ⟨hpc, -, hnotified, -, -, -⟩
    by_contra hne
    rcases hinv.noticed (Nat.pos_of_ne_zero hne) with hyes | ⟨-, hends | hends⟩
    · cases hnotified.symm.trans hyes
    · cases hpc.symm.trans hends
    · cases hpc.symm.trans hends

/-- The receiver finds nothing and parks, a value is sent, and the receiver takes it. -/
def parked : List (Action ℕ) :=
  [.check, .park, .parker .parker, .parker .parker, .chan (.send 0 1), .chan (.sender 0),
    .chan (.sender 0), .chan (.sender 0), .chan (.sender 0), .unpark, .parker (.wake 0),
    .parker .parker, .parker .parker, .parker .parker, .parker .parker, .recvNow, .chan .receiver,
    .chan .receiver, .chan .receiver, .chan .receiver]

/-- What it takes. -/
theorem receives_parked : ∃ s : State ℕ, parked.foldlM step new = .ok s ∧
    s.chan.receiver = .gone .recvNow (some 1) ∧ s.chan.accepted = [1] := by
  obtain ⟨s, hs, hgone⟩ : ∃ s : State ℕ, parked.foldlM step new = .ok s ∧
      s.chan.receiver = .gone .recvNow (some 1) := ⟨_, rfl, rfl⟩
  rcases (receives ⟨parked, by decide, hs⟩).1 _ hgone with ⟨v, hv, haccepted⟩ | ⟨hv, -⟩
  · obtain rfl := Option.some.inj hv
    exact ⟨s, hs, hgone, haccepted⟩
  · cases hv

/-- What belongs to a call of `recv` that is going on: its own operations, the wakes that are under
way, and what a sender still has to do that keeps it waiting. -/
def Own : Action T → Prop
  | .check | .park | .recvNow => True
  | .parker .parker => True
  | .parker (.wake _) => True
  | .chan .receiver => True
  | .chan (.sender _) => True
  | _ => False

/-- **A call of `recv` does not get stuck**: it has returned, or it waits for an unparker, or it can
go on; whatever comes from outside. -/
theorem goes_on {s : State T} (h : Reach (fun s => s = new) step s) :
    (∃ got, s.chan.receiver = .gone .recvNow got) ∨ s.parker.Waits ∨
      ∃ a s', Own a ∧ step s a = .ok s' := by
  have hinv := going_of_reach h
  have hrecv (hpc : s.pc = .ready ∨ s.pc = .parking ∧ s.parker.pc = .idle)
      (hne : s.pc ≠ .receiving) : ∃ s', step s .recvNow = .ok s' := by
    have hheld := hinv.held hne
    simp only [step, if_pos hpc, State.onChan, Oneshot.step, hheld]
    exact ⟨_, rfl⟩
  cases hpc : s.pc with
  | held =>
    refine .inr (.inr ⟨.check, ?_⟩)
    simp only [step, hpc]
    exact ⟨_, trivial, rfl⟩
  | empty =>
    refine .inr (.inr ⟨.park, ?_⟩)
    have hidle := hinv.idle (by simp [hpc])
    simp only [step, hpc, State.onParker, Parker.step, hidle]
    exact ⟨_, trivial, rfl⟩
  | parking =>
    by_cases hidle : s.parker.pc = .idle
    · obtain ⟨s', hs'⟩ := hrecv (.inr ⟨hpc, hidle⟩) (by simp [hpc])
      exact .inr (.inr ⟨.recvNow, s', trivial, hs'⟩)
    · rcases hinv.live.enabled hidle with ⟨a, parker, ha, hstep⟩ | hwaits
      · cases a with
        | parker =>
          refine .inr (.inr ⟨.parker .parker, ?_⟩)
          simp only [step, State.onParker, hstep]
          exact ⟨_, trivial, rfl⟩
        | wake i =>
          refine .inr (.inr ⟨.parker (.wake i), ?_⟩)
          simp only [step, State.onParker, hstep]
          exact ⟨_, trivial, rfl⟩
        | clone | unpark | drop | park | spurious | elsewhere => cases ha
      · exact .inr (.inl hwaits)
  | ready =>
    obtain ⟨s', hs'⟩ := hrecv (.inl hpc) (by simp [hpc])
    exact .inr (.inr ⟨.recvNow, s', trivial, hs'⟩)
  | receiving =>
    have hchan {a : Oneshot.Action T} (ha : a = .receiver ∨ ∃ i, a = .sender i)
        (henabled : s.chan.Enabled a) : ∃ a s', Own a ∧ step s a = .ok s' := by
      obtain ⟨chan, hstep⟩ := henabled
      rcases ha with rfl | ⟨i, rfl⟩
      · refine ⟨.chan .receiver, ?_⟩
        simp only [step, State.onChan, hstep]
        exact ⟨_, trivial, rfl⟩
      · refine ⟨.chan (.sender i), ?_⟩
        simp only [step, State.onChan, hstep]
        exact ⟨_, trivial, rfl⟩
    have hfn := hinv.receiving hpc
    rcases Oneshot.exists_receiverMove s.chan.inner s.chan.receiver with
      (hheld | ⟨e, got, hgone⟩) | hlock | ⟨m, hm⟩
    · rw [hheld] at hfn
      cases hfn
    · rw [hgone] at hfn
      obtain rfl := Option.some.inj hfn
      exact .inl ⟨got, hgone⟩
    · -- somebody runs a closure, and can go on
      rcases hinv.chan.enabled_of_running hlock with henabled | ⟨i, henabled⟩
      · exact .inr (.inr (hchan (.inl rfl) henabled))
      · exact .inr (.inr (hchan (.inr ⟨i, rfl⟩) henabled))
    · exact .inr (.inr (hchan (.inl rfl) (Oneshot.State.enabled_receiver hm)))

/-- While the value is being sent. -/
theorem goes_on_parked : ∃ s : State ℕ, (parked.take 8).foldlM step new = .ok s ∧
    ((∃ got, s.chan.receiver = .gone .recvNow got) ∨ s.parker.Waits ∨
      ∃ a s', Own a ∧ step s a = .ok s') := by
  obtain ⟨s, hs⟩ : ∃ s : State ℕ, (parked.take 8).foldlM step new = .ok s := ⟨_, rfl⟩
  exact ⟨s, hs, goes_on (Reach.foldlM (.init rfl) hs)⟩

end BlockingRecv

end Vinezombie
