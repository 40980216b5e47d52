import Vinezombie.Library.Machine
import Mathlib.Data.List.Basic

/-!
# The oneshot channel

`client/handler/channel/oneshot.rs`: a channel for one value, with any number of senders and one
receiver, which share an `Inner` and free it themselves.

Each party is at a point of its program, and an action lets one party do its next atomic operation:
an access to a field of `Inner`, a step of `Once::call_once`, or the release of `Inner`.  Actions of
all parties may come in any order.  `Once` runs one of the closures that compete for it; whoever
comes while it runs has to wait, so that its action is blocked, and whoever comes later does not run
its closure.  The memory of `Inner` keeps its contents in the model when it is released; `released`
counts the releases and `misused` records an access that comes after one.  The number of senders is
a natural number.

* `step`: the actions.  `step_cases`: what an action can do.
* `Phase`: the invariant of the delivery, by the state of the `Once`.
* `delivery`: what becomes of the values.
-/

namespace Vinezombie

namespace Oneshot

open Library.Machine

variable {T : Type}

/-! ## The state -/

/-- `std::sync::Once`. -/
inductive Once where
  | incomplete
  | running
  | complete
  deriving DecidableEq

/-- `Inner`. -/
structure Inner (T : Type) where
  senderCount : ℕ
  recver : Bool
  lock : Once
  /-- What was written to the value, which is uninitialised before. -/
  value : Option T

/-- A call of `send` whose result is known. -/
structure Sent (T : Type) where
  arg : T
  result : Except T Unit

/-- Where a sender is.  From `dropping` on, the call of `send` that it is in, if any, has a
result. -/
inductive SenderPc (T : Type) where
  | held
  /-- In `send`, before `recver.load`. -/
  | loading (value : T)
  /-- Before `call_once`. -/
  | competing (value : T)
  /-- In the closure, before the value is written. -/
  | writing (value : T)
  /-- At the end of the closure. -/
  | completing (value : T)
  /-- In `drop`, before `fetch_sub`. -/
  | dropping (sent : Option (Sent T))
  /-- Before `recver.load`, as the last sender. -/
  | lastLoad (sent : Option (Sent T))
  /-- Before the release. -/
  | releasing (sent : Option (Sent T))
  | gone (sent : Option (Sent T))

/-- The two functions that consume a receiver. -/
inductive End where
  | recvNow
  | drop
  deriving DecidableEq

/-- Where the receiver is.  From `counting` on it knows the value that it took, if any. -/
inductive ReceiverPc (T : Type) where
  | held
  /-- Before `recver.store`. -/
  | storing (fn : End)
  /-- Before `call_once`. -/
  | closing (fn : End)
  /-- In the closure. -/
  | emptying (fn : End)
  /-- Before the value is read, or destroyed. -/
  | taking (fn : End)
  /-- Before `sender_count.load`. -/
  | counting (fn : End) (got : Option T)
  /-- Before the release. -/
  | releasing (fn : End) (got : Option T)
  | gone (fn : End) (got : Option T)

/-- A channel with its senders and its receiver. -/
structure State (T : Type) where
  inner : Inner T
  senders : List (SenderPc T)
  receiver : ReceiverPc T
  /-- The values that the receiver read or destroyed, and in which function. -/
  taken : List (End × T)
  /-- How often `Inner` was released. -/
  released : ℕ
  /-- `Inner` was accessed after it had been released. -/
  misused : Bool

/-- `channel`. -/
def channel : State T where
  inner := { senderCount := 1, recver := true, lock := .incomplete, value := none }
  senders := [.held]
  receiver := .held
  taken := []
  released := 0
  misused := false

/-! ## Actions -/

/-- What one operation of a party does. -/
structure Move (P T : Type) where
  pc : P
  inner : Inner T
  /-- It is the release of `Inner`, and no access. -/
  releases : Bool

/-- The next operation of a sender, if it has one and does not have to wait. -/
def senderMove (inner : Inner T) : SenderPc T → Option (Move (SenderPc T) T)
  | .held => none
  | .loading value =>
    some ⟨if inner.recver then .competing value else .dropping (some ⟨value, .error value⟩), inner,
      false⟩
  | .competing value =>
    match inner.lock with
    | .incomplete => some ⟨.writing value, { inner with lock := .running }, false⟩
    | .running => none
    | .complete => some ⟨.dropping (some ⟨value, .error value⟩), inner, false⟩
  | .writing value => some ⟨.completing value, { inner with value := some value }, false⟩
  | .completing value =>
    some ⟨.dropping (some ⟨value, .ok ()⟩), { inner with lock := .complete }, false⟩
  | .dropping sent =>
    some ⟨if inner.senderCount = 1 then .lastLoad sent else .gone sent,
      { inner with senderCount := inner.senderCount - 1 }, false⟩
  | .lastLoad sent => some ⟨if inner.recver then .gone sent else .releasing sent, inner, false⟩
  | .releasing sent => some ⟨.gone sent, inner, true⟩
  | .gone _ => none

/-- The next operation of the receiver, if it has one and does not have to wait. -/
def receiverMove (inner : Inner T) : ReceiverPc T → Option (Move (ReceiverPc T) T)
  | .held => none
  | .storing fn => some ⟨.closing fn, { inner with recver := false }, false⟩
  | .closing fn =>
    match inner.lock with
    | .incomplete => some ⟨.emptying fn, { inner with lock := .running }, false⟩
    | .running => none
    | .complete => some ⟨.taking fn, inner, false⟩
  | .emptying fn => some ⟨.counting fn none, { inner with lock := .complete }, false⟩
  | .taking fn => some ⟨.counting fn inner.value, inner, false⟩
  | .counting fn got =>
    some ⟨if inner.senderCount = 0 then .releasing fn got else .gone fn got, inner, false⟩
  | .releasing fn got => some ⟨.gone fn got, inner, true⟩
  | .gone _ _ => none

/-- The value that the receiver's next operation takes. -/
def takes (inner : Inner T) : ReceiverPc T → List (End × T)
  | .taking fn => inner.value.toList.map fun value => (fn, value)
  | _ => []

/-- An action.  Calls of `send`, `recv_now` and `drop` only begin with the action of that name. -/
inductive Action (T : Type) where
  | clone (i : ℕ)
  | send (i : ℕ) (value : T)
  | dropSender (i : ℕ)
  | sender (i : ℕ)
  | recvNow
  | dropReceiver
  | receiver

/-- The party does not exist, is elsewhere in its program, or has to wait. -/
inductive Blocked where
  | blocked

/-- The state after an operation on `Inner`. -/
def State.after (s : State T) (inner : Inner T) (releases : Bool) : State T :=
  { s with
    inner := inner
    released := if releases then s.released + 1 else s.released
    misused := s.misused || (!releases && decide (0 < s.released)) }

/-- An action, if it is possible. -/
def step (s : State T) : Action T → Except Blocked (State T)
  | .clone i =>
    match s.senders[i]? with
    | some .held =>
      .ok { s.after { s.inner with senderCount := s.inner.senderCount + 1 } false with
        senders := s.senders ++ [.held] }
    | _ => .error .blocked
  | .send i value =>
    match s.senders[i]? with
    | some .held => .ok { s with senders := s.senders.set i (.loading value) }
    | _ => .error .blocked
  | .dropSender i =>
    match s.senders[i]? with
    | some .held => .ok { s with senders := s.senders.set i (.dropping none) }
    | _ => .error .blocked
  | .sender i =>
    match s.senders[i]?.bind (senderMove s.inner) with
    | some m => .ok { s.after m.inner m.releases with senders := s.senders.set i m.pc }
    | none => .error .blocked
  | .recvNow =>
    match s.receiver with
    | .held => .ok { s with receiver := .storing .recvNow }
    | _ => .error .blocked
  | .dropReceiver =>
    match s.receiver with
    | .held => .ok { s with receiver := .storing .drop }
    | _ => .error .blocked
  | .receiver =>
    match receiverMove s.inner s.receiver with
    | some m =>
      .ok { s.after m.inner m.releases with
        receiver := m.pc
        taken := s.taken ++ takes s.inner s.receiver }
    | none => .error .blocked

/-- The states of a channel. -/
def Reachable (s : State T) : Prop := Reach (fun s => s = channel) step s

/-! ## What an action can do -/

theorem exists_split {α : Type} {l : List α} {i : ℕ} {x : α} (h : l[i]? = some x) :
    ∃ front back, l = front ++ x :: back ∧ ∀ y, l.set i y = front ++ y :: back := by
  obtain ⟨hlt, rfl⟩ := List.getElem?_eq_some_iff.mp h
  refine ⟨l.take i, l.drop (i + 1), ?_, fun y => ?_⟩
  · rw [← List.drop_eq_getElem_cons hlt, List.take_append_drop]
  · rw [List.set_eq_take_append_cons_drop, if_pos hlt]

/-- **What an action can do**: clone a sender, begin the call of a sender or of the receiver, or let
one of them do its next operation. -/
inductive Does (s s' : State T) : Action T → Prop
  | clone {i : ℕ} (front back : List (SenderPc T)) (hsenders : s.senders = front ++ .held :: back)
      (hs' : s' = { s.after { s.inner with senderCount := s.inner.senderCount + 1 } false with
        senders := s.senders ++ [.held] }) : Does s s' (.clone i)
  | send {i : ℕ} {value : T} (front back : List (SenderPc T))
      (hsenders : s.senders = front ++ .held :: back)
      (hs' : s' = { s with senders := front ++ .loading value :: back }) : Does s s' (.send i value)
  | dropSender {i : ℕ} (front back : List (SenderPc T))
      (hsenders : s.senders = front ++ .held :: back)
      (hs' : s' = { s with senders := front ++ .dropping none :: back }) : Does s s' (.dropSender i)
  | sender {i : ℕ} (front back : List (SenderPc T)) (pc : SenderPc T) (m : Move (SenderPc T) T)
      (hget : s.senders[i]? = some pc) (hsenders : s.senders = front ++ pc :: back)
      (hmove : senderMove s.inner pc = some m)
      (hs' : s' = { s.after m.inner m.releases with senders := front ++ m.pc :: back }) :
      Does s s' (.sender i)
  | recvNow (hreceiver : s.receiver = .held) (hs' : s' = { s with receiver := .storing .recvNow }) :
      Does s s' .recvNow
  | dropReceiver (hreceiver : s.receiver = .held)
      (hs' : s' = { s with receiver := .storing .drop }) : Does s s' .dropReceiver
  | receiver (m : Move (ReceiverPc T) T) (hmove : receiverMove s.inner s.receiver = some m)
      (hs' : s' = { s.after m.inner m.releases with
        receiver := m.pc
        taken := s.taken ++ takes s.inner s.receiver }) : Does s s' .receiver

theorem step_cases {s s' : State T} {a : Action T} (h : step s a = .ok s') : Does s s' a := by
  cases a with
  | clone i =>
    simp only [step] at h
    split at h
    · rename_i hget
      obtain ⟨front, back, hsenders, -⟩ := exists_split hget
      exact .clone front back hsenders (Except.ok.inj h).symm
    · exact absurd h (by simp)
  | send i value =>
    simp only [step] at h
    split at h
    · rename_i hget
      obtain ⟨front, back, hsenders, hset⟩ := exists_split hget
      exact .send front back hsenders (by rw [← hset]; exact (Except.ok.inj h).symm)
    · exact absurd h (by simp)
  | dropSender i =>
    simp only [step] at h
    split at h
    · rename_i hget
      obtain ⟨front, back, hsenders, hset⟩ := exists_split hget
      exact .dropSender front back hsenders (by rw [← hset]; exact (Except.ok.inj h).symm)
    · exact absurd h (by simp)
  | sender i =>
    simp only [step] at h
    split at h
    · rename_i m hm
      obtain ⟨pc, hget, hmove⟩ := Option.bind_eq_some_iff.mp hm
      obtain ⟨front, back, hsenders, hset⟩ := exists_split hget
      exact .sender front back pc m hget hsenders hmove
        (by rw [← hset]; exact (Except.ok.inj h).symm)
    · exact absurd h (by simp)
  | recvNow =>
    simp only [step] at h
    split at h
    · rename_i hreceiver
      exact .recvNow hreceiver (Except.ok.inj h).symm
    · exact absurd h (by simp)
  | dropReceiver =>
    simp only [step] at h
    split at h
    · rename_i hreceiver
      exact .dropReceiver hreceiver (Except.ok.inj h).symm
    · exact absurd h (by simp)
  | receiver =>
    simp only [step] at h
    split at h
    · rename_i m hmove
      exact .receiver m hmove (Except.ok.inj h).symm
    · exact absurd h (by simp)

/-! ## Values -/

/-- `send` has accepted the value. -/
def Sent.isOk (c : Sent T) : Bool :=
  match c.result with
  | .ok _ => true
  | .error _ => false

namespace SenderPc

/-- The call of `send` that has a result. -/
def sent : SenderPc T → Option (Sent T)
  | .dropping sent => sent
  | .lastLoad sent => sent
  | .releasing sent => sent
  | .gone sent => sent
  | _ => none

/-- The value whose `send` returns `Ok`. -/
def accepted (pc : SenderPc T) : List T := (pc.sent.toList.filter Sent.isOk).map Sent.arg

/-- The sender runs its closure. -/
def inClosure : SenderPc T → Bool
  | .writing _ => true
  | .completing _ => true
  | _ => false

end SenderPc

namespace ReceiverPc

/-- The receiver has not yet competed for the `Once`. -/
def isOpen : ReceiverPc T → Bool
  | .held => true
  | .storing _ => true
  | .closing _ => true
  | _ => false

/-- What the receiver has taken, once it knows. -/
def outcome : ReceiverPc T → Option (End × Option T)
  | .counting fn got => some (fn, got)
  | .releasing fn got => some (fn, got)
  | .gone fn got => some (fn, got)
  | _ => none

/-- A receiver that knows what it has taken has competed for the `Once`. -/
theorem isOpen_eq_false {receiver : ReceiverPc T} {taken : End × Option T}
    (h : receiver.outcome = some taken) : receiver.isOpen = false := by
  cases receiver with
  | held => exact absurd h (by simp [outcome])
  | storing => exact absurd h (by simp [outcome])
  | closing => exact absurd h (by simp [outcome])
  | emptying => rfl
  | taking => rfl
  | counting => rfl
  | releasing => rfl
  | gone => rfl

end ReceiverPc

/-- The calls of `send` that have a result. -/
def State.sent (s : State T) : List (Sent T) := s.senders.filterMap SenderPc.sent

/-- The values whose `send` returns `Ok`. -/
def State.accepted (s : State T) : List T := s.senders.flatMap SenderPc.accepted

/-- The number of senders that run their closures. -/
def writers (senders : List (SenderPc T)) : ℕ := senders.countP SenderPc.inClosure

theorem writers_split (front back : List (SenderPc T)) (pc : SenderPc T) :
    writers (front ++ pc :: back) =
      writers front + writers back + if pc.inClosure then 1 else 0 := by
  unfold writers
  rw [List.countP_append, List.countP_cons]
  omega

theorem not_completing_of_writers {senders : List (SenderPc T)} (h : writers senders = 0) (v : T) :
    SenderPc.completing v ∉ senders := by
  intro hmem
  have hnot := List.countP_eq_zero.mp h _ hmem
  simp [SenderPc.inClosure] at hnot

/-- **The phases of the delivery**, by the state of the `Once`: nobody has competed for it, a sender
runs its closure, the receiver runs its own, a sender has run it, the receiver has run it. -/
inductive Phase (inner : Inner T) (senders : List (SenderPc T)) (receiver : ReceiverPc T)
    (taken : List (End × T)) : Prop
  | untouched (hlock : inner.lock = .incomplete) (hwriters : writers senders = 0)
      (haccepted : senders.flatMap SenderPc.accepted = []) (hreceiver : receiver.isOpen = true)
      (htaken : taken = [])
  | filling (hlock : inner.lock = .running) (hwriters : writers senders = 1)
      (haccepted : senders.flatMap SenderPc.accepted = []) (hreceiver : receiver.isOpen = true)
      (htaken : taken = []) (hvalue : ∀ v, .completing v ∈ senders → inner.value = some v)
  | emptying (hlock : inner.lock = .running) (hwriters : writers senders = 0)
      (haccepted : senders.flatMap SenderPc.accepted = []) (fn : End)
      (hreceiver : receiver = .emptying fn) (htaken : taken = [])
  | full (hlock : inner.lock = .complete) (hwriters : writers senders = 0) (v : T)
      (haccepted : senders.flatMap SenderPc.accepted = [v]) (hvalue : inner.value = some v)
      (hreceiver : ((receiver.isOpen = true ∨ ∃ fn, receiver = .taking fn) ∧ taken = []) ∨
        ∃ fn, receiver.outcome = some (fn, some v) ∧ taken = [(fn, v)])
  | empty (hlock : inner.lock = .complete) (hwriters : writers senders = 0)
      (haccepted : senders.flatMap SenderPc.accepted = []) (fn : End)
      (hreceiver : receiver.outcome = some (fn, none)) (htaken : taken = [])

section Phases

variable {inner inner' : Inner T} {senders senders' : List (SenderPc T)} {receiver : ReceiverPc T}
  {taken : List (End × T)}

/-- What the phase does not depend on. -/
theorem Phase.of_same (h : Phase inner senders receiver taken) (hlock : inner'.lock = inner.lock)
    (hvalue : inner'.value = inner.value) (hwriters : writers senders' = writers senders)
    (haccepted : senders'.flatMap SenderPc.accepted = senders.flatMap SenderPc.accepted)
    (hcompleting : ∀ v, .completing v ∈ senders' → .completing v ∈ senders) :
    Phase inner' senders' receiver taken := by
  cases h with
  | untouched h₁ h₂ h₃ h₄ h₅ =>
    exact .untouched (hlock.trans h₁) (hwriters.trans h₂) (haccepted.trans h₃) h₄ h₅
  | filling h₁ h₂ h₃ h₄ h₅ h₆ =>
    exact .filling (hlock.trans h₁) (hwriters.trans h₂) (haccepted.trans h₃) h₄ h₅
      fun v hv => hvalue.trans (h₆ v (hcompleting v hv))
  | emptying h₁ h₂ h₃ fn h₄ h₅ =>
    exact .emptying (hlock.trans h₁) (hwriters.trans h₂) (haccepted.trans h₃) fn h₄ h₅
  | full h₁ h₂ v h₃ h₄ h₅ =>
    exact .full (hlock.trans h₁) (hwriters.trans h₂) v (haccepted.trans h₃) (hvalue.trans h₄) h₅
  | empty h₁ h₂ h₃ fn h₄ h₅ =>
    exact .empty (hlock.trans h₁) (hwriters.trans h₂) (haccepted.trans h₃) fn h₄ h₅

/-- A sender that goes on outside its closure, with the same result. -/
theorem Phase.of_quiet {front back : List (SenderPc T)} {pc pc' : SenderPc T}
    (h : Phase inner (front ++ pc :: back) receiver taken) (hlock : inner'.lock = inner.lock)
    (hvalue : inner'.value = inner.value) (hpc : pc.inClosure = false)
    (hpc' : pc'.inClosure = false) (haccepted : pc'.accepted = pc.accepted) :
    Phase inner' (front ++ pc' :: back) receiver taken := by
  refine h.of_same hlock hvalue ?_ ?_ ?_
  · rw [writers_split, writers_split, hpc, hpc']
  · rw [List.flatMap_append, List.flatMap_append, List.flatMap_cons, List.flatMap_cons, haccepted]
  · intro v hv
    rcases List.mem_append.mp hv with hv | hv
    · exact List.mem_append_left _ hv
    · rcases List.mem_cons.mp hv with rfl | hv
      · exact absurd hpc' (by simp [SenderPc.inClosure])
      · exact List.mem_append_right _ (List.mem_cons_of_mem _ hv)

/-- A sender that wins the `Once`. -/
theorem Phase.write {front back : List (SenderPc T)} {value : T} (hlock : inner.lock = .incomplete)
    (h : Phase inner (front ++ .competing value :: back) receiver taken) :
    Phase { inner with lock := .running } (front ++ .writing value :: back) receiver taken := by
  cases h with
  | untouched h₁ h₂ h₃ h₄ h₅ =>
    rw [writers_split] at h₂
    have hnone : writers front = 0 ∧ writers back = 0 := by
      simp only [SenderPc.inClosure] at h₂
      omega
    refine .filling rfl ?_ ?_ h₄ h₅ ?_
    · rw [writers_split, hnone.1, hnone.2]
      rfl
    · rw [List.flatMap_append, List.flatMap_cons] at h₃ ⊢
      exact h₃
    · intro v hv
      rcases List.mem_append.mp hv with hv | hv
      · exact absurd hv (not_completing_of_writers hnone.1 v)
      · rcases List.mem_cons.mp hv with hv | hv
        · exact absurd hv (by simp)
        · exact absurd hv (not_completing_of_writers hnone.2 v)
  | filling h₁ => exact absurd (hlock.symm.trans h₁) (by simp)
  | emptying h₁ => exact absurd (hlock.symm.trans h₁) (by simp)
  | full h₁ => exact absurd (hlock.symm.trans h₁) (by simp)
  | empty h₁ => exact absurd (hlock.symm.trans h₁) (by simp)

/-- A sender in its closure is the only one, and the phase is the one in which the value is
written. -/
theorem Phase.of_inClosure {front back : List (SenderPc T)} {pc : SenderPc T}
    (h : Phase inner (front ++ pc :: back) receiver taken) (hpc : pc.inClosure = true) :
    inner.lock = .running ∧ writers front = 0 ∧ writers back = 0 ∧
      (front ++ pc :: back).flatMap SenderPc.accepted = [] ∧ receiver.isOpen = true ∧ taken = [] ∧
      ∀ v, .completing v ∈ front ++ pc :: back → inner.value = some v := by
  have hne : writers (front ++ pc :: back) ≠ 0 := by
    rw [writers_split, hpc]
    exact Nat.succ_ne_zero _
  cases h with
  | untouched h₁ h₂ => exact absurd h₂ hne
  | filling h₁ h₂ h₃ h₄ h₅ h₆ =>
    rw [writers_split, hpc] at h₂
    simp only [if_true] at h₂
    exact ⟨h₁, by omega, by omega, h₃, h₄, h₅, h₆⟩
  | emptying h₁ h₂ => exact absurd h₂ hne
  | full h₁ h₂ => exact absurd h₂ hne
  | empty h₁ h₂ => exact absurd h₂ hne

/-- What a sender's operation does to the phase. -/
theorem Phase.after_sender {front back : List (SenderPc T)} {pc : SenderPc T}
    {m : Move (SenderPc T) T} (h : Phase inner (front ++ pc :: back) receiver taken)
    (hmove : senderMove inner pc = some m) :
    Phase m.inner (front ++ m.pc :: back) receiver taken := by
  cases pc with
  | held => exact absurd hmove (by simp [senderMove])
  | loading value =>
    obtain rfl := Option.some.inj hmove
    cases hrecver : inner.recver with
    | true => exact h.of_quiet rfl rfl rfl (by simp [SenderPc.inClosure]) rfl
    | false => exact h.of_quiet rfl rfl rfl (by simp [SenderPc.inClosure]) rfl
  | competing value =>
    simp only [senderMove] at hmove
    split at hmove
    · rename_i hlock
      obtain rfl := Option.some.inj hmove
      exact h.write hlock
    · exact absurd hmove (by simp)
    · obtain rfl := Option.some.inj hmove
      exact h.of_quiet rfl rfl rfl rfl rfl
  | writing value =>
    obtain rfl := Option.some.inj hmove
    obtain ⟨h₁, hfront, hback, h₃, h₄, h₅, -⟩ := h.of_inClosure rfl
    refine .filling h₁ ?_ ?_ h₄ h₅ ?_
    · rw [writers_split, hfront, hback]
      rfl
    · rw [List.flatMap_append, List.flatMap_cons] at h₃ ⊢
      exact h₃
    · intro v hv
      rcases List.mem_append.mp hv with hv | hv
      · exact absurd hv (not_completing_of_writers hfront v)
      · rcases List.mem_cons.mp hv with hv | hv
        · obtain rfl := SenderPc.completing.inj hv
          rfl
        · exact absurd hv (not_completing_of_writers hback v)
  | completing value =>
    obtain rfl := Option.some.inj hmove
    obtain ⟨-, hfront, hback, h₃, h₄, h₅, hvalue⟩ := h.of_inClosure rfl
    refine .full rfl ?_ value ?_ (hvalue value (by simp)) (.inl ⟨.inl h₄, h₅⟩)
    · rw [writers_split, hfront, hback]
      rfl
    · rw [List.flatMap_append, List.flatMap_cons, List.append_eq_nil_iff, List.append_eq_nil_iff]
        at h₃
      rw [List.flatMap_append, List.flatMap_cons, h₃.1, h₃.2.2]
      rfl
  | dropping sent =>
    obtain rfl := Option.some.inj hmove
    by_cases hlast : inner.senderCount = 1
    · simp only [hlast, if_true]
      exact h.of_quiet rfl rfl rfl rfl rfl
    · simp only [hlast, if_false]
      exact h.of_quiet rfl rfl rfl rfl rfl
  | lastLoad sent =>
    obtain rfl := Option.some.inj hmove
    cases hrecver : inner.recver with
    | true => exact h.of_quiet rfl rfl rfl (by simp [SenderPc.inClosure]) rfl
    | false => exact h.of_quiet rfl rfl rfl (by simp [SenderPc.inClosure]) rfl
  | releasing sent =>
    obtain rfl := Option.some.inj hmove
    exact h.of_quiet rfl rfl rfl rfl rfl
  | gone sent => exact absurd hmove (by simp [senderMove])

/-- A receiver that goes on before it competes for the `Once`. -/
theorem Phase.of_open {receiver' : ReceiverPc T} (h : Phase inner senders receiver taken)
    (hlock : inner'.lock = inner.lock) (hvalue : inner'.value = inner.value)
    (hreceiver : receiver.isOpen = true) (hreceiver' : receiver'.isOpen = true) :
    Phase inner' senders receiver' taken := by
  cases h with
  | untouched h₁ h₂ h₃ h₄ h₅ => exact .untouched (hlock.trans h₁) h₂ h₃ hreceiver' h₅
  | filling h₁ h₂ h₃ h₄ h₅ h₆ =>
    exact .filling (hlock.trans h₁) h₂ h₃ hreceiver' h₅ fun v hv => hvalue.trans (h₆ v hv)
  | emptying h₁ h₂ h₃ fn h₄ h₅ =>
    rw [h₄] at hreceiver
    exact absurd hreceiver (by simp [ReceiverPc.isOpen])
  | full h₁ h₂ v h₃ h₄ h₅ =>
    refine .full (hlock.trans h₁) h₂ v h₃ (hvalue.trans h₄) ?_
    rcases h₅ with ⟨-, htaken⟩ | ⟨fn, houtcome, -⟩
    · exact .inl ⟨.inl hreceiver', htaken⟩
    · exact absurd hreceiver (by simp [ReceiverPc.isOpen_eq_false houtcome])
  | empty h₁ h₂ h₃ fn h₄ h₅ =>
    exact absurd hreceiver (by simp [ReceiverPc.isOpen_eq_false h₄])

/-- A receiver that goes on when it knows what it has taken. -/
theorem Phase.of_outcome {receiver' : ReceiverPc T} (h : Phase inner senders receiver taken)
    {fn : End} {got : Option T} (hreceiver : receiver.outcome = some (fn, got))
    (hreceiver' : receiver'.outcome = some (fn, got)) : Phase inner senders receiver' taken := by
  have hopen : receiver.isOpen = false := ReceiverPc.isOpen_eq_false hreceiver
  cases h with
  | untouched h₁ h₂ h₃ h₄ h₅ => exact absurd (hopen.symm.trans h₄) (by simp)
  | filling h₁ h₂ h₃ h₄ h₅ h₆ => exact absurd (hopen.symm.trans h₄) (by simp)
  | emptying h₁ h₂ h₃ fn' h₄ h₅ =>
    rw [h₄] at hreceiver
    exact absurd hreceiver (by simp [ReceiverPc.outcome])
  | full h₁ h₂ v h₃ h₄ h₅ =>
    refine .full h₁ h₂ v h₃ h₄ (.inr ?_)
    rcases h₅ with ⟨hcases, -⟩ | ⟨fn', houtcome, htaken⟩
    · rcases hcases with hcases | ⟨fn', hcases⟩
      · exact absurd (hopen.symm.trans hcases) (by simp)
      · rw [hcases] at hreceiver
        exact absurd hreceiver (by simp [ReceiverPc.outcome])
    · exact ⟨fn', by rw [hreceiver', ← hreceiver, houtcome], htaken⟩
  | empty h₁ h₂ h₃ fn' h₄ h₅ =>
    exact .empty h₁ h₂ h₃ fn' (by rw [hreceiver', ← hreceiver, h₄]) h₅

/-- The receiver is the first to compete for the `Once`, and goes on to its closure. -/
theorem Phase.enters_closure {fn : End} (h : Phase inner senders (.closing fn) taken)
    (hlock : inner.lock = .incomplete) :
    Phase { inner with lock := .running } senders (.emptying fn) taken := by
  cases h with
  | untouched h₁ h₂ h₃ h₄ h₅ => exact .emptying rfl h₂ h₃ fn rfl h₅
  | filling h₁ => exact absurd (hlock.symm.trans h₁) (by simp)
  | emptying h₁ => exact absurd (hlock.symm.trans h₁) (by simp)
  | full h₁ => exact absurd (hlock.symm.trans h₁) (by simp)
  | empty h₁ => exact absurd (hlock.symm.trans h₁) (by simp)

/-- The `Once` is complete when the receiver gets to it, so a sender has run its closure. -/
theorem Phase.skips_closure {fn : End} (h : Phase inner senders (.closing fn) taken)
    (hlock : inner.lock = .complete) : Phase inner senders (.taking fn) taken := by
  cases h with
  | untouched h₁ => exact absurd (hlock.symm.trans h₁) (by simp)
  | filling h₁ => exact absurd (hlock.symm.trans h₁) (by simp)
  | emptying h₁ => exact absurd (hlock.symm.trans h₁) (by simp)
  | full h₁ h₂ v h₃ h₄ h₅ =>
    rcases h₅ with ⟨-, htaken⟩ | ⟨fn', houtcome, -⟩
    · exact .full h₁ h₂ v h₃ h₄ (.inl ⟨.inr ⟨fn, rfl⟩, htaken⟩)
    · exact absurd houtcome (by simp [ReceiverPc.outcome])
  | empty h₁ h₂ h₃ fn' h₄ => exact absurd h₄ (by simp [ReceiverPc.outcome])

/-- What the receiver's operation does to the phase. -/
theorem Phase.after_receiver {m : Move (ReceiverPc T) T} (h : Phase inner senders receiver taken)
    (hmove : receiverMove inner receiver = some m) :
    Phase m.inner senders m.pc (taken ++ takes inner receiver) := by
  cases receiver with
  | held => exact absurd hmove (by simp [receiverMove])
  | storing fn =>
    obtain rfl := Option.some.inj hmove
    rw [show takes inner (.storing fn) = [] from rfl, List.append_nil]
    exact h.of_open rfl rfl rfl rfl
  | closing fn =>
    rw [show takes inner (.closing fn) = [] from rfl, List.append_nil]
    simp only [receiverMove] at hmove
    split at hmove
    · rename_i hlock
      obtain rfl := Option.some.inj hmove
      exact h.enters_closure hlock
    · exact absurd hmove (by simp)
    · rename_i hlock
      obtain rfl := Option.some.inj hmove
      exact h.skips_closure hlock
  | emptying fn =>
    obtain rfl := Option.some.inj hmove
    rw [show takes inner (.emptying fn) = [] from rfl, List.append_nil]
    cases h with
    | untouched h₁ h₂ h₃ h₄ => exact absurd h₄ (by simp [ReceiverPc.isOpen])
    | filling h₁ h₂ h₃ h₄ => exact absurd h₄ (by simp [ReceiverPc.isOpen])
    | emptying h₁ h₂ h₃ fn' h₄ h₅ => exact .empty rfl h₂ h₃ fn rfl h₅
    | full h₁ h₂ v h₃ h₄ h₅ => exact absurd h₅ (by simp [ReceiverPc.outcome, ReceiverPc.isOpen])
    | empty h₁ h₂ h₃ fn' h₄ => exact absurd h₄ (by simp [ReceiverPc.outcome])
  | taking fn =>
    obtain rfl := Option.some.inj hmove
    cases h with
    | untouched h₁ h₂ h₃ h₄ => exact absurd h₄ (by simp [ReceiverPc.isOpen])
    | filling h₁ h₂ h₃ h₄ => exact absurd h₄ (by simp [ReceiverPc.isOpen])
    | emptying h₁ h₂ h₃ fn' h₄ => exact absurd h₄ (by simp)
    | full h₁ h₂ v h₃ h₄ h₅ =>
      rcases h₅ with ⟨-, htaken⟩ | ⟨fn', houtcome, -⟩
      · -- the value was written before the `Once` was complete
        refine .full h₁ h₂ v h₃ h₄ (.inr ⟨fn, ?_, ?_⟩)
        · rw [h₄]
          rfl
        · rw [htaken, takes, h₄]
          rfl
      · exact absurd houtcome (by simp [ReceiverPc.outcome])
    | empty h₁ h₂ h₃ fn' h₄ => exact absurd h₄ (by simp [ReceiverPc.outcome])
  | counting fn got =>
    obtain rfl := Option.some.inj hmove
    rw [show takes inner (.counting fn got) = [] from rfl, List.append_nil]
    by_cases hcount : inner.senderCount = 0
    · simp only [hcount, if_true]
      exact h.of_outcome rfl rfl
    · simp only [hcount, if_false]
      exact h.of_outcome rfl rfl
  | releasing fn got =>
    obtain rfl := Option.some.inj hmove
    rw [show takes inner (.releasing fn got) = [] from rfl, List.append_nil]
    exact h.of_outcome rfl rfl
  | gone fn got => exact absurd hmove (by simp [receiverMove])

end Phases

/-- The phase of a state. -/
def State.Phase (s : State T) : Prop := Oneshot.Phase s.inner s.senders s.receiver s.taken

theorem State.Phase.step {s s' : State T} {a : Action T} (h : s.Phase) (hdoes : Does s s' a) :
    s'.Phase := by
  unfold State.Phase at h ⊢
  cases hdoes with
  | clone front back hsenders hs' =>
    subst hs'
    refine h.of_same rfl rfl ?_ ?_ ?_
    · simp [writers, List.countP_append, SenderPc.inClosure]
    · simp [SenderPc.accepted, SenderPc.sent]
    · intro v hv
      simpa using hv
  | send front back hsenders hs' =>
    subst hs'
    rw [hsenders] at h
    exact h.of_quiet rfl rfl rfl rfl rfl
  | dropSender front back hsenders hs' =>
    subst hs'
    rw [hsenders] at h
    exact h.of_quiet rfl rfl rfl rfl rfl
  | sender front back pc m hget hsenders hmove hs' =>
    subst hs'
    rw [hsenders] at h
    exact h.after_sender hmove
  | recvNow hreceiver hs' =>
    subst hs'
    exact h.of_open rfl rfl (by rw [hreceiver]; rfl) rfl
  | dropReceiver hreceiver hs' =>
    subst hs'
    exact h.of_open rfl rfl (by rw [hreceiver]; rfl) rfl
  | receiver m hmove hs' =>
    subst hs'
    exact h.after_receiver hmove

/-- **The phase of every state that can be reached.** -/
theorem Reachable.phase {s : State T} (h : Reachable s) : s.Phase := by
  refine Reach.invariant State.Phase ?_ (fun s a s' hs hstep => hs.step (step_cases hstep)) h
  rintro s rfl
  exact .untouched rfl rfl rfl rfl rfl

/-! ## Results of `send` -/

/-- A call returned `Ok`, or its own value as `Err`. -/
def Sent.Own (c : Sent T) : Prop := c.result = .ok () ∨ c.result = .error c.arg

/-- The results of all senders are such. -/
def AllOwn (senders : List (SenderPc T)) : Prop := ∀ pc ∈ senders, ∀ c, pc.sent = some c → c.Own

theorem own_senderMove {inner : Inner T} {pc : SenderPc T} {m : Move (SenderPc T) T}
    (hmove : senderMove inner pc = some m) (h : ∀ c, pc.sent = some c → c.Own) :
    ∀ c, m.pc.sent = some c → c.Own := by
  cases pc with
  | held => exact absurd hmove (by simp [senderMove])
  | loading value =>
    obtain rfl := Option.some.inj hmove
    cases hrecver : inner.recver with
    | true => exact fun c hc => absurd hc (by simp [SenderPc.sent])
    | false =>
      intro c hc
      obtain rfl := Option.some.inj hc
      exact .inr rfl
  | competing value =>
    simp only [senderMove] at hmove
    split at hmove
    · obtain rfl := Option.some.inj hmove
      exact fun c hc => absurd hc (by simp [SenderPc.sent])
    · exact absurd hmove (by simp)
    · obtain rfl := Option.some.inj hmove
      intro c hc
      obtain rfl := Option.some.inj hc
      exact .inr rfl
  | writing value =>
    obtain rfl := Option.some.inj hmove
    exact fun c hc => absurd hc (by simp [SenderPc.sent])
  | completing value =>
    obtain rfl := Option.some.inj hmove
    intro c hc
    obtain rfl := Option.some.inj hc
    exact .inl rfl
  | dropping sent =>
    obtain rfl := Option.some.inj hmove
    by_cases hlast : inner.senderCount = 1
    · simp only [hlast, if_true]
      exact h
    · simp only [hlast, if_false]
      exact h
  | lastLoad sent =>
    obtain rfl := Option.some.inj hmove
    cases hrecver : inner.recver with
    | true => exact h
    | false => exact h
  | releasing sent =>
    obtain rfl := Option.some.inj hmove
    exact h
  | gone sent => exact absurd hmove (by simp [senderMove])

/-- One sender has moved. -/
theorem AllOwn.replace {front back : List (SenderPc T)} {pc pc' : SenderPc T}
    (h : AllOwn (front ++ pc :: back)) (hpc' : ∀ c, pc'.sent = some c → c.Own) :
    AllOwn (front ++ pc' :: back) := by
  intro p hp
  rcases List.mem_append.mp hp with hp | hp
  · exact h p (List.mem_append_left _ hp)
  · rcases List.mem_cons.mp hp with rfl | hp
    · exact hpc'
    · exact h p (List.mem_append_right _ (List.mem_cons_of_mem _ hp))

theorem AllOwn.step {s s' : State T} {a : Action T} (h : AllOwn s.senders) (hdoes : Does s s' a) :
    AllOwn s'.senders := by
  cases hdoes with
  | clone front back hsenders hs' =>
    subst hs'
    intro pc hpc c hc
    rcases List.mem_append.mp hpc with hpc | hpc
    · exact h pc hpc c hc
    · rw [List.mem_singleton.mp hpc] at hc
      exact absurd hc (by simp [SenderPc.sent])
  | send front back hsenders hs' =>
    subst hs'
    rw [hsenders] at h
    exact h.replace fun c hc => absurd hc (by simp [SenderPc.sent])
  | dropSender front back hsenders hs' =>
    subst hs'
    rw [hsenders] at h
    exact h.replace fun c hc => absurd hc (by simp [SenderPc.sent])
  | sender front back pc m hget hsenders hmove hs' =>
    subst hs'
    rw [hsenders] at h
    exact h.replace (own_senderMove hmove (h pc (by simp)))
  | recvNow hreceiver hs' =>
    subst hs'
    exact h
  | dropReceiver hreceiver hs' =>
    subst hs'
    exact h
  | receiver m hmove hs' =>
    subst hs'
    exact h

theorem Reachable.allOwn {s : State T} (h : Reachable s) : AllOwn s.senders := by
  refine Reach.invariant (fun s => AllOwn s.senders) ?_
    (fun s a s' hs hstep => AllOwn.step hs (step_cases hstep)) h
  rintro s rfl pc hpc c hc
  rw [List.mem_singleton.mp hpc] at hc
  exact absurd hc (by simp [SenderPc.sent])

theorem State.mem_accepted_iff {s : State T} {v : T} :
    v ∈ s.accepted ↔ ∃ c ∈ s.sent, c.arg = v ∧ c.result = .ok () := by
  have hok : ∀ c : Sent T, c.isOk = true ↔ c.result = .ok () := by
    rintro ⟨arg, result⟩
    cases result <;> simp [Sent.isOk]
  simp only [State.accepted, State.sent, List.mem_flatMap, List.mem_filterMap, SenderPc.accepted,
    List.mem_map, List.mem_filter, Option.mem_toList, hok]
  constructor
  · rintro ⟨pc, hpc, c, ⟨hsent, hresult⟩, rfl⟩
    exact ⟨c, ⟨pc, hpc, hsent⟩, rfl, hresult⟩
  · rintro ⟨c, ⟨pc, hpc, hsent⟩, rfl, hresult⟩
    exact ⟨pc, hpc, c, ⟨hsent, hresult⟩, rfl⟩

/-! ## Nobody waits for ever -/

/-- No party is in the middle of a call. -/
def State.Quiet (s : State T) : Prop :=
  (s.receiver = .held ∨ ∃ fn got, s.receiver = .gone fn got) ∧
    ∀ pc ∈ s.senders, pc = .held ∨ ∃ sent, pc = .gone sent

/-- The party can do its next operation. -/
def State.Enabled (s : State T) (a : Action T) : Prop := ∃ s', Oneshot.step s a = .ok s'

theorem State.enabled_sender {s : State T} {front back : List (SenderPc T)} {pc : SenderPc T}
    (hsenders : s.senders = front ++ pc :: back) {m : Move (SenderPc T) T}
    (hmove : senderMove s.inner pc = some m) : s.Enabled (.sender front.length) := by
  have hget : s.senders[front.length]? = some pc := by simp [hsenders]
  refine ⟨{ s.after m.inner m.releases with senders := s.senders.set front.length m.pc }, ?_⟩
  simp only [Oneshot.step, hget, Option.bind_some, hmove]

theorem State.enabled_receiver {s : State T} {m : Move (ReceiverPc T) T}
    (hmove : receiverMove s.inner s.receiver = some m) : s.Enabled .receiver := by
  refine ⟨{ s.after m.inner m.releases with
    receiver := m.pc, taken := s.taken ++ takes s.inner s.receiver }, ?_⟩
  simp only [Oneshot.step, hmove]

/-- A sender in a call has a next operation, unless it waits for the `Once`. -/
theorem exists_senderMove (inner : Inner T) (pc : SenderPc T) :
    (pc = .held ∨ ∃ sent, pc = .gone sent) ∨ inner.lock = .running ∨
      ∃ m, senderMove inner pc = some m := by
  cases pc with
  | held => exact .inl (.inl rfl)
  | gone sent => exact .inl (.inr ⟨sent, rfl⟩)
  | competing value =>
    cases hlock : inner.lock with
    | incomplete => exact .inr (.inr (by simp [senderMove, hlock]))
    | running => exact .inr (.inl rfl)
    | complete => exact .inr (.inr (by simp [senderMove, hlock]))
  | _ => exact .inr (.inr ⟨_, rfl⟩)

theorem exists_receiverMove (inner : Inner T) (pc : ReceiverPc T) :
    (pc = .held ∨ ∃ fn got, pc = .gone fn got) ∨ inner.lock = .running ∨
      ∃ m, receiverMove inner pc = some m := by
  cases pc with
  | held => exact .inl (.inl rfl)
  | gone fn got => exact .inl (.inr ⟨fn, got, rfl⟩)
  | closing fn =>
    cases hlock : inner.lock with
    | incomplete => exact .inr (.inr (by simp [receiverMove, hlock]))
    | running => exact .inr (.inl rfl)
    | complete => exact .inr (.inr (by simp [receiverMove, hlock]))
  | _ => exact .inr (.inr ⟨_, rfl⟩)

/-- Whoever runs a closure can go on. -/
theorem Reachable.enabled_of_running {s : State T} (h : Reachable s)
    (hlock : s.inner.lock = .running) : s.Enabled .receiver ∨ ∃ i, s.Enabled (.sender i) := by
  cases h.phase with
  | untouched h₁ => exact absurd (hlock.symm.trans h₁) (by simp)
  | filling h₁ h₂ =>
    have hpos : 0 < s.senders.countP SenderPc.inClosure := Nat.lt_of_lt_of_eq Nat.one_pos h₂.symm
    obtain ⟨pc, hpc, hclosure⟩ := List.countP_pos_iff.mp hpos
    obtain ⟨front, back, hsenders⟩ := List.append_of_mem hpc
    refine .inr ⟨front.length, ?_⟩
    cases pc with
    | writing value => exact State.enabled_sender hsenders rfl
    | completing value => exact State.enabled_sender hsenders rfl
    | _ => exact absurd hclosure (by simp [SenderPc.inClosure])
  | emptying h₁ h₂ h₃ fn h₄ =>
    refine .inl (State.enabled_receiver (m := ⟨.counting fn none,
      { s.inner with lock := .complete }, false⟩) ?_)
    rw [h₄]
    rfl
  | full h₁ => exact absurd (hlock.symm.trans h₁) (by simp)
  | empty h₁ => exact absurd (hlock.symm.trans h₁) (by simp)

/-- **There is no deadlock**: as long as a party is in the middle of a call, one can go on. -/
theorem Reachable.quiet_or_enabled {s : State T} (h : Reachable s) :
    s.Quiet ∨ s.Enabled .receiver ∨ ∃ i, s.Enabled (.sender i) := by
  by_cases hlock : s.inner.lock = .running
  · exact .inr (h.enabled_of_running hlock)
  · rcases exists_receiverMove s.inner s.receiver with hreceiver | hrun | ⟨m, hm⟩
    · by_cases hquiet : ∀ pc ∈ s.senders, pc = .held ∨ ∃ sent, pc = .gone sent
      · exact .inl ⟨hreceiver, hquiet⟩
      · obtain ⟨pc, hpc, hbusy⟩ : ∃ pc ∈ s.senders, ¬ (pc = .held ∨ ∃ sent, pc = .gone sent) := by
          simpa using hquiet
        obtain ⟨front, back, hsenders⟩ := List.append_of_mem hpc
        rcases exists_senderMove s.inner pc with hidle | hrun | ⟨m, hm⟩
        · exact absurd hidle hbusy
        · exact absurd hrun hlock
        · exact .inr (.inr ⟨front.length, State.enabled_sender hsenders hm⟩)
    · exact absurd hrun hlock
    · exact .inr (.inl (State.enabled_receiver hm))

/-! ## What becomes of the values -/

/-- What the receiver knows it has taken is what was accepted. -/
theorem Reachable.outcome_cases {s : State T} (h : Reachable s) {fn : End} {got : Option T}
    (houtcome : s.receiver.outcome = some (fn, got)) :
    (∃ v, got = some v ∧ s.accepted = [v] ∧ s.taken = [(fn, v)]) ∨
      (got = none ∧ s.accepted = [] ∧ s.taken = []) := by
  have hopen : s.receiver.isOpen = false := ReceiverPc.isOpen_eq_false houtcome
  cases h.phase with
  | untouched h₁ h₂ h₃ h₄ => exact absurd (hopen.symm.trans h₄) (by simp)
  | filling h₁ h₂ h₃ h₄ => exact absurd (hopen.symm.trans h₄) (by simp)
  | emptying h₁ h₂ h₃ fn' h₄ =>
    rw [h₄] at houtcome
    exact absurd houtcome (by simp [ReceiverPc.outcome])
  | full h₁ h₂ v h₃ h₄ h₅ =>
    rcases h₅ with ⟨hcases, -⟩ | ⟨fn', houtcome', htaken⟩
    · rcases hcases with hcases | ⟨fn', hcases⟩
      · exact absurd (hopen.symm.trans hcases) (by simp)
      · rw [hcases] at houtcome
        exact absurd houtcome (by simp [ReceiverPc.outcome])
    · obtain ⟨rfl, rfl⟩ := Prod.mk.inj (Option.some.inj (houtcome.symm.trans houtcome'))
      exact .inl ⟨v, rfl, h₃, htaken⟩
  | empty h₁ h₂ h₃ fn' h₄ h₅ =>
    obtain ⟨rfl, rfl⟩ := Prod.mk.inj (Option.some.inj (houtcome.symm.trans h₄))
    exact .inr ⟨rfl, h₃, h₅⟩

theorem Reachable.accepted_le_one {s : State T} (h : Reachable s) : s.accepted.length ≤ 1 := by
  cases h.phase with
  | untouched h₁ h₂ h₃ => exact Nat.le_succ_of_le (Nat.le_of_eq (congrArg List.length h₃))
  | filling h₁ h₂ h₃ => exact Nat.le_succ_of_le (Nat.le_of_eq (congrArg List.length h₃))
  | emptying h₁ h₂ h₃ => exact Nat.le_succ_of_le (Nat.le_of_eq (congrArg List.length h₃))
  | full h₁ h₂ v h₃ => exact Nat.le_of_eq (congrArg List.length h₃)
  | empty h₁ h₂ h₃ => exact Nat.le_succ_of_le (Nat.le_of_eq (congrArg List.length h₃))

theorem Reachable.taken_eq_nil {s : State T} (h : Reachable s)
    (houtcome : s.receiver.outcome = none) : s.taken = [] := by
  cases h.phase with
  | untouched h₁ h₂ h₃ h₄ h₅ => exact h₅
  | filling h₁ h₂ h₃ h₄ h₅ => exact h₅
  | emptying h₁ h₂ h₃ fn h₄ h₅ => exact h₅
  | full h₁ h₂ v h₃ h₄ h₅ =>
    rcases h₅ with ⟨-, htaken⟩ | ⟨fn, hsome, -⟩
    · exact htaken
    · exact absurd (houtcome.symm.trans hsome) (by simp)
  | empty h₁ h₂ h₃ fn h₄ h₅ => exact h₅

/-- **The delivery.**  In every state that can be reached at most one call of `send` has returned
`Ok`, and the others returned their own values; `recv_now` has returned a value exactly if the
`send` of that value returns `Ok`; a receiver that is gone has read or destroyed the accepted value,
and only that, exactly once; a receiver that has not yet come to it has taken nothing; and there is
no deadlock. -/
theorem delivery {s : State T} (h : Reachable s) :
    s.accepted.length ≤ 1 ∧
      (∀ c ∈ s.sent, c.result = .ok () ∨ c.result = .error c.arg) ∧
      (∀ got, s.receiver = .gone .recvNow got →
        ∀ v, got = some v ↔ ∃ c ∈ s.sent, c.arg = v ∧ c.result = .ok ()) ∧
      (∀ fn got, s.receiver = .gone fn got → s.taken = s.accepted.map fun v => (fn, v)) ∧
      (s.receiver.outcome = none → s.taken = []) ∧
      (s.Quiet ∨ s.Enabled .receiver ∨ ∃ i, s.Enabled (.sender i)) := by
  have hown : ∀ c ∈ s.sent, c.result = .ok () ∨ c.result = .error c.arg := by
    intro c hc
    obtain ⟨pc, hpc, hsent⟩ := List.mem_filterMap.mp hc
    exact h.allOwn pc hpc c hsent
  refine ⟨h.accepted_le_one, hown, ?_, ?_, h.taken_eq_nil, h.quiet_or_enabled⟩
  · intro got hgone v
    rw [← State.mem_accepted_iff]
    rcases h.outcome_cases (by rw [hgone]; rfl) with ⟨w, rfl, haccepted, -⟩ | ⟨rfl, haccepted, -⟩
    · rw [haccepted, List.mem_singleton, Option.some.injEq]
      exact eq_comm
    · rw [haccepted]
      simp
  · intro fn got hgone
    rcases h.outcome_cases (by rw [hgone]; rfl) with ⟨w, -, haccepted, htaken⟩ |
      ⟨-, haccepted, htaken⟩
    · rw [haccepted, htaken]
      rfl
    · rw [haccepted, htaken]
      rfl

/-- Two senders send 1 and 2, one after the other, and the receiver receives 1. -/
def twoSends : List (Action ℕ) :=
  [.clone 0, .send 0 1, .sender 0, .sender 0, .sender 0, .sender 0, .send 1 2, .sender 1, .sender 1,
    .recvNow, .receiver, .receiver, .receiver, .receiver]

theorem delivery_twoSends : ∃ s : State ℕ, s.receiver = .gone .recvNow (some 1) ∧
    s.accepted = [1] ∧ s.accepted.length ≤ 1 ∧
    ∀ c ∈ s.sent, c.result = .ok () ∨ c.result = .error c.arg := by
  have hrun : ∃ s, twoSends.foldlM step channel = .ok s ∧ s.receiver = .gone .recvNow (some 1) ∧
      s.accepted = [1] := ⟨_, rfl, rfl, rfl⟩
  obtain ⟨s, hs, hreceiver, haccepted⟩ := hrun
  have hreach : Reachable s := Reach.foldlM (.init rfl) hs
  exact ⟨s, hreceiver, haccepted, (delivery hreach).1, (delivery hreach).2.1⟩

end Oneshot

end Vinezombie
