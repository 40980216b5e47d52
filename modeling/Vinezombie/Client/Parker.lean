import Vinezombie.Library.Machine
import Mathlib.Data.List.Basic

/-!
# Parking

`client/handler/channel/parker.rs`: a thread that parks until some other thread unparks it, or until
there is no other one left that could.  One thread parks, with any number of unparkers.

The unparkers share an `AtomicPtr` through an `Arc`, and the parker has a `Weak` of it.  The pointer
is null, or that of a global that says not to park, or leads to the `Thread` that `park` has on its
stack while it is parked.  An action is the next atomic operation of one party: a swap, an exchange
or a store of the pointer, an upgrade of the `Weak`, the release of an `Arc`, or what follows a swap
that found a thread, which goes through the pointer and sets the token of the thread.  Actions may
come in any order.

Two actions are from outside.  `std::thread::park` may return although nobody unparked the thread.
And the token is that of the thread and not of the parker, so that it may have been set before or by
something else: a call of `park` that finds no unparker left does not take the token that one of them
has set (`token_left`).  After either of them a `Thread` may be used after `park` has left the stack
(`misused_spurious`, `misused_elsewhere`).

* `step`: the actions.
* `Inv`: what holds as long as nothing comes from outside.  `Live`: what holds in any case.
* `parking`: no `Thread` is used too late, and no wake-up is lost.
* `settles`: a call of `park` returns, unless it waits for an unparker.
-/

namespace Vinezombie

namespace Parker

open Library.Machine

/-! ## The state -/

/-- The `AtomicPtr`. -/
inductive Ptr where
  /-- No thread is parked. -/
  | null
  /-- `SKIP_PARKING`. -/
  | skip
  /-- The `Thread` of the call of `park` with this number. -/
  | thread (call : ℕ)
  deriving DecidableEq

/-- Where the parker is. -/
inductive Pc where
  /-- Not in `park`. -/
  | idle
  /-- Before `compare_exchange`. -/
  | before
  /-- The pointer leads to the thread, before `Arc::into_inner`. -/
  | armed
  /-- In `std::thread::park`. -/
  | parking
  /-- Before the second `upgrade`, after it parked. -/
  | woken
  /-- Before the second `upgrade`, with the first `Arc`. -/
  | refused
  /-- Before `store`. -/
  | clearing
  /-- Before the end. -/
  | leaving
  deriving DecidableEq

namespace Pc

/-- It has an `Arc`. -/
def holds : Pc → Bool
  | .before | .armed | .refused | .clearing | .leaving => true
  | .idle | .parking | .woken => false

/-- How many operations there are until the end of the call, at most. -/
def rank : Pc → ℕ
  | .idle => 0
  | .leaving => 1
  | .clearing => 2
  | .woken => 3
  | .refused => 3
  | .parking => 4
  | .armed => 5
  | .before => 6

end Pc

/-- An unparker that has found a thread, and is about to use it. -/
structure Waker where
  /-- The call of `park` whose thread it found. -/
  call : ℕ
  /-- It is in `unpark`, and not in `drop`. -/
  borrowed : Bool
  deriving DecidableEq

/-- A parker with its unparkers. -/
structure State where
  /-- The number of unparkers. -/
  handles : ℕ
  /-- The unparkers that have found a thread. -/
  waking : List Waker
  /-- What the unparkers share. -/
  ptr : Ptr
  /-- Where the parker is. -/
  pc : Pc
  /-- The number of calls of `park`. -/
  calls : ℕ
  /-- The token of the thread. -/
  token : Bool
  /-- Somebody unparked since the pointer was cleared. -/
  notified : Bool
  /-- A `Thread` was used after its call of `park` had ended. -/
  misused : Bool
  deriving DecidableEq

/-- `new`, while the token of the thread is not set. -/
def new : State where
  handles := 1
  waking := []
  ptr := .null
  pc := .idle
  calls := 0
  token := false
  notified := false
  misused := false

namespace State

/-- There is an `Arc`. -/
def alive (s : State) : Bool := s.pc.holds || decide (0 < s.handles)

/-- What a look at the pointer finds. -/
def found (s : State) (borrowed : Bool) : List Waker :=
  match s.ptr with
  | .thread call => [⟨call, borrowed⟩]
  | _ => []

/-- Some unparker is not borrowed by a call of `unpark`. -/
def CanDrop (s : State) : Prop := 1 < s.handles ∨ s.handles = 1 ∧ ∀ w ∈ s.waking, w.borrowed = false

instance (s : State) : Decidable s.CanDrop := inferInstanceAs (Decidable (_ ∨ _))

end State

/-! ## Actions -/

/-- The actions of the parties, and what comes from outside. -/
inductive Action where
  /-- An unparker is cloned. -/
  | clone
  /-- `unpark`, up to the swap. -/
  | unpark
  /-- The drop of an unparker, up to `into_inner`. -/
  | drop
  /-- What is left of such a call, if it found a thread. -/
  | wake (i : ℕ)
  /-- A call of `park`, up to the first `upgrade`. -/
  | park
  /-- The next operation of `park`. -/
  | parker
  /-- `std::thread::park` returns without a token. -/
  | spurious
  /-- The token of the thread is set by something else, or was set before. -/
  | elsewhere
  deriving DecidableEq

/-- It is no action of a party. -/
def Action.outside : Action → Bool
  | .spurious | .elsewhere => true
  | .clone | .unpark | .drop | .wake _ | .park | .parker => false

/-- The action is not possible. -/
inductive Blocked where
  | blocked
  deriving DecidableEq

/-- The next operation of `park`, if it is in one and does not have to wait. -/
def parkerStep (s : State) : Option State :=
  match s.pc with
  | .idle => none
  | .before =>
    if s.ptr = .null then some { s with ptr := .thread s.calls, pc := .armed }
    else some { s with pc := .refused }
  | .armed => some { s with pc := if s.handles = 0 then .idle else .parking }
  | .parking => if s.token then some { s with token := false, pc := .woken } else none
  | .woken => some { s with pc := if s.handles = 0 then .idle else .clearing }
  | .refused => some { s with pc := .clearing }
  | .clearing => some { s with ptr := .null, notified := false, pc := .leaving }
  | .leaving => some { s with pc := .idle }

/-- An action, if it is possible. -/
def step (s : State) : Action → Except Blocked State
  | .clone =>
    if 0 < s.handles then .ok { s with handles := s.handles + 1 } else .error .blocked
  | .unpark =>
    if 0 < s.handles then
      .ok { s with ptr := .skip, notified := true, waking := s.waking ++ s.found true }
    else .error .blocked
  | .drop =>
    if s.CanDrop then
      -- `Arc::into_inner` finds out whether it has been the last one
      let s := { s with handles := s.handles - 1 }
      .ok (if s.alive then s else { s with waking := s.waking ++ s.found false })
    else .error .blocked
  | .wake i =>
    match s.waking[i]? with
    | some w =>
      .ok { s with
        waking := s.waking.eraseIdx i
        token := true
        misused := s.misused || !(decide (w.call = s.calls) && decide (s.pc ≠ .idle)) }
    | none => .error .blocked
  | .park =>
    match s.pc with
    | .idle => .ok (if s.alive then { s with calls := s.calls + 1, pc := .before } else s)
    | _ => .error .blocked
  | .parker =>
    match parkerStep s with
    | some s => .ok s
    | none => .error .blocked
  | .spurious =>
    match s.pc with
    | .parking => .ok { s with pc := .woken }
    | _ => .error .blocked
  | .elsewhere => .ok { s with token := true }

/-- The states that a parker and its unparkers can be in, if nothing comes from outside. -/
def Reachable (s : State) : Prop :=
  ∃ as : List Action, (∀ a ∈ as, a.outside = false) ∧ as.foldlM step new = .ok s

/-! ## The invariant -/

/-- While the pointer may lead to the thread. -/
inductive Armed (s : State) : Prop
  /-- It does. -/
  | waiting : s.ptr = .thread s.calls → s.waking = [] → s.token = false →
    (s.pc = .parking → 0 < s.handles) → Armed s
  /-- An unparker has found the thread. -/
  | unparked : s.ptr = .skip → s.waking = [⟨s.calls, true⟩] → s.token = false → 0 < s.handles →
    Armed s
  /-- The last unparker has found it. -/
  | dropped : s.handles = 0 → s.pc = .parking → s.waking = [⟨s.calls, false⟩] → s.token = false →
    Armed s
  /-- The thread has its token. -/
  | awake : (s.ptr = .skip ∨ s.handles = 0 ∧ s.pc = .parking) → s.waking = [] → s.token = true →
    Armed s

/-- While it does not. -/
def Calm (s : State) : Prop :=
  s.waking = [] ∧ (s.alive = false ∨ s.token = false ∧ ∀ call, s.ptr ≠ .thread call)

/-- By where the parker is. -/
def Phase (s : State) : Prop :=
  match s.pc with
  | .armed | .parking => Armed s
  | _ => Calm s

/-- What holds as long as nothing comes from outside. -/
structure Inv (s : State) : Prop where
  misused : s.misused = false
  notified : s.notified = true ↔ s.ptr = .skip
  phase : Phase s

theorem inv_new : Inv new where
  misused := rfl
  notified := by decide
  phase := ⟨rfl, .inr ⟨rfl, by simp [new]⟩⟩

section Actions

variable {s s' : State}

/-- The phase, when it does not matter which one. -/
theorem Inv.cases (h : Inv s) :
    (s.pc = .armed ∨ s.pc = .parking) ∧ Armed s ∨
      (s.pc ≠ .armed ∧ s.pc ≠ .parking) ∧ Calm s := by
  have hphase := h.phase
  unfold Phase at hphase
  split at hphase
  · rename_i hpc
    exact .inl ⟨.inl hpc, hphase⟩
  · rename_i hpc
    exact .inl ⟨.inr hpc, hphase⟩
  · rename_i hne hne'
    exact .inr ⟨⟨hne, hne'⟩, hphase⟩

theorem phase_armed (hpc : s.pc = .armed ∨ s.pc = .parking) (h : Armed s) : Phase s := by
  unfold Phase
  rcases hpc with hpc | hpc
  · rw [hpc]
    exact h
  · rw [hpc]
    exact h

theorem phase_calm (hpc : s.pc ≠ .armed ∧ s.pc ≠ .parking) (h : Calm s) : Phase s := by
  unfold Phase
  split
  · exact absurd ‹_› hpc.1
  · exact absurd ‹_› hpc.2
  · exact h

theorem Inv.clone (h : Inv s) (hpos : 0 < s.handles) : Inv { s with handles := s.handles + 1 } := by
  refine ⟨h.misused, h.notified, ?_⟩
  rcases h.cases with ⟨hpc, harmed⟩ | ⟨hpc, hwaking, hcalm⟩
  · refine phase_armed hpc ?_
    cases harmed with
    | waiting hptr hwaking htoken _ => exact .waiting hptr hwaking htoken fun _ => Nat.succ_pos _
    | unparked hptr hwaking htoken _ => exact .unparked hptr hwaking htoken (Nat.succ_pos _)
    | dropped hnone _ _ _ => omega
    | awake hptr hwaking htoken =>
      exact .awake (hptr.imp_right fun hnone => by omega) hwaking htoken
  · refine phase_calm hpc ⟨hwaking, hcalm.imp_left fun halive => ?_⟩
    unfold State.alive at halive
    simp [hpos] at halive

theorem Inv.unpark (h : Inv s) (hpos : 0 < s.handles) :
    Inv { s with ptr := .skip, notified := true, waking := s.waking ++ s.found true } := by
  refine ⟨h.misused, by simp, ?_⟩
  rcases h.cases with ⟨hpc, harmed⟩ | ⟨hpc, hwaking, hcalm⟩
  · refine phase_armed hpc ?_
    cases harmed with
    | waiting hptr hwaking htoken _ =>
      exact .unparked rfl (by simp [State.found, hptr, hwaking]) htoken hpos
    | unparked hptr hwaking htoken _ =>
      exact .unparked rfl (by simp [State.found, hptr, hwaking]) htoken hpos
    | dropped hnone _ _ _ => omega
    | awake hptr hwaking htoken =>
      refine .awake (.inl rfl) ?_ htoken
      rcases hptr with hptr | ⟨hnone, -⟩
      · simp [State.found, hptr, hwaking]
      · omega
  · refine phase_calm hpc ?_
    rcases hcalm with halive | ⟨htoken, hptr⟩
    · unfold State.alive at halive
      simp [hpos] at halive
    · refine ⟨?_, .inr ⟨htoken, by simp⟩⟩
      show s.waking ++ s.found true = []
      rw [hwaking, List.nil_append]
      unfold State.found
      split
      · exact absurd ‹_› (hptr _)
      · rfl

theorem State.found_of_ne {borrowed : Bool} (h : ∀ call, s.ptr ≠ .thread call) :
    s.found borrowed = [] := by
  unfold State.found
  split
  · exact absurd ‹_› (h _)
  · rfl

theorem State.CanDrop.pos (h : s.CanDrop) : 0 < s.handles := by
  rcases h with h | ⟨h, -⟩
  · omega
  · omega

/-- An unparker is dropped while there are others, or while the parker has an `Arc`. -/
theorem Inv.drop_alive (h : Inv s) (hdrop : s.CanDrop)
    (halive : State.alive { s with handles := s.handles - 1 } = true) :
    Inv { s with handles := s.handles - 1 } := by
  have hpos := hdrop.pos
  refine ⟨h.misused, h.notified, ?_⟩
  rcases h.cases with ⟨hpc, harmed⟩ | ⟨hpc, hwaking, hcalm⟩
  · refine phase_armed hpc ?_
    cases harmed with
    | waiting hptr hwaking htoken _ =>
      refine .waiting hptr hwaking htoken fun hparking => ?_
      have hparking : s.pc = .parking := hparking
      simpa [State.alive, hparking, Pc.holds] using halive
    | unparked hptr hwaking htoken _ =>
      refine .unparked hptr hwaking htoken ?_
      rcases hdrop with hdrop | ⟨-, hdrop⟩
      · exact Nat.sub_pos_of_lt hdrop
      · exact absurd (hdrop _ (hwaking ▸ List.mem_singleton_self _)) (by simp)
    | dropped hnone _ _ _ => omega
    | awake hptr hwaking htoken =>
      exact .awake (hptr.imp_right fun hnone => by omega) hwaking htoken
  · refine phase_calm hpc ⟨hwaking, .inr ?_⟩
    rcases hcalm with hdead | hcalm
    · simp [State.alive, hpos] at hdead
    · exact hcalm

/-- The last unparker is dropped, which frees what the parties share. -/
theorem Inv.drop_last (h : Inv s) (hdrop : s.CanDrop)
    (hdead : State.alive { s with handles := s.handles - 1 } = false) :
    Inv { s with handles := s.handles - 1, waking := s.waking ++ s.found false } := by
  have hpos := hdrop.pos
  obtain ⟨hholds, hnone⟩ : s.pc.holds = false ∧ s.handles - 1 = 0 := by
    have hor : (s.pc.holds || decide (0 < s.handles - 1)) = false := hdead
    rw [Bool.or_eq_false_iff, decide_eq_false_iff_not] at hor
    exact ⟨hor.1, Nat.eq_zero_of_not_pos hor.2⟩
  refine ⟨h.misused, h.notified, ?_⟩
  rcases h.cases with ⟨hpc, harmed⟩ | ⟨hpc, hwaking, hcalm⟩
  · have hparking : s.pc = .parking := by
      rcases hpc with hpc | hpc
      · rw [hpc] at hholds
        cases hholds
      · exact hpc
    refine phase_armed hpc ?_
    cases harmed with
    | waiting hptr hwaking htoken _ =>
      exact .dropped hnone hparking (by simp [State.found, hptr, hwaking]) htoken
    | unparked hptr hwaking htoken _ =>
      rcases hdrop with hdrop | ⟨-, hdrop⟩
      · omega
      · exact absurd (hdrop _ (hwaking ▸ List.mem_singleton_self _)) (by simp)
    | dropped hzero _ _ _ => omega
    | awake hptr hwaking htoken =>
      rcases hptr with hptr | ⟨hzero, -⟩
      · exact .awake (.inl hptr) (by simp [State.found, hptr, hwaking]) htoken
      · omega
  · refine phase_calm hpc ⟨?_, .inl hdead⟩
    rcases hcalm with hdead' | ⟨-, hptr⟩
    · simp [State.alive, hpos] at hdead'
    · simp [hwaking, State.found_of_ne hptr]

theorem Inv.drop (h : Inv s) (hs' : step s .drop = .ok s') : Inv s' := by
  simp only [Parker.step] at hs'
  split at hs'
  · rename_i hdrop
    obtain rfl := Except.ok.inj hs'
    split
    · exact h.drop_alive hdrop ‹_›
    · exact h.drop_last hdrop (Bool.eq_false_iff.mpr ‹_›)
  · cases hs'

/-- **A wake finds the thread in the call that it was found in.** -/
theorem Inv.wake (h : Inv s) {i : ℕ} (hs' : step s (.wake i) = .ok s') : Inv s' := by
  have hone : ∀ {w : Waker} {borrowed : Bool}, s.waking = [⟨s.calls, borrowed⟩] →
      s.waking[i]? = some w → w.call = s.calls ∧ s.waking.eraseIdx i = [] := by
    intro w borrowed hwaking hi
    rw [hwaking] at hi ⊢
    cases i with
    | zero =>
      obtain rfl := Option.some.inj hi
      exact ⟨rfl, rfl⟩
    | succ i => simp at hi
  simp only [Parker.step] at hs'
  cases hi : s.waking[i]? with
  | none =>
    rw [hi] at hs'
    cases hs'
  | some w =>
    rw [hi] at hs'
    obtain rfl := Except.ok.inj hs'
    rcases h.cases with ⟨hpc, harmed⟩ | ⟨-, hwaking, -⟩
    · have hin : s.pc ≠ .idle := by
        rcases hpc with hpc | hpc
        · simp [hpc]
        · simp [hpc]
      cases harmed with
      | waiting _ hwaking _ _ => simp [hwaking] at hi
      | unparked hptr hwaking htoken hpos =>
        obtain ⟨hcall, herase⟩ := hone hwaking hi
        exact ⟨by simp [h.misused, hcall, hin], h.notified,
          phase_armed hpc (.awake (.inl hptr) herase rfl)⟩
      | dropped hnone hparking hwaking htoken =>
        obtain ⟨hcall, herase⟩ := hone hwaking hi
        exact ⟨by simp [h.misused, hcall, hin], h.notified,
          phase_armed hpc (.awake (.inr ⟨hnone, hparking⟩) herase rfl)⟩
      | awake _ hwaking _ => simp [hwaking] at hi
    · simp [hwaking] at hi

theorem Inv.park (h : Inv s) (hs' : step s .park = .ok s') : Inv s' := by
  simp only [Parker.step] at hs'
  cases hpc : s.pc with
  | idle =>
    rw [hpc] at hs'
    obtain rfl := Except.ok.inj hs'
    split
    · rename_i halive
      rcases h.cases with ⟨hpc', -⟩ | ⟨-, hwaking, hcalm⟩
      · rw [hpc] at hpc'
        rcases hpc' with hpc' | hpc'
        · cases hpc'
        · cases hpc'
      · refine ⟨h.misused, h.notified, hwaking, .inr ?_⟩
        rcases hcalm with hdead | hcalm
        · rw [hdead] at halive
          cases halive
        · exact hcalm
    · exact h
  | before | armed | parking | woken | refused | clearing | leaving =>
    rw [hpc] at hs'
    cases hs'

theorem Inv.parker (h : Inv s) (hs' : parkerStep s = some s') : Inv s' := by
  have hphase := h.phase
  unfold parkerStep at hs'
  unfold Phase at hphase
  cases hpc : s.pc with
  | idle =>
    rw [hpc] at hs'
    cases hs'
  | before =>
    simp only [hpc] at hs' hphase
    obtain ⟨hwaking, hcalm⟩ := hphase
    have hcalm : s.token = false ∧ ∀ call, s.ptr ≠ .thread call := by
      rcases hcalm with hdead | hcalm
      · simp [State.alive, hpc, Pc.holds] at hdead
      · exact hcalm
    split at hs'
    · rename_i hnull
      obtain rfl := Option.some.inj hs'
      refine ⟨h.misused, ?_, .waiting rfl hwaking hcalm.1 (by simp)⟩
      rw [h.notified, hnull]
      simp
    · obtain rfl := Option.some.inj hs'
      exact ⟨h.misused, h.notified, hwaking, .inr hcalm⟩
  | armed =>
    simp only [hpc] at hs' hphase
    obtain rfl := Option.some.inj hs'
    by_cases hnone : s.handles = 0
    · -- no unparker is left, so that none has found the thread
      have hwaking : s.waking = [] := by
        cases hphase with
        | waiting _ hwaking _ _ => exact hwaking
        | unparked _ _ _ hpos => omega
        | dropped _ hparking _ _ => rw [hpc] at hparking; cases hparking
        | awake _ hwaking _ => exact hwaking
      refine ⟨h.misused, h.notified, ?_⟩
      rw [if_pos hnone]
      exact ⟨hwaking, .inl (by simp [State.alive, Pc.holds, hnone])⟩
    · refine ⟨h.misused, h.notified, ?_⟩
      rw [if_neg hnone]
      refine phase_armed (.inr rfl) ?_
      cases hphase with
      | waiting hptr hwaking htoken _ =>
        exact .waiting hptr hwaking htoken fun _ => Nat.pos_of_ne_zero hnone
      | unparked hptr hwaking htoken hpos => exact .unparked hptr hwaking htoken hpos
      | dropped hzero _ _ _ => exact absurd hzero hnone
      | awake hptr hwaking htoken =>
        exact .awake (hptr.imp_right fun hzero => absurd hzero.1 hnone) hwaking htoken
  | parking =>
    simp only [hpc] at hs' hphase
    split at hs'
    · rename_i htoken
      obtain rfl := Option.some.inj hs'
      refine ⟨h.misused, h.notified, ?_⟩
      cases hphase with
      | waiting _ _ hno _ => rw [htoken] at hno; cases hno
      | unparked _ _ hno _ => rw [htoken] at hno; cases hno
      | dropped _ _ _ hno => rw [htoken] at hno; cases hno
      | awake hptr hwaking _ =>
        refine ⟨hwaking, ?_⟩
        rcases hptr with hptr | ⟨hnone, -⟩
        · exact .inr ⟨rfl, by simp [hptr]⟩
        · exact .inl (by simp [State.alive, Pc.holds, hnone])
    · cases hs'
  | woken =>
    simp only [hpc] at hs' hphase
    obtain rfl := Option.some.inj hs'
    refine ⟨h.misused, h.notified, ?_⟩
    by_cases hnone : s.handles = 0
    · rw [if_pos hnone]
      exact ⟨hphase.1, .inl (by simp [State.alive, Pc.holds, hnone])⟩
    · rw [if_neg hnone]
      refine ⟨hphase.1, .inr ?_⟩
      rcases hphase.2 with hdead | hcalm
      · simp [State.alive, hpc, Pc.holds, hnone] at hdead
      · exact hcalm
  | refused =>
    simp only [hpc] at hs' hphase
    obtain rfl := Option.some.inj hs'
    refine ⟨h.misused, h.notified, hphase.1, .inr ?_⟩
    rcases hphase.2 with hdead | hcalm
    · simp [State.alive, hpc, Pc.holds] at hdead
    · exact hcalm
  | clearing =>
    simp only [hpc] at hs' hphase
    obtain rfl := Option.some.inj hs'
    refine ⟨h.misused, by simp, hphase.1, .inr ?_⟩
    rcases hphase.2 with hdead | hcalm
    · simp [State.alive, hpc, Pc.holds] at hdead
    · exact ⟨hcalm.1, by simp⟩
  | leaving =>
    simp only [hpc] at hs' hphase
    obtain rfl := Option.some.inj hs'
    refine ⟨h.misused, h.notified, hphase.1, .inr ?_⟩
    rcases hphase.2 with hdead | hcalm
    · simp [State.alive, hpc, Pc.holds] at hdead
    · exact hcalm

/-- **What every action of a party keeps.** -/
theorem Inv.after (h : Inv s) {a : Action} (ha : a.outside = false) (hs' : step s a = .ok s') :
    Inv s' := by
  cases a with
  | clone =>
    simp only [Parker.step] at hs'
    split at hs'
    · obtain rfl := Except.ok.inj hs'
      exact h.clone ‹_›
    · cases hs'
  | unpark =>
    simp only [Parker.step] at hs'
    split at hs'
    · obtain rfl := Except.ok.inj hs'
      exact h.unpark ‹_›
    · cases hs'
  | drop => exact h.drop hs'
  | wake i => exact h.wake hs'
  | park => exact h.park hs'
  | parker =>
    simp only [Parker.step] at hs'
    split at hs'
    · rename_i hmove
      obtain rfl := Except.ok.inj hs'
      exact h.parker hmove
    · cases hs'
  | spurious | elsewhere => cases ha

end Actions

theorem Inv.foldlM {as : List Action} {s s' : State} (h : Inv s)
    (has : ∀ a ∈ as, a.outside = false)
    (hs' : as.foldlM Parker.step s = .ok s') : Inv s' := by
  induction as generalizing s with
  | nil =>
    rw [← Except.ok.inj hs']
    exact h
  | cons a as ih =>
    obtain ⟨s₁, hs, hrest⟩ := foldlM_cons_ok hs'
    exact ih (h.after (has a List.mem_cons_self) hs)
      (fun b hb => has b (List.mem_cons_of_mem _ hb)) hrest

theorem Reachable.inv {s : State} (h : Reachable s) : Inv s := by
  obtain ⟨as, has, hs⟩ := h
  exact inv_new.foldlM has hs

/-! ## Parking -/

/-- **Parking.**  As long as nothing comes from outside, no `Thread` is used after its call of
`park` has ended.  And no wake-up is lost: while the parker is in `std::thread::park`, its token is
set, or an unparker is about to set it, or nobody has unparked since the last call and there is
still an unparker that will find the thread. -/
theorem parking {s : State} (h : Reachable s) :
    s.misused = false ∧
      (s.pc = .parking → s.token = true ∨ (∃ w ∈ s.waking, w.call = s.calls) ∨
        s.notified = false ∧ 0 < s.handles ∧ s.ptr = .thread s.calls) := by
  have hinv := h.inv
  refine ⟨hinv.misused, fun hpc => ?_⟩
  have hphase := hinv.phase
  unfold Phase at hphase
  rw [hpc] at hphase
  cases hphase with
  | waiting hptr _ _ hpos =>
    refine .inr (.inr ⟨?_, hpos hpc, hptr⟩)
    have hnot : ¬ s.notified = true := by
      rw [hinv.notified, hptr]
      simp
    simpa using hnot
  | unparked _ hwaking _ _ => exact .inr (.inl ⟨_, hwaking ▸ List.mem_singleton_self _, rfl⟩)
  | dropped _ _ hwaking _ => exact .inr (.inl ⟨_, hwaking ▸ List.mem_singleton_self _, rfl⟩)
  | awake _ _ htoken => exact .inl htoken

/-- An unparker finds the thread that parks. -/
def oneUnpark : List Action := [.park, .parker, .parker, .unpark]

/-- The unparker is about to set the token. -/
theorem parking_oneUnpark : ∃ s, oneUnpark.foldlM step new = .ok s ∧ s.pc = .parking ∧
    s.misused = false ∧
    (s.token = true ∨ (∃ w ∈ s.waking, w.call = s.calls) ∨
      s.notified = false ∧ 0 < s.handles ∧ s.ptr = .thread s.calls) := by
  obtain ⟨s, hs, hpc⟩ : ∃ s, oneUnpark.foldlM step new = .ok s ∧ s.pc = .parking := ⟨_, rfl, rfl⟩
  have hpark := parking ⟨oneUnpark, by decide, hs⟩
  exact ⟨s, hs, hpc, hpark.1, hpark.2 hpc⟩

/-! ## What holds in any case -/

/-- The parker hears of an unpark, whatever comes from outside. -/
structure Live (s : State) : Prop where
  notified : s.notified = true ↔ s.ptr = .skip
  hears : s.pc = .armed ∨ s.pc = .parking → s.token = true ∨ s.waking ≠ [] ∨
    s.ptr = .thread s.calls ∧ (s.pc = .parking → 0 < s.handles)

theorem live_new : Live new where
  notified := by decide
  hears := by simp [new]

section Live

variable {s s' : State}

theorem Live.parker (h : Live s) (hs' : parkerStep s = some s') : Live s' := by
  unfold parkerStep at hs'
  cases hpc : s.pc with
  | idle =>
    rw [hpc] at hs'
    cases hs'
  | before =>
    simp only [hpc] at hs'
    split at hs'
    · rename_i hnull
      obtain rfl := Option.some.inj hs'
      refine ⟨?_, fun _ => .inr (.inr ⟨rfl, by simp⟩)⟩
      rw [h.notified, hnull]
      simp
    · obtain rfl := Option.some.inj hs'
      exact ⟨h.notified, by simp⟩
  | armed =>
    simp only [hpc] at hs'
    obtain rfl := Option.some.inj hs'
    by_cases hnone : s.handles = 0
    · exact ⟨h.notified, by simp [hnone]⟩
    · refine ⟨h.notified, fun _ => ?_⟩
      rcases h.hears (.inl hpc) with htoken | hwaking | ⟨hptr, -⟩
      · exact .inl htoken
      · exact .inr (.inl hwaking)
      · exact .inr (.inr ⟨hptr, fun _ => Nat.pos_of_ne_zero hnone⟩)
  | parking =>
    simp only [hpc] at hs'
    split at hs'
    · obtain rfl := Option.some.inj hs'
      exact ⟨h.notified, by simp⟩
    · cases hs'
  | woken =>
    simp only [hpc] at hs'
    obtain rfl := Option.some.inj hs'
    refine ⟨h.notified, ?_⟩
    by_cases hnone : s.handles = 0
    · simp [hnone]
    · simp [hnone]
  | refused | leaving =>
    simp only [hpc] at hs'
    obtain rfl := Option.some.inj hs'
    exact ⟨h.notified, by simp⟩
  | clearing =>
    simp only [hpc] at hs'
    obtain rfl := Option.some.inj hs'
    exact ⟨by simp, by simp⟩

/-- A look at the pointer of a thread that waits finds it. -/
theorem Live.found (h : Live s) (hpc : s.pc = .armed ∨ s.pc = .parking) (borrowed : Bool) :
    s.token = true ∨ s.waking ++ s.found borrowed ≠ [] := by
  rcases h.hears hpc with htoken | hwaking | ⟨hptr, -⟩
  · exact .inl htoken
  · exact .inr fun hnil => hwaking (List.append_eq_nil_iff.mp hnil).1
  · refine .inr ?_
    simp [State.found, hptr]

theorem Live.drop (h : Live s) (hs' : step s .drop = .ok s') : Live s' := by
  simp only [Parker.step] at hs'
  split at hs'
  · obtain rfl := Except.ok.inj hs'
    split
    · rename_i halive
      refine ⟨h.notified, fun hpc => ?_⟩
      rcases h.hears hpc with htoken | hwaking | ⟨hptr, -⟩
      · exact .inl htoken
      · exact .inr (.inl hwaking)
      · refine .inr (.inr ⟨hptr, fun hparking => ?_⟩)
        have hparking : s.pc = .parking := hparking
        simpa [State.alive, hparking, Pc.holds] using halive
    · exact ⟨h.notified, fun hpc => (h.found hpc false).imp_right .inl⟩
  · cases hs'

/-- **What every action keeps.** -/
theorem Live.after (h : Live s) {a : Action} (hs' : step s a = .ok s') : Live s' := by
  cases a with
  | clone =>
    simp only [Parker.step] at hs'
    split at hs'
    · obtain rfl := Except.ok.inj hs'
      exact ⟨h.notified, fun hpc => (h.hears hpc).imp_right
        (Or.imp_right fun hptr => ⟨hptr.1, fun _ => Nat.succ_pos _⟩)⟩
    · cases hs'
  | unpark =>
    simp only [Parker.step] at hs'
    split at hs'
    · obtain rfl := Except.ok.inj hs'
      exact ⟨by simp, fun hpc => (h.found hpc true).imp_right .inl⟩
    · cases hs'
  | drop => exact h.drop hs'
  | wake i =>
    simp only [Parker.step] at hs'
    split at hs'
    · obtain rfl := Except.ok.inj hs'
      exact ⟨h.notified, fun _ => .inl rfl⟩
    · cases hs'
  | park =>
    simp only [Parker.step] at hs'
    split at hs'
    · obtain rfl := Except.ok.inj hs'
      split
      · exact ⟨h.notified, by simp⟩
      · exact h
    · cases hs'
  | parker =>
    simp only [Parker.step] at hs'
    split at hs'
    · rename_i hmove
      obtain rfl := Except.ok.inj hs'
      exact h.parker hmove
    · cases hs'
  | spurious =>
    simp only [Parker.step] at hs'
    split at hs'
    · obtain rfl := Except.ok.inj hs'
      exact ⟨h.notified, by simp⟩
    · cases hs'
  | elsewhere =>
    simp only [Parker.step] at hs'
    obtain rfl := Except.ok.inj hs'
    exact ⟨h.notified, fun _ => .inl rfl⟩

end Live

theorem live_of_reach {s : State} (h : Reach (fun s => s = new) step s) : Live s := by
  refine Reach.invariant Live ?_ (fun _ _ _ hs hstep => hs.after hstep) h
  rintro s rfl
  exact live_new

/-! ## Returning -/

/-- What belongs to a call of `park` that is going on: its own operations, and the wakes that are
under way. -/
def Settling : Action → Bool
  | .parker => true
  | .wake _ => true
  | _ => false

/-- How many such actions there can be. -/
def State.remaining (s : State) : ℕ := s.pc.rank + s.waking.length

theorem rank_parkerStep {s s' : State} (h : parkerStep s = some s') :
    s'.pc.rank < s.pc.rank ∧ s'.waking = s.waking := by
  unfold parkerStep at h
  cases hpc : s.pc with
  | idle =>
    rw [hpc] at h
    cases h
  | before =>
    simp only [hpc] at h
    split at h
    · obtain rfl := Option.some.inj h
      exact ⟨by simp [Pc.rank], rfl⟩
    · obtain rfl := Option.some.inj h
      exact ⟨by simp [Pc.rank], rfl⟩
  | armed | woken =>
    simp only [hpc] at h
    obtain rfl := Option.some.inj h
    refine ⟨?_, rfl⟩
    by_cases hnone : s.handles = 0
    · simp [hnone, Pc.rank]
    · simp [hnone, Pc.rank]
  | parking =>
    simp only [hpc] at h
    split at h
    · obtain rfl := Option.some.inj h
      exact ⟨by simp [Pc.rank], rfl⟩
    · cases h
  | refused | clearing | leaving =>
    simp only [hpc] at h
    obtain rfl := Option.some.inj h
    exact ⟨by simp [Pc.rank], rfl⟩

theorem remaining_lt {s s' : State} {a : Action} (ha : Settling a = true)
    (h : step s a = .ok s') : s'.remaining < s.remaining := by
  cases a with
  | parker =>
    simp only [step] at h
    split at h
    · rename_i hmove
      obtain rfl := Except.ok.inj h
      obtain ⟨hrank, hwaking⟩ := rank_parkerStep hmove
      unfold State.remaining
      rw [hwaking]
      omega
    · cases h
  | wake i =>
    simp only [step] at h
    split at h
    · rename_i hi
      obtain rfl := Except.ok.inj h
      obtain ⟨hlt, -⟩ := List.getElem?_eq_some_iff.mp hi
      simp only [State.remaining, List.length_eraseIdx, if_pos hlt]
      omega
    · cases h
  | clone | unpark | drop | park | spurious | elsewhere => cases ha

/-- The parker waits for an unparker: none has unparked it, and some could. -/
def State.Waits (s : State) : Prop :=
  s.pc = .parking ∧ s.ptr = .thread s.calls ∧ s.notified = false ∧ s.token = false ∧
    s.waking = [] ∧ 0 < s.handles

/-- A call of `park` that is going on can go on, or waits. -/
theorem Live.enabled {s : State} (h : Live s) (hpc : s.pc ≠ .idle) :
    (∃ a s', Settling a = true ∧ step s a = .ok s') ∨ s.Waits := by
  have hmove (hsome : (parkerStep s).isSome) :
      (∃ a s', Settling a = true ∧ step s a = .ok s') ∨ s.Waits := by
    obtain ⟨s', hs'⟩ := Option.isSome_iff_exists.mp hsome
    exact .inl ⟨.parker, s', rfl, by simp only [step, hs']⟩
  cases hpc' : s.pc with
  | idle => exact absurd hpc' hpc
  | before =>
    by_cases hnull : s.ptr = .null
    · exact hmove (by simp [parkerStep, hpc', hnull])
    · exact hmove (by simp [parkerStep, hpc', hnull])
  | armed | woken | refused | clearing | leaving => exact hmove (by simp [parkerStep, hpc'])
  | parking =>
    by_cases htoken : s.token = true
    · exact hmove (by simp [parkerStep, hpc', htoken])
    · by_cases hwaking : s.waking = []
      · rcases h.hears (.inr hpc') with htoken' | hwaking' | ⟨hptr, hpos⟩
        · exact absurd htoken' htoken
        · exact absurd hwaking hwaking'
        · have hnot : ¬ s.notified = true := by
            rw [h.notified, hptr]
            simp
          exact .inr ⟨hpc', hptr, by simpa using hnot, by simpa using htoken, hwaking, hpos hpc'⟩
      · obtain ⟨w, ws, hcons⟩ := List.exists_cons_of_ne_nil hwaking
        obtain ⟨s', hs'⟩ : ∃ s', step s (.wake 0) = .ok s' := by simp [step, hcons]
        exact .inl ⟨.wake 0, s', rfl, hs'⟩

/-- **A call of `park` returns**, within a number of its own operations and of wakes that are under
way, in any order, unless it comes to wait for an unparker; whatever comes from outside. -/
theorem settles {s : State} (h : Reach (fun s => s = new) step s) :
    (∀ (as : List Action) (s' : State), (∀ a ∈ as, Settling a = true) →
      as.foldlM step s = .ok s' → as.length + s'.remaining ≤ s.remaining) ∧
    ((∀ a s', Settling a = true → step s a ≠ .ok s') → s.pc = .idle ∨ s.Waits) := by
  constructor
  · intro as
    clear h
    induction as generalizing s with
    | nil =>
      intro s' _ hs'
      obtain rfl := Except.ok.inj hs'
      simp
    | cons a as ih =>
      intro s' has hs'
      obtain ⟨s₁, hs, hrest⟩ := foldlM_cons_ok hs'
      have hlt := remaining_lt (has a List.mem_cons_self) hs
      have hle := ih s' (fun b hb => has b (List.mem_cons_of_mem _ hb)) hrest
      rw [List.length_cons]
      omega
  · intro hstuck
    by_cases hpc : s.pc = .idle
    · exact .inl hpc
    · rcases (live_of_reach h).enabled hpc with ⟨a, s', ha, hs'⟩ | hwaits
      · exact absurd hs' (hstuck a s' ha)
      · exact .inr hwaits

/-- After the unpark there are five actions at most until the call has returned. -/
theorem settles_oneUnpark : ∃ s, oneUnpark.foldlM step new = .ok s ∧
    ∀ (as : List Action) (s' : State), (∀ a ∈ as, Settling a = true) →
      as.foldlM step s = .ok s' → as.length + s'.remaining ≤ 5 := by
  obtain ⟨s, hs, hremaining⟩ : ∃ s, oneUnpark.foldlM step new = .ok s ∧ s.remaining = 5 :=
    ⟨_, rfl, rfl⟩
  exact ⟨s, hs, hremaining ▸ (settles (.foldlM (.init rfl) hs)).1⟩

/-- **A `Thread` that is used too late.**  An unparker finds the thread, which is woken for nothing
and leaves `park` before the unparker uses it. -/
theorem misused_spurious : ∃ s, [.park, .parker, .clone, .parker, .unpark, .spurious, .parker,
    .parker, .parker, .wake 0].foldlM step new = .ok s ∧ s.misused = true :=
  ⟨_, rfl, rfl⟩

/-- The token is left when the last unparker has unparked and is dropped before `into_inner`. -/
theorem token_left : ∃ s, [.park, .parker, .unpark, .wake 0, .drop, .parker].foldlM step new =
    .ok s ∧ s.pc = .idle ∧ s.token = true :=
  ⟨_, rfl, rfl, rfl⟩

/-- **With a token that was left**, the next parker of the thread leaves `park` before the unparker
that has found the thread uses it. -/
theorem misused_elsewhere : ∃ s, [.elsewhere, .park, .parker, .clone, .parker, .unpark, .parker,
    .parker, .parker, .parker, .wake 0].foldlM step new = .ok s ∧ s.misused = true :=
  ⟨_, rfl, rfl⟩

end Parker

end Vinezombie
