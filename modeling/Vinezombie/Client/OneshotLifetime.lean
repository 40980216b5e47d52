import Vinezombie.Client.Oneshot

/-!
# Who releases the oneshot channel

The parties of a oneshot channel decide by two atomics who releases the `Inner`: the last sender
lowers `sender_count` to zero and then loads `recver`, the receiver stores `recver` and then loads
`sender_count`, and each of them releases the `Inner` if it finds that the other one has left.  If
each of them does its first operation before the other one does its second, both find that.

For this only the stage of a party counts: what it has done of the two operations.

* `Owner`: the invariant, by who has yet to release the `Inner`.
* `Timely`: the condition under which not both release it, as a condition on single steps.
* `Doomed`: the state from which both will.
* `safe_iff_timely`: the `Inner` is released exactly once, by the last party that leaves, and not
  accessed afterwards, exactly in the runs whose steps are all timely.
-/

namespace Vinezombie

namespace Oneshot

open Library.Machine

variable {T : Type}

/-! ## Stages -/

/-- The stages of a sender: it is counted, it was the last one to be counted and has yet to load
`recver`, it has found that the receiver has left, it is gone. -/
inductive SenderStage where
  | counted
  | last
  | releasing
  | gone
  deriving DecidableEq

/-- The stages of the receiver: before and after its store, when it has found that the senders have
left, and when it is gone. -/
inductive ReceiverStage where
  | present
  | leaving
  | releasing
  | gone
  deriving DecidableEq

/-- How far the drop of a sender is. -/
def SenderPc.stage : SenderPc T → SenderStage
  | .lastLoad _ => .last
  | .releasing _ => .releasing
  | .gone _ => .gone
  | _ => .counted

/-- How far the end of the receiver is. -/
def ReceiverPc.stage : ReceiverPc T → ReceiverStage
  | .held => .present
  | .storing _ => .present
  | .releasing _ _ => .releasing
  | .gone _ _ => .gone
  | _ => .leaving

/-- The number of senders in a stage. -/
def inStage (stage : SenderStage) (senders : List (SenderPc T)) : ℕ :=
  senders.countP fun pc => pc.stage == stage

theorem inStage_split (stage : SenderStage) (front back : List (SenderPc T)) (pc : SenderPc T) :
    inStage stage (front ++ pc :: back) =
      inStage stage front + inStage stage back + if pc.stage = stage then 1 else 0 := by
  unfold inStage
  rw [List.countP_append, List.countP_cons]
  by_cases h : pc.stage = stage
  · simp only [h, beq_self_eq_true, if_true]
    omega
  · simp only [h, beq_eq_false_iff_ne.mpr h, if_false, Bool.false_eq_true]
    omega

/-- What a sender's operation does to its stage. -/
inductive SenderAdvances (inner : Inner T) (pc : SenderPc T) (m : Move (SenderPc T) T) : Prop
  | stays (hpc : pc.stage = .counted) (hpc' : m.pc.stage = .counted)
      (hcount : m.inner.senderCount = inner.senderCount) (hreleases : m.releases = false)
  | leaves (hpc : pc.stage = .counted)
      (hpc' : m.pc.stage = if inner.senderCount = 1 then .last else .gone)
      (hcount : m.inner.senderCount = inner.senderCount - 1) (hreleases : m.releases = false)
  | loads (sent : Option (Sent T)) (hpc : pc = .lastLoad sent)
      (hpc' : m.pc.stage = if inner.recver then .gone else .releasing)
      (hcount : m.inner.senderCount = inner.senderCount) (hreleases : m.releases = false)
  | releases (hpc : pc.stage = .releasing) (hpc' : m.pc.stage = .gone)
      (hcount : m.inner.senderCount = inner.senderCount) (hreleases : m.releases = true)

theorem senderMove_stage {inner : Inner T} {pc : SenderPc T} {m : Move (SenderPc T) T}
    (hmove : senderMove inner pc = some m) :
    m.inner.recver = inner.recver ∧ SenderAdvances inner pc m := by
  cases pc with
  | held => exact absurd hmove (by simp [senderMove])
  | loading value =>
    obtain rfl := Option.some.inj hmove
    refine ⟨rfl, .stays rfl ?_ rfl rfl⟩
    cases hrecver : inner.recver <;> rfl
  | competing value =>
    simp only [senderMove] at hmove
    split at hmove
    · obtain rfl := Option.some.inj hmove
      exact ⟨rfl, .stays rfl rfl rfl rfl⟩
    · exact absurd hmove (by simp)
    · obtain rfl := Option.some.inj hmove
      exact ⟨rfl, .stays rfl rfl rfl rfl⟩
  | writing value =>
    obtain rfl := Option.some.inj hmove
    exact ⟨rfl, .stays rfl rfl rfl rfl⟩
  | completing value =>
    obtain rfl := Option.some.inj hmove
    exact ⟨rfl, .stays rfl rfl rfl rfl⟩
  | dropping sent =>
    obtain rfl := Option.some.inj hmove
    refine ⟨rfl, .leaves rfl ?_ rfl rfl⟩
    by_cases hlast : inner.senderCount = 1
    · simp only [hlast, if_true]
      rfl
    · simp only [hlast, if_false]
      rfl
  | lastLoad sent =>
    obtain rfl := Option.some.inj hmove
    refine ⟨rfl, .loads sent rfl ?_ rfl rfl⟩
    cases hrecver : inner.recver <;> rfl
  | releasing sent =>
    obtain rfl := Option.some.inj hmove
    exact ⟨rfl, .releases rfl rfl rfl rfl⟩
  | gone sent => exact absurd hmove (by simp [senderMove])

/-- What the receiver's operation does to its stage. -/
inductive ReceiverAdvances (inner : Inner T) (pc : ReceiverPc T) (m : Move (ReceiverPc T) T) : Prop
  | stores (hpc : pc.stage = .present) (hpc' : m.pc.stage = .leaving)
      (hrecver : m.inner.recver = false) (hreleases : m.releases = false)
  | stays (hpc : pc.stage = .leaving) (hpc' : m.pc.stage = .leaving)
      (hrecver : m.inner.recver = inner.recver) (hreleases : m.releases = false)
  | counts (fn : End) (got : Option T) (hpc : pc = .counting fn got)
      (hpc' : m.pc.stage = if inner.senderCount = 0 then .releasing else .gone)
      (hrecver : m.inner.recver = inner.recver) (hreleases : m.releases = false)
  | releases (hpc : pc.stage = .releasing) (hpc' : m.pc.stage = .gone)
      (hrecver : m.inner.recver = inner.recver) (hreleases : m.releases = true)

theorem receiverMove_stage {inner : Inner T} {pc : ReceiverPc T} {m : Move (ReceiverPc T) T}
    (hmove : receiverMove inner pc = some m) :
    m.inner.senderCount = inner.senderCount ∧ ReceiverAdvances inner pc m := by
  cases pc with
  | held => exact absurd hmove (by simp [receiverMove])
  | storing fn =>
    obtain rfl := Option.some.inj hmove
    exact ⟨rfl, .stores rfl rfl rfl rfl⟩
  | closing fn =>
    simp only [receiverMove] at hmove
    split at hmove
    · obtain rfl := Option.some.inj hmove
      exact ⟨rfl, .stays rfl rfl rfl rfl⟩
    · exact absurd hmove (by simp)
    · obtain rfl := Option.some.inj hmove
      exact ⟨rfl, .stays rfl rfl rfl rfl⟩
  | emptying fn =>
    obtain rfl := Option.some.inj hmove
    exact ⟨rfl, .stays rfl rfl rfl rfl⟩
  | taking fn =>
    obtain rfl := Option.some.inj hmove
    exact ⟨rfl, .stays rfl rfl rfl rfl⟩
  | counting fn got =>
    obtain rfl := Option.some.inj hmove
    refine ⟨rfl, .counts fn got rfl ?_ rfl rfl⟩
    by_cases hcount : inner.senderCount = 0
    · simp only [hcount, if_true]
      rfl
    · simp only [hcount, if_false]
      rfl
  | releasing fn got =>
    obtain rfl := Option.some.inj hmove
    exact ⟨rfl, .releases rfl rfl rfl rfl⟩
  | gone fn got => exact absurd hmove (by simp [receiverMove])

/-! ## The property, and the condition -/

/-- All parties are gone. -/
def State.AllGone (s : State T) : Prop :=
  s.receiver.stage = .gone ∧ ∀ pc ∈ s.senders, pc.stage = .gone

instance (s : State T) : Decidable s.AllGone := inferInstanceAs (Decidable (_ ∧ _))

/-- **What the parties should achieve**: the `Inner` has been released exactly once if all of them
are gone, and not at all otherwise, and it was not accessed after its release. -/
def State.Safe (s : State T) : Prop :=
  s.misused = false ∧ s.released = if s.AllGone then 1 else 0

/-- The last sender loads `recver` before the receiver stores it, or after the receiver is gone; and
the receiver finds no sender left only when the last one has loaded `recver`. -/
def Timely (s : State T) : Action T → Prop
  | .sender i => ∀ sent, s.senders[i]? = some (.lastLoad sent) →
      s.inner.recver = true ∨ s.receiver.stage = .gone
  | .receiver => ∀ fn got, s.receiver = .counting fn got → s.inner.senderCount = 0 →
      ∀ pc ∈ s.senders, pc.stage ≠ .last
  | _ => True

/-! ## The invariant -/

/-- Who has yet to release the `Inner`: the senders that are counted and perhaps the receiver, the
last sender and perhaps the receiver, the last sender for sure, the receiver for sure, nobody. -/
inductive Owner (senders : List (SenderPc T)) (receiver : ReceiverStage) (released : ℕ) : Prop
  | senders (hcounted : 0 < inStage .counted senders) (hlast : inStage .last senders = 0)
      (hreleasing : inStage .releasing senders = 0) (hreceiver : receiver ≠ .releasing)
      (hreleased : released = 0)
  | lastSender (hcounted : inStage .counted senders = 0) (hlast : inStage .last senders = 1)
      (hreleasing : inStage .releasing senders = 0) (hreceiver : receiver ≠ .releasing)
      (hreleased : released = 0)
  | sender (hcounted : inStage .counted senders = 0) (hlast : inStage .last senders = 0)
      (hreleasing : inStage .releasing senders = 1) (hreceiver : receiver = .gone)
      (hreleased : released = 0)
  | receiver (hcounted : inStage .counted senders = 0) (hlast : inStage .last senders = 0)
      (hreleasing : inStage .releasing senders = 0) (hreceiver : receiver ≠ .gone)
      (hreleased : released = 0)
  | nobody (hcounted : inStage .counted senders = 0) (hlast : inStage .last senders = 0)
      (hreleasing : inStage .releasing senders = 0) (hreceiver : receiver = .gone)
      (hreleased : released = 1)

/-- The invariant of the runs whose steps are timely. -/
structure State.Good (s : State T) : Prop where
  count : s.inner.senderCount = inStage .counted s.senders
  recver : s.inner.recver = true ↔ s.receiver.stage = .present
  misused : s.misused = false
  owner : Owner s.senders s.receiver.stage s.released

/-- Both the last sender and the receiver have released the `Inner`, or will. -/
structure State.Doomed (s : State T) : Prop where
  count : s.inner.senderCount = 0
  counted : inStage .counted s.senders = 0
  recver : s.inner.recver = false
  twice : s.released + (inStage .last s.senders + inStage .releasing s.senders) +
    (if s.receiver.stage = .gone then 0 else 1) = 2

theorem good_channel : (channel : State T).Good where
  count := rfl
  recver := by simp [channel, ReceiverPc.stage]
  misused := rfl
  owner := .senders Nat.one_pos rfl rfl (by simp [channel, ReceiverPc.stage]) rfl

section Stages

variable (front back : List (SenderPc T)) {pc pc' : SenderPc T}

theorem inStage_replace (stage : SenderStage) (h : pc'.stage = pc.stage) :
    inStage stage (front ++ pc' :: back) = inStage stage (front ++ pc :: back) := by
  rw [inStage_split, inStage_split, h]

theorem inStage_pos (stage : SenderStage) (h : pc.stage = stage) :
    0 < inStage stage (front ++ pc :: back) := by
  rw [inStage_split, if_pos h]
  exact Nat.succ_pos _

theorem inStage_eq_zero_iff {stage : SenderStage} {senders : List (SenderPc T)} :
    inStage stage senders = 0 ↔ ∀ pc ∈ senders, pc.stage ≠ stage := by
  simp [inStage, List.countP_eq_zero]

/-- All senders are gone when there are none in the other stages. -/
theorem all_gone_iff {senders : List (SenderPc T)} :
    (∀ pc ∈ senders, pc.stage = .gone) ↔ inStage .counted senders = 0 ∧
      inStage .last senders = 0 ∧ inStage .releasing senders = 0 := by
  rw [inStage_eq_zero_iff, inStage_eq_zero_iff, inStage_eq_zero_iff]
  constructor
  · intro h
    refine ⟨fun pc hpc => ?_, fun pc hpc => ?_, fun pc hpc => ?_⟩
    all_goals
      rw [h pc hpc]
      simp
  · rintro ⟨hcounted, hlast, hreleasing⟩ pc hpc
    have h₁ := hcounted pc hpc
    have h₂ := hlast pc hpc
    have h₃ := hreleasing pc hpc
    cases hstage : pc.stage with
    | counted => exact absurd hstage h₁
    | last => exact absurd hstage h₂
    | releasing => exact absurd hstage h₃
    | gone => rfl

end Stages

theorem Owner.congr {senders senders' : List (SenderPc T)} {receiver : ReceiverStage}
    {released : ℕ} (h : Owner senders receiver released)
    (heq : ∀ stage, inStage stage senders' = inStage stage senders) :
    Owner senders' receiver released := by
  cases h with
  | senders h₁ h₂ h₃ h₄ h₅ =>
    exact .senders (by rwa [heq]) (by rwa [heq]) (by rwa [heq]) h₄ h₅
  | lastSender h₁ h₂ h₃ h₄ h₅ =>
    exact .lastSender (by rwa [heq]) (by rwa [heq]) (by rwa [heq]) h₄ h₅
  | sender h₁ h₂ h₃ h₄ h₅ => exact .sender (by rwa [heq]) (by rwa [heq]) (by rwa [heq]) h₄ h₅
  | receiver h₁ h₂ h₃ h₄ h₅ => exact .receiver (by rwa [heq]) (by rwa [heq]) (by rwa [heq]) h₄ h₅
  | nobody h₁ h₂ h₃ h₄ h₅ => exact .nobody (by rwa [heq]) (by rwa [heq]) (by rwa [heq]) h₄ h₅

/-- The `Inner` is there as long as a party has something to do. -/
theorem Owner.released_eq_zero {senders : List (SenderPc T)} {receiver : ReceiverStage}
    {released : ℕ} (h : Owner senders receiver released)
    (hbusy : receiver ≠ .gone ∨ ∃ pc ∈ senders, pc.stage ≠ .gone) : released = 0 := by
  cases h with
  | senders h₁ h₂ h₃ h₄ h₅ => exact h₅
  | lastSender h₁ h₂ h₃ h₄ h₅ => exact h₅
  | sender h₁ h₂ h₃ h₄ h₅ => exact h₅
  | receiver h₁ h₂ h₃ h₄ h₅ => exact h₅
  | nobody h₁ h₂ h₃ h₄ h₅ =>
    rcases hbusy with hbusy | ⟨pc, hpc, hbusy⟩
    · exact absurd h₄ hbusy
    · exact absurd (all_gone_iff.mpr ⟨h₁, h₂, h₃⟩ pc hpc) hbusy

/-- **The invariant says that all is well.** -/
theorem State.Good.safe {s : State T} (h : s.Good) : s.Safe := by
  refine ⟨h.misused, ?_⟩
  by_cases hgone : s.AllGone
  · rw [if_pos hgone]
    obtain ⟨hcounted, hlast, hreleasing⟩ := all_gone_iff.mp hgone.2
    cases h.owner with
    | senders h₁ => exact absurd hcounted (Nat.ne_of_gt h₁)
    | lastSender h₁ h₂ => exact absurd (hlast.symm.trans h₂) (by decide)
    | sender h₁ h₂ h₃ => exact absurd (hreleasing.symm.trans h₃) (by decide)
    | receiver h₁ h₂ h₃ h₄ => exact absurd hgone.1 h₄
    | nobody h₁ h₂ h₃ h₄ h₅ => exact h₅
  · rw [if_neg hgone]
    refine h.owner.released_eq_zero ?_
    by_cases hreceiver : s.receiver.stage = .gone
    · refine .inr ?_
      by_contra hnone
      refine hgone ⟨hreceiver, fun pc hpc => ?_⟩
      by_contra hpc'
      exact hnone ⟨pc, hpc, hpc'⟩
    · exact .inl hreceiver

/-! ## Steps -/

/-- The access of a party that is not gone is no misuse. -/
theorem State.Good.misused_after {s : State T} (h : s.Good) (inner : Inner T) (releases : Bool)
    (hbusy : s.receiver.stage ≠ .gone ∨ ∃ pc ∈ s.senders, pc.stage ≠ .gone) :
    (s.after inner releases).misused = false := by
  have hzero := h.owner.released_eq_zero hbusy
  show (s.misused || (!releases && decide (0 < s.released))) = false
  rw [h.misused, hzero]
  simp

/-- One sender has gone on to another stage. -/
theorem inStage_split_of_stage (front back : List (SenderPc T)) {pc : SenderPc T}
    {stage : SenderStage} (hpc : pc.stage = stage) :
    inStage .counted (front ++ pc :: back) = inStage .counted front + inStage .counted back +
        (if stage = .counted then 1 else 0) ∧
      inStage .last (front ++ pc :: back) = inStage .last front + inStage .last back +
        (if stage = .last then 1 else 0) ∧
      inStage .releasing (front ++ pc :: back) = inStage .releasing front +
        inStage .releasing back + (if stage = .releasing then 1 else 0) := by
  rw [inStage_split, inStage_split, inStage_split, hpc]
  exact ⟨rfl, rfl, rfl⟩

/-- A counted sender lowers the count. -/
theorem Owner.leaves {front back : List (SenderPc T)} {pc pc' : SenderPc T}
    {receiver : ReceiverStage} {released : ℕ}
    (h : Owner (front ++ pc :: back) receiver released) (hpc : pc.stage = .counted)
    (hpc' : pc'.stage =
      if inStage .counted (front ++ pc :: back) = 1 then .last else .gone) :
    Owner (front ++ pc' :: back) receiver released := by
  have hpos := inStage_pos front back .counted hpc
  obtain ⟨hcounted, hlast, hreleasing⟩ :=
    inStage_split_of_stage front back hpc
  obtain ⟨hcounted', hlast', hreleasing'⟩ :=
    inStage_split_of_stage front back hpc'
  simp only [reduceCtorEq, if_true, if_false] at hcounted hlast hreleasing
  cases h with
  | senders h₁ h₂ h₃ h₄ h₅ =>
    by_cases hone : inStage .counted (front ++ pc :: back) = 1
    · simp only [hone, reduceCtorEq, if_true, if_false] at hcounted' hlast' hreleasing'
      exact .lastSender (by omega) (by omega) (by omega) h₄ h₅
    · simp only [hone, reduceCtorEq, if_false] at hcounted' hlast' hreleasing'
      exact .senders (by omega) (by omega) (by omega) h₄ h₅
  | lastSender h₁ => exact absurd h₁ (Nat.ne_of_gt hpos)
  | sender h₁ => exact absurd h₁ (Nat.ne_of_gt hpos)
  | receiver h₁ => exact absurd h₁ (Nat.ne_of_gt hpos)
  | nobody h₁ => exact absurd h₁ (Nat.ne_of_gt hpos)

/-- The last sender loads `recver`, in time. -/
theorem Owner.loads {front back : List (SenderPc T)} {pc pc' : SenderPc T}
    {receiver : ReceiverStage} {released : ℕ} {recver : Bool}
    (h : Owner (front ++ pc :: back) receiver released) (hpc : pc.stage = .last)
    (hpc' : pc'.stage = if recver then .gone else .releasing)
    (hrecver : recver = true → receiver = .present)
    (htimely : recver = true ∨ receiver = .gone) :
    Owner (front ++ pc' :: back) receiver released := by
  have hpos := inStage_pos front back .last hpc
  obtain ⟨hcounted, hlast, hreleasing⟩ :=
    inStage_split_of_stage front back hpc
  obtain ⟨hcounted', hlast', hreleasing'⟩ :=
    inStage_split_of_stage front back hpc'
  simp only [reduceCtorEq, if_true, if_false] at hcounted hlast hreleasing
  cases h with
  | senders h₁ h₂ => exact absurd h₂ (Nat.ne_of_gt hpos)
  | lastSender h₁ h₂ h₃ h₄ h₅ =>
    cases recver with
    | true =>
      simp only [reduceCtorEq, if_true, if_false] at hcounted' hlast' hreleasing'
      exact .receiver (by omega) (by omega) (by omega) (by simp [hrecver rfl]) h₅
    | false =>
      have hgone : receiver = .gone := htimely.resolve_left (by simp)
      simp only [reduceCtorEq, if_true, if_false, Bool.false_eq_true]
        at hcounted' hlast' hreleasing'
      exact .sender (by omega) (by omega) (by omega) hgone h₅
  | sender h₁ h₂ => exact absurd h₂ (Nat.ne_of_gt hpos)
  | receiver h₁ h₂ => exact absurd h₂ (Nat.ne_of_gt hpos)
  | nobody h₁ h₂ => exact absurd h₂ (Nat.ne_of_gt hpos)

/-- The last sender releases the `Inner`. -/
theorem Owner.senderReleases {front back : List (SenderPc T)} {pc pc' : SenderPc T}
    {receiver : ReceiverStage} {released : ℕ}
    (h : Owner (front ++ pc :: back) receiver released) (hpc : pc.stage = .releasing)
    (hpc' : pc'.stage = .gone) : Owner (front ++ pc' :: back) receiver (released + 1) := by
  have hpos := inStage_pos front back .releasing hpc
  obtain ⟨hcounted, hlast, hreleasing⟩ :=
    inStage_split_of_stage front back hpc
  obtain ⟨hcounted', hlast', hreleasing'⟩ :=
    inStage_split_of_stage front back hpc'
  simp only [reduceCtorEq, if_true, if_false]
    at hcounted hlast hreleasing hcounted' hlast' hreleasing'
  cases h with
  | senders h₁ h₂ h₃ => exact absurd h₃ (Nat.ne_of_gt hpos)
  | lastSender h₁ h₂ h₃ => exact absurd h₃ (Nat.ne_of_gt hpos)
  | sender h₁ h₂ h₃ h₄ h₅ =>
    exact .nobody (by omega) (by omega) (by omega) h₄ (by rw [h₅])
  | receiver h₁ h₂ h₃ => exact absurd h₃ (Nat.ne_of_gt hpos)
  | nobody h₁ h₂ h₃ => exact absurd h₃ (Nat.ne_of_gt hpos)

/-- A sender that does its next operation in time. -/
theorem State.Good.sender {s : State T} {front back : List (SenderPc T)} {pc : SenderPc T}
    {m : Move (SenderPc T) T} (h : s.Good) (hsenders : s.senders = front ++ pc :: back)
    (hmove : senderMove s.inner pc = some m)
    (htimely : ∀ sent, pc = .lastLoad sent → s.inner.recver = true ∨ s.receiver.stage = .gone) :
    ({ s.after m.inner m.releases with senders := front ++ m.pc :: back } : State T).Good := by
  obtain ⟨hrecver, hadvances⟩ := senderMove_stage hmove
  have hcount := h.count
  have howner := h.owner
  rw [hsenders] at hcount howner
  have hbusy : pc.stage ≠ .gone := by
    cases hadvances with
    | stays hpc => simp [hpc]
    | leaves hpc => simp [hpc]
    | loads sent hpc => simp [hpc, SenderPc.stage]
    | releases hpc => simp [hpc]
  have hmem : pc ∈ s.senders := by simp [hsenders]
  refine ⟨?_, ?_, h.misused_after m.inner m.releases (.inr ⟨pc, hmem, hbusy⟩), ?_⟩
  · show m.inner.senderCount = inStage .counted (front ++ m.pc :: back)
    rw [inStage_split] at hcount ⊢
    cases hadvances with
    | stays hpc hpc' hsame => rw [hsame, hcount, hpc, hpc']
    | leaves hpc hpc' hless =>
      rw [hpc, if_pos rfl] at hcount
      have hne : m.pc.stage ≠ .counted := by
        rw [hpc']
        split <;> simp
      rw [hless, hcount, if_neg hne]
      rfl
    | loads sent hpc hpc' hsame =>
      have hne : m.pc.stage ≠ .counted := by
        rw [hpc']
        split <;> simp
      rw [hsame, hcount, hpc, if_neg hne]
      rfl
    | releases hpc hpc' hsame =>
      rw [hsame, hcount, hpc, hpc']
      rfl
  · show m.inner.recver = true ↔ s.receiver.stage = .present
    rw [hrecver]
    exact h.recver
  · show Owner (front ++ m.pc :: back) s.receiver.stage
      (if m.releases then s.released + 1 else s.released)
    cases hadvances with
    | stays hpc hpc' hsame hreleases =>
      rw [hreleases]
      exact howner.congr fun stage => inStage_replace front back stage (hpc'.trans hpc.symm)
    | leaves hpc hpc' hless hreleases =>
      rw [hreleases]
      rw [hcount] at hpc'
      exact howner.leaves hpc hpc'
    | loads sent hpc hpc' hsame hreleases =>
      rw [hreleases]
      exact howner.loads (by rw [hpc]; rfl) hpc' h.recver.mp (htimely sent hpc)
    | releases hpc hpc' hsame hreleases =>
      rw [hreleases]
      exact howner.senderReleases hpc hpc'

/-- The receiver goes on, but not to its end. -/
theorem Owner.receiver_leaves {senders : List (SenderPc T)} {receiver receiver' : ReceiverStage}
    {released : ℕ} (h : Owner senders receiver released) (hreceiver : receiver ≠ .gone)
    (hreleasing' : receiver' ≠ .releasing) (hgone' : receiver' ≠ .gone) :
    Owner senders receiver' released := by
  cases h with
  | senders h₁ h₂ h₃ h₄ h₅ => exact .senders h₁ h₂ h₃ hreleasing' h₅
  | lastSender h₁ h₂ h₃ h₄ h₅ => exact .lastSender h₁ h₂ h₃ hreleasing' h₅
  | sender h₁ h₂ h₃ h₄ => exact absurd h₄ hreceiver
  | receiver h₁ h₂ h₃ h₄ h₅ => exact .receiver h₁ h₂ h₃ hgone' h₅
  | nobody h₁ h₂ h₃ h₄ => exact absurd h₄ hreceiver

/-- The receiver loads `sender_count`, in time. -/
theorem Owner.counts {senders : List (SenderPc T)} {receiver receiver' : ReceiverStage}
    {released : ℕ} (h : Owner senders receiver released) (hreceiver : receiver ≠ .gone)
    (hreceiver' : receiver' = if inStage .counted senders = 0 then .releasing else .gone)
    (htimely : inStage .counted senders = 0 → inStage .last senders = 0) :
    Owner senders receiver' released := by
  cases h with
  | senders h₁ h₂ h₃ h₄ h₅ =>
    rw [if_neg (Nat.ne_of_gt h₁)] at hreceiver'
    exact .senders h₁ h₂ h₃ (by simp [hreceiver']) h₅
  | lastSender h₁ h₂ => exact absurd ((htimely h₁).symm.trans h₂) (by decide)
  | sender h₁ h₂ h₃ h₄ => exact absurd h₄ hreceiver
  | receiver h₁ h₂ h₃ h₄ h₅ =>
    rw [if_pos h₁] at hreceiver'
    exact .receiver h₁ h₂ h₃ (by simp [hreceiver']) h₅
  | nobody h₁ h₂ h₃ h₄ => exact absurd h₄ hreceiver

/-- The receiver releases the `Inner`. -/
theorem Owner.receiverReleases {senders : List (SenderPc T)} {released : ℕ}
    (h : Owner senders .releasing released) : Owner senders .gone (released + 1) := by
  cases h with
  | senders h₁ h₂ h₃ h₄ => exact absurd rfl h₄
  | lastSender h₁ h₂ h₃ h₄ => exact absurd rfl h₄
  | sender h₁ h₂ h₃ h₄ => exact absurd h₄ (by simp)
  | receiver h₁ h₂ h₃ h₄ h₅ => exact .nobody h₁ h₂ h₃ rfl (by rw [h₅])
  | nobody h₁ h₂ h₃ h₄ => exact absurd h₄ (by simp)

/-- The receiver does its next operation in time. -/
theorem State.Good.receiver {s : State T} {m : Move (ReceiverPc T) T} (h : s.Good)
    (hmove : receiverMove s.inner s.receiver = some m) (taken : List (End × T))
    (htimely : ∀ fn got, s.receiver = .counting fn got → s.inner.senderCount = 0 →
      ∀ pc ∈ s.senders, pc.stage ≠ .last) :
    ({ s.after m.inner m.releases with receiver := m.pc, taken := taken } : State T).Good := by
  obtain ⟨hcount, hadvances⟩ := receiverMove_stage hmove
  have howner := h.owner
  have hbusy : s.receiver.stage ≠ .gone := by
    cases hadvances with
    | stores hpc => simp [hpc]
    | stays hpc => simp [hpc]
    | counts fn got hpc => simp [hpc, ReceiverPc.stage]
    | releases hpc => simp [hpc]
  refine ⟨hcount.trans h.count, ?_, h.misused_after m.inner m.releases (.inl hbusy), ?_⟩
  · show m.inner.recver = true ↔ m.pc.stage = .present
    have hrecver := h.recver
    cases hadvances with
    | stores hpc hpc' hfalse =>
      rw [hpc', hfalse]
      simp
    | stays hpc hpc' hsame =>
      rw [hsame, hpc', hrecver, hpc]
    | counts fn got hpc hpc' hsame =>
      have hne : m.pc.stage ≠ .present := by
        rw [hpc']
        split <;> simp
      rw [hsame, hrecver, hpc]
      exact iff_of_false (by simp [ReceiverPc.stage]) hne
    | releases hpc hpc' hsame =>
      rw [hsame, hpc', hrecver, hpc]
      simp
  · show Owner s.senders m.pc.stage (if m.releases then s.released + 1 else s.released)
    cases hadvances with
    | stores hpc hpc' hfalse hreleases =>
      rw [hreleases]
      exact howner.receiver_leaves hbusy (by simp [hpc']) (by simp [hpc'])
    | stays hpc hpc' hsame hreleases =>
      rw [hreleases]
      exact howner.receiver_leaves hbusy (by simp [hpc']) (by simp [hpc'])
    | counts fn got hpc hpc' hsame hreleases =>
      rw [hreleases]
      rw [h.count] at hpc'
      refine howner.counts hbusy hpc' fun hzero => ?_
      rw [inStage_eq_zero_iff]
      exact htimely fn got hpc (h.count.trans hzero)
    | releases hpc hpc' hsame hreleases =>
      rw [hreleases, hpc']
      rw [hpc] at howner
      exact howner.receiverReleases

/-- A party begins a call. -/
theorem State.Good.of_start {s s' : State T} (h : s.Good) (hinner : s'.inner = s.inner)
    (hmisused : s'.misused = s.misused) (hreleased : s'.released = s.released)
    (hreceiver : s'.receiver.stage = s.receiver.stage)
    (hsenders : ∀ stage, inStage stage s'.senders = inStage stage s.senders) : s'.Good where
  count := by rw [hinner, hsenders, h.count]
  recver := by rw [hinner, hreceiver, h.recver]
  misused := hmisused.trans h.misused
  owner := by
    rw [hreceiver, hreleased]
    exact h.owner.congr hsenders

/-- A sender is cloned. -/
theorem State.Good.clone {s : State T} (h : s.Good) {front back : List (SenderPc T)}
    (hsenders : s.senders = front ++ .held :: back) :
    ({ s.after { s.inner with senderCount := s.inner.senderCount + 1 } false with
      senders := s.senders ++ [.held] } : State T).Good := by
  have hpos : 0 < inStage .counted s.senders := by
    rw [hsenders]
    exact inStage_pos front back .counted rfl
  have hheld : (SenderPc.held : SenderPc T) ∈ s.senders := by simp [hsenders]
  have hcounted : inStage .counted (s.senders ++ [.held]) = inStage .counted s.senders + 1 := by
    rw [inStage_split .counted s.senders [] .held]
    rfl
  have hother : ∀ stage, stage ≠ .counted →
      inStage stage (s.senders ++ [.held]) = inStage stage s.senders := by
    intro stage hne
    have hne' : (SenderPc.held : SenderPc T).stage ≠ stage := Ne.symm hne
    rw [inStage_split stage s.senders [] .held, if_neg hne']
    rfl
  refine ⟨?_, h.recver, h.misused_after s.inner false
    (.inr ⟨.held, hheld, by simp [SenderPc.stage]⟩), ?_⟩
  · show s.inner.senderCount + 1 = inStage .counted (s.senders ++ [.held])
    rw [hcounted, h.count]
  · show Owner (s.senders ++ [.held]) s.receiver.stage s.released
    cases h.owner with
    | senders h₁ h₂ h₃ h₄ h₅ =>
      refine .senders ?_ ?_ ?_ h₄ h₅
      · rw [hcounted]
        exact Nat.succ_pos _
      · rw [hother .last (by simp), h₂]
      · rw [hother .releasing (by simp), h₃]
    | lastSender h₁ => exact absurd h₁ (Nat.ne_of_gt hpos)
    | sender h₁ => exact absurd h₁ (Nat.ne_of_gt hpos)
    | receiver h₁ => exact absurd h₁ (Nat.ne_of_gt hpos)
    | nobody h₁ => exact absurd h₁ (Nat.ne_of_gt hpos)

/-- **A timely step keeps the invariant.** -/
theorem State.Good.step {s s' : State T} {a : Action T} (h : s.Good) (hdoes : Does s s' a)
    (htimely : Timely s a) : s'.Good := by
  cases hdoes with
  | clone front back hsenders hs' =>
    subst hs'
    exact h.clone hsenders
  | send front back hsenders hs' =>
    subst hs'
    refine h.of_start rfl rfl rfl rfl fun stage => ?_
    rw [hsenders]
    exact inStage_replace front back stage rfl
  | dropSender front back hsenders hs' =>
    subst hs'
    refine h.of_start rfl rfl rfl rfl fun stage => ?_
    rw [hsenders]
    exact inStage_replace front back stage rfl
  | sender front back pc m hget hsenders hmove hs' =>
    subst hs'
    exact h.sender hsenders hmove fun sent hsent => htimely sent (hsent ▸ hget)
  | recvNow hreceiver hs' =>
    subst hs'
    exact h.of_start rfl rfl rfl (by rw [hreceiver]; rfl) fun _ => rfl
  | dropReceiver hreceiver hs' =>
    subst hs'
    exact h.of_start rfl rfl rfl (by rw [hreceiver]; rfl) fun _ => rfl
  | receiver m hmove hs' =>
    subst hs'
    exact h.receiver hmove _ htimely

/-! ## Steps that are not timely -/

/-- As long as a sender is in its last stage, nothing has been released. -/
theorem Owner.of_last {senders : List (SenderPc T)} {receiver : ReceiverStage} {released : ℕ}
    (h : Owner senders receiver released) (hlast : inStage .last senders ≠ 0) :
    inStage .counted senders = 0 ∧ inStage .last senders = 1 ∧ inStage .releasing senders = 0 ∧
      released = 0 := by
  cases h with
  | senders h₁ h₂ => exact absurd h₂ hlast
  | lastSender h₁ h₂ h₃ h₄ h₅ => exact ⟨h₁, h₂, h₃, h₅⟩
  | sender h₁ h₂ => exact absurd h₂ hlast
  | receiver h₁ h₂ => exact absurd h₂ hlast
  | nobody h₁ h₂ => exact absurd h₂ hlast

/-- The last sender finds that the receiver has left, which has yet to load `sender_count`. -/
theorem State.Good.doomed_sender {s : State T} (h : s.Good) {front back : List (SenderPc T)}
    {sent : Option (Sent T)} (hsenders : s.senders = front ++ .lastLoad sent :: back)
    (hrecver : s.inner.recver = false) (hreceiver : s.receiver.stage ≠ .gone) :
    ({ s.after s.inner false with senders := front ++ .releasing sent :: back } :
      State T).Doomed := by
  have hpc : (SenderPc.lastLoad sent).stage = .last := rfl
  have hpc' : (SenderPc.releasing sent).stage = .releasing := rfl
  have hne : inStage .last s.senders ≠ 0 := by
    rw [hsenders]
    exact Nat.ne_of_gt (inStage_pos front back .last hpc)
  obtain ⟨hzero, hone, hnone, hreleased⟩ := h.owner.of_last hne
  rw [hsenders] at hzero hone hnone
  obtain ⟨hcounted, hlast, hreleasing⟩ :=
    inStage_split_of_stage front back hpc
  obtain ⟨hcounted', hlast', hreleasing'⟩ :=
    inStage_split_of_stage front back hpc'
  simp only [reduceCtorEq, if_true, if_false] at hcounted hlast hreleasing
  simp only [reduceCtorEq, if_true, if_false] at hcounted' hlast' hreleasing'
  refine ⟨?_, ?_, hrecver, ?_⟩
  · rw [← hsenders, ← h.count] at hzero
    exact hzero
  · show inStage .counted (front ++ .releasing sent :: back) = 0
    omega
  · show s.released + (inStage .last (front ++ .releasing sent :: back) +
      inStage .releasing (front ++ .releasing sent :: back)) +
        (if s.receiver.stage = .gone then 0 else 1) = 2
    rw [if_neg hreceiver]
    omega

/-- The receiver finds no sender left, while the last one has yet to load `recver`. -/
theorem State.Good.doomed_receiver {s : State T} (h : s.Good) {fn : End} {got : Option T}
    (hreceiver : s.receiver = .counting fn got) {pc : SenderPc T} (hpc : pc ∈ s.senders)
    (hstage : pc.stage = .last) (taken : List (End × T)) :
    ({ s.after s.inner false with receiver := .releasing fn got, taken := taken } :
      State T).Doomed := by
  have hne : inStage .last s.senders ≠ 0 := fun hzero => inStage_eq_zero_iff.mp hzero pc hpc hstage
  obtain ⟨hzero, hone, hnone, hreleased⟩ := h.owner.of_last hne
  have hrecver : s.inner.recver = false := by
    have hiff := h.recver
    rw [hreceiver] at hiff
    simpa [ReceiverPc.stage] using hiff
  refine ⟨h.count.trans hzero, hzero, hrecver, ?_⟩
  show s.released + (inStage .last s.senders + inStage .releasing s.senders) + 1 = 2
  omega

/-- **A step that is not timely** leads to a state from which both will release the `Inner`. -/
theorem State.Good.doomed {s s' : State T} {a : Action T} (h : s.Good) (hdoes : Does s s' a)
    (htimely : ¬ Timely s a) : s'.Doomed := by
  cases hdoes with
  | clone | send | dropSender | recvNow | dropReceiver => exact absurd trivial htimely
  | sender front back pc m hget hsenders hmove hs' =>
    simp only [Timely, not_forall] at htimely
    obtain ⟨sent, hsent, hlate⟩ := htimely
    obtain rfl : pc = .lastLoad sent := Option.some.inj (hget.symm.trans hsent)
    obtain ⟨hrecver, hreceiver⟩ := not_or.mp hlate
    have hrecver : s.inner.recver = false := by simpa using hrecver
    have hm : m = ⟨.releasing sent, s.inner, false⟩ := by
      simpa [senderMove, hrecver] using hmove.symm
    subst hs' hm
    exact h.doomed_sender hsenders hrecver hreceiver
  | receiver m hmove hs' =>
    simp only [Timely, not_forall] at htimely
    obtain ⟨fn, got, hreceiver, hzero, pc, hpc, hstage⟩ := htimely
    have hm : m = ⟨.releasing fn got, s.inner, false⟩ := by
      simpa [receiverMove, hreceiver, hzero] using hmove.symm
    subst hs' hm
    exact h.doomed_receiver hreceiver hpc (not_not.mp hstage) _

/-- Where no sender is counted, a sender only loads `recver` or releases the `Inner`. -/
theorem State.Doomed.not_counted {s : State T} (h : s.Doomed) {pc : SenderPc T}
    (hpc : pc ∈ s.senders) : pc.stage ≠ .counted :=
  inStage_eq_zero_iff.mp h.counted pc hpc

/-- A sender goes on, in a state in which both release the `Inner`. -/
theorem State.Doomed.sender {s : State T} (h : s.Doomed) {front back : List (SenderPc T)}
    {pc : SenderPc T} {m : Move (SenderPc T) T} (hsenders : s.senders = front ++ pc :: back)
    (hmove : senderMove s.inner pc = some m) :
    ({ s.after m.inner m.releases with senders := front ++ m.pc :: back } : State T).Doomed := by
  obtain ⟨hrecver, hadvances⟩ := senderMove_stage hmove
  have hnot : pc.stage ≠ .counted := h.not_counted (by simp [hsenders])
  have hzero := h.counted
  have htwice := h.twice
  rw [hsenders] at hzero htwice
  have hfalse : m.inner.recver = false := hrecver.trans h.recver
  cases hadvances with
  | stays hpc => exact absurd hpc hnot
  | leaves hpc => exact absurd hpc hnot
  | loads sent hpc hpc' hsame hreleases =>
    have hpc : pc.stage = .last := by
      rw [hpc]
      rfl
    rw [h.recver] at hpc'
    obtain ⟨hcounted, hlast, hreleasing⟩ :=
      inStage_split_of_stage front back hpc
    obtain ⟨hcounted', hlast', hreleasing'⟩ :=
      inStage_split_of_stage front back hpc'
    simp only [reduceCtorEq, if_true, if_false] at hcounted hlast hreleasing
    simp only [reduceCtorEq, if_true, if_false, Bool.false_eq_true] at hcounted' hlast' hreleasing'
    refine ⟨hsame.trans h.count, ?_, hfalse, ?_⟩
    · show inStage .counted (front ++ m.pc :: back) = 0
      omega
    · show (if m.releases then s.released + 1 else s.released) +
        (inStage .last (front ++ m.pc :: back) + inStage .releasing (front ++ m.pc :: back)) +
          (if s.receiver.stage = .gone then 0 else 1) = 2
      rw [hreleases, if_neg Bool.false_ne_true]
      omega
  | releases hpc hpc' hsame hreleases =>
    obtain ⟨hcounted, hlast, hreleasing⟩ :=
      inStage_split_of_stage front back hpc
    obtain ⟨hcounted', hlast', hreleasing'⟩ :=
      inStage_split_of_stage front back hpc'
    simp only [reduceCtorEq, if_true, if_false] at hcounted hlast hreleasing
    simp only [reduceCtorEq, if_false] at hcounted' hlast' hreleasing'
    refine ⟨hsame.trans h.count, ?_, hfalse, ?_⟩
    · show inStage .counted (front ++ m.pc :: back) = 0
      omega
    · show (if m.releases then s.released + 1 else s.released) +
        (inStage .last (front ++ m.pc :: back) + inStage .releasing (front ++ m.pc :: back)) +
          (if s.receiver.stage = .gone then 0 else 1) = 2
      rw [hreleases, if_pos rfl]
      omega

/-- The receiver goes on, in a state in which both release the `Inner`. -/
theorem State.Doomed.receiver {s : State T} (h : s.Doomed) {m : Move (ReceiverPc T) T}
    (hmove : receiverMove s.inner s.receiver = some m) (taken : List (End × T)) :
    ({ s.after m.inner m.releases with receiver := m.pc, taken := taken } : State T).Doomed := by
  obtain ⟨hcount, hadvances⟩ := receiverMove_stage hmove
  have htwice := h.twice
  -- the receiver releases the `Inner` when it goes, and not before
  have hstage : m.inner.recver = false ∧ s.receiver.stage ≠ .gone ∧
      ((m.pc.stage ≠ .gone ∧ m.releases = false) ∨ (m.pc.stage = .gone ∧ m.releases = true)) := by
    cases hadvances with
    | stores hpc hpc' hrecver hreleases =>
      exact ⟨hrecver, by simp [hpc], .inl ⟨by simp [hpc'], hreleases⟩⟩
    | stays hpc hpc' hrecver hreleases =>
      exact ⟨hrecver.trans h.recver, by simp [hpc], .inl ⟨by simp [hpc'], hreleases⟩⟩
    | counts fn got hpc hpc' hrecver hreleases =>
      rw [if_pos h.count] at hpc'
      exact ⟨hrecver.trans h.recver, by simp [hpc, ReceiverPc.stage],
        .inl ⟨by simp [hpc'], hreleases⟩⟩
    | releases hpc hpc' hrecver hreleases =>
      exact ⟨hrecver.trans h.recver, by simp [hpc], .inr ⟨hpc', hreleases⟩⟩
  obtain ⟨hrecver, hbusy, hcases⟩ := hstage
  rw [if_neg hbusy] at htwice
  refine ⟨hcount.trans h.count, h.counted, hrecver, ?_⟩
  show (if m.releases then s.released + 1 else s.released) +
    (inStage .last s.senders + inStage .releasing s.senders) +
      (if m.pc.stage = .gone then 0 else 1) = 2
  rcases hcases with ⟨hgone, hreleases⟩ | ⟨hgone, hreleases⟩
  · rw [hreleases, if_neg hgone, if_neg Bool.false_ne_true]
    exact htwice
  · rw [hreleases, if_pos hgone, if_pos rfl]
    omega

theorem State.Doomed.step {s s' : State T} {a : Action T} (h : s.Doomed) (hdoes : Does s s' a) :
    s'.Doomed := by
  cases hdoes with
  | clone front back hsenders hs' | send front back hsenders hs'
  | dropSender front back hsenders hs' =>
    have hheld : (SenderPc.held : SenderPc T) ∈ s.senders := by simp [hsenders]
    exact absurd rfl (h.not_counted hheld)
  | sender front back pc m hget hsenders hmove hs' =>
    subst hs'
    exact h.sender hsenders hmove
  | recvNow hreceiver hs' =>
    subst hs'
    have htwice := h.twice
    rw [hreceiver] at htwice
    exact ⟨h.count, h.counted, h.recver, htwice⟩
  | dropReceiver hreceiver hs' =>
    subst hs'
    have htwice := h.twice
    rw [hreceiver] at htwice
    exact ⟨h.count, h.counted, h.recver, htwice⟩
  | receiver m hmove hs' =>
    subst hs'
    exact h.receiver hmove _

/-- In the end the `Inner` has been released twice. -/
theorem State.Doomed.not_safe {s : State T} (h : s.Doomed) (hgone : s.AllGone) : ¬ s.Safe := by
  intro hsafe
  have htwice := h.twice
  obtain ⟨-, hlast, hreleasing⟩ := all_gone_iff.mp hgone.2
  have hreleased := hsafe.2
  rw [if_pos hgone] at hreleased
  rw [if_pos hgone.1, hlast, hreleasing, hreleased] at htwice
  exact absurd htwice (by decide)

/-! ## Runs -/

/-- A run keeps the invariant if its steps are timely, and is doomed otherwise. -/
theorem good_or_doomed {as : List (Action T)} {s s' : State T} (h : s.Good)
    (hrun : as.foldlM step s = .ok s') :
    (Meets step Timely s as ∧ s'.Good) ∨ (¬ Meets step Timely s as ∧ s'.Doomed) := by
  have hdoomed : ∀ (as : List (Action T)) (s : State T), s.Doomed →
      as.foldlM step s = .ok s' → s'.Doomed := by
    intro as
    induction as with
    | nil =>
      intro s hs hrun
      rwa [← Except.ok.inj hrun]
    | cons a as ih =>
      intro s hs hrun
      obtain ⟨s₁, hstep, hrest⟩ := foldlM_cons_ok hrun
      exact ih s₁ (hs.step (step_cases hstep)) hrest
  induction as generalizing s with
  | nil =>
    rw [← Except.ok.inj hrun]
    exact .inl ⟨trivial, h⟩
  | cons a as ih =>
    obtain ⟨s₁, hstep, hrest⟩ := foldlM_cons_ok hrun
    by_cases htimely : Timely s a
    · rcases ih (h.step (step_cases hstep) htimely) hrest with ⟨hmeets, hgood⟩ | ⟨hnot, hs'⟩
      · refine .inl ⟨⟨htimely, fun s₂ hs₂ => ?_⟩, hgood⟩
        obtain rfl := Except.ok.inj (hstep.symm.trans hs₂)
        exact hmeets
      · exact .inr ⟨fun hmeets => hnot (hmeets.2 s₁ hstep), hs'⟩
    · exact .inr ⟨fun hmeets => htimely hmeets.1,
        hdoomed as s₁ (h.doomed (step_cases hstep) htimely) hrest⟩

/-- **Who releases the `Inner`.**  If the steps of a run are timely, every state of it is safe.  A
run at whose end all parties are gone ends in a safe state only in that case. -/
theorem safe_iff_timely {as : List (Action T)} {s : State T}
    (hrun : as.foldlM step channel = .ok s) :
    (Meets step Timely channel as →
      ∀ as₁ as₂ s₁, as = as₁ ++ as₂ → as₁.foldlM step channel = .ok s₁ → s₁.Safe) ∧
    (s.AllGone → (s.Safe ↔ Meets step Timely channel as)) := by
  constructor
  · rintro hmeets as₁ as₂ s₁ rfl hrun₁
    rcases good_or_doomed good_channel hrun₁ with ⟨-, hgood⟩ | ⟨hnot, -⟩
    · exact hgood.safe
    · exact absurd hmeets.of_append hnot
  · intro hgone
    rcases good_or_doomed good_channel hrun with ⟨hmeets, hgood⟩ | ⟨hnot, hdoomed⟩
    · exact iff_of_true hgood.safe hmeets
    · exact iff_of_false (hdoomed.not_safe hgone) hnot

/-- The sender is dropped before the receiver. -/
def dropInOrder : List (Action ℕ) :=
  [.dropSender 0, .sender 0, .sender 0, .dropReceiver, .receiver, .receiver, .receiver, .receiver,
    .receiver]

theorem safe_dropInOrder : ∃ s, dropInOrder.foldlM step channel = .ok s ∧ s.released = 1 ∧
    Meets step Timely channel dropInOrder := by
  have hrun : ∃ s, dropInOrder.foldlM step channel = .ok s ∧ s.AllGone ∧ s.released = 1 ∧
      s.misused = false := ⟨_, rfl, by decide, rfl, rfl⟩
  obtain ⟨s, hs, hgone, hreleased, hmisused⟩ := hrun
  refine ⟨s, hs, hreleased, ((safe_iff_timely hs).2 hgone).mp ⟨hmisused, ?_⟩⟩
  rw [if_pos hgone, hreleased]

/-- The receiver stores `recver`, the last sender leaves and releases the `Inner`, and then the
receiver goes on. -/
def dropAtOnce : List (Action ℕ) :=
  [.dropReceiver, .receiver, .dropSender 0, .sender 0, .sender 0, .sender 0, .receiver]

/-- The parties can both release the `Inner`, and one of them can use it after that. -/
theorem not_always_safe :
    ¬ ∀ (as : List (Action ℕ)) (s : State ℕ), as.foldlM step channel = .ok s → s.Safe := by
  intro h
  have hrun : ∃ s, dropAtOnce.foldlM step channel = .ok s ∧ s.misused = true := ⟨_, rfl, rfl⟩
  obtain ⟨s, hs, hmisused⟩ := hrun
  exact absurd (hmisused.symm.trans (h dropAtOnce s hs).1) (by decide)

end Oneshot

end Vinezombie
