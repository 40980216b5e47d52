import Vinezombie.Message.Codec

/-!
# The rate-limited queue

`client/queue.rs`.  Durations and instants are natural numbers of nanoseconds.  An instant has a
last value, which depends on the platform and is `clockMax` here: `Instant::checked_add` returns
`None` beyond it, and `+` panics there, which is `none` in the results of `pop`.  Functions that
read the clock take what it shows; `pop` may read it twice.

Labelers and adjusters are trait objects in the source; here they are the values of types `L` and
`A` with the functions of `Labeler` and `Adjuster`.  The queue is generic in its messages, which are
`ClientMsg` in the source, so that the same functions also move messages that carry a mark.

* `Queue`, `QueueEditGuard`: the queue and its calls.
* `pop_cases`: the four things that `pop` can do.
* `pop_refused_iff`, `pop_front_iff`: when it refuses, and when it returns a message.
-/

namespace Vinezombie

/-! ## Time -/

namespace Duration

/-- `Duration::from_secs`. -/
def fromSecs (secs : ℕ) : ℕ := secs * 10 ^ 9

/-- `Duration::MAX`. -/
def max : ℕ := 2 ^ 64 * 10 ^ 9 - 1

/-- `Duration::saturating_mul`. -/
def saturatingMul (d rhs : ℕ) : ℕ := min (d * rhs) max

/-- `Duration::saturating_add`. -/
def saturatingAdd (d rhs : ℕ) : ℕ := min (d + rhs) max

end Duration

/-- `Instant::checked_add`. -/
def Instant.checkedAdd (clockMax instant duration : ℕ) : Option ℕ :=
  if instant + duration ≤ clockMax then some (instant + duration) else none

/-! ## Labelers -/

/-- `FnMut() -> NoNul<'static>`. -/
class Labeler (L : Type) where
  label : L → NoNul × L

/-- Messages that can be labeled. -/
class Labeled (M : Type) where
  insertLabel : NoNul → M → M

/-- The key of the tag that holds the label. -/
def labelKey : Key := .fromStr "label"

/-- `msg.tags.edit().insert_pair(Key::from_str("label"), label)`, and the drop of the guard. -/
instance : Labeled ClientMsg where
  insertLabel label msg :=
    { msg with tags := ⟨(msg.tags.pairs.edit.insert Prod.fst (labelKey, label)).2.drop Prod.fst⟩ }

theorem isInvalidForUser_hexDigit {n : ℕ} (h : n < 16) :
    isInvalidForUser true (hexDigit n) = false := by
  have hall : ∀ k : Fin 16, isInvalidForUser true (hexDigit k) = false := by decide
  exact hall ⟨n, h⟩

/-- `User::from_id`. -/
def User.fromId (id : UInt32) : User where
  bytes := byte 'i' :: (List.range 8).reverse.map fun k => hexDigit (id.toNat / 16 ^ k % 16)
  valid := StringType.user.findInvalid_eq_none_iff.mpr ⟨rfl, by
    intro b hb
    rcases List.mem_cons.mp hb with hb | hb
    · rw [hb]
      rfl
    · obtain ⟨k, -, hk⟩ := List.mem_map.mp hb
      rw [← hk]
      exact isInvalidForUser_hexDigit (Nat.mod_lt _ (by decide))⟩

/-- The labeler of `use_labeler_default`, with the number that it counts up. -/
structure DefaultLabeler where
  id : UInt32

instance : Labeler DefaultLabeler where
  label labeler := ((User.fromId (labeler.id + 1)).toArg.toWord.toNoNul, ⟨labeler.id + 1⟩)

/-! ## Adjusters -/

/-- `Adjuster`, for messages of type `M`. -/
class Adjuster (A M : Type) where
  shouldAdjust : A → ServerMsg → Bool × A
  /-- The verdict, the message as it was updated, and the adjuster. -/
  update : A → M → Bool × M × A
  reset : A → A

/-- The calls of `VecDeque::retain_mut` to the adjuster: each message as it was updated, with the
verdict on it. -/
def Adjuster.updateAll {A M : Type} [Adjuster A M] : A → List M → List (Bool × M) × A
  | adj, [] => ([], adj)
  | adj, cmsg :: rest =>
    let (keep, cmsg, adj) := update adj cmsg
    let (visited, adj) := updateAll adj rest
    ((keep, cmsg) :: visited, adj)

/-- What `retain_mut` keeps. -/
def retained {M : Type} (visited : List (Bool × M)) : List M :=
  (visited.filter fun v => v.1).map Prod.snd

/-- What `retain_mut` removes. -/
def removed {M : Type} (visited : List (Bool × M)) : List M :=
  (visited.filter fun v => !v.1).map Prod.snd

/-- No adjusters. -/
instance {M : Type} : Adjuster Empty M where
  shouldAdjust adj := adj.elim
  update adj := adj.elim
  reset adj := adj

/-- `MultiAdjuster`. -/
structure MultiAdjuster (A : Type) where
  adjusters : List (A × Bool)

namespace MultiAdjuster

variable {A M : Type} [Adjuster A M]

/-- A `MultiAdjuster` without adjusters. -/
def new : MultiAdjuster A := ⟨[]⟩

/-- The loop of `update`. -/
def updateLoop (retval : Bool) : List (A × Bool) → M → Bool × M × List (A × Bool)
  | [], msg => (retval, msg, [])
  | (adj, true) :: rest, msg =>
    let (keep, msg, adj) := Adjuster.update adj msg
    let (retval, msg, rest) := updateLoop (retval && keep) rest msg
    (retval, msg, (adj, true) :: rest)
  | (adj, false) :: rest, msg =>
    let (retval, msg, rest) := updateLoop retval rest msg
    (retval, msg, (adj, false) :: rest)

instance : Adjuster (MultiAdjuster A) M where
  shouldAdjust self msg :=
    let adjusters := self.adjusters.map fun a =>
      ((Adjuster.shouldAdjust M a.1 msg).2, (Adjuster.shouldAdjust M a.1 msg).1)
    (adjusters.any Prod.snd, ⟨adjusters⟩)
  update self msg :=
    let (retval, msg, adjusters) := updateLoop true self.adjusters msg
    (retval, msg, ⟨adjusters⟩)
  reset self := ⟨self.adjusters.map fun a => (Adjuster.reset M a.1, false)⟩

end MultiAdjuster

/-! ## The queue -/

/-- `Queue`. -/
@[ext] structure Queue (M L A : Type) where
  queue : List M
  delay : ℕ
  sub : ℕ
  timepoint : ℕ
  labeler : Option L
  adjuster : Option A

/-- What `pop` leaves its caller with: a message, or the argument of `timeout_fn`. -/
inductive Popped (M : Type) where
  | msg (m : M)
  | timeout (delay : Option ℕ)
  deriving DecidableEq

namespace Queue

variable {M L A : Type}

/-- `from_queue`, with the default rate limit. -/
def fromQueue (now : ℕ) (queue : List M) : Queue M L A where
  queue := queue
  delay := Duration.fromSecs 2
  sub := Duration.fromSecs 8
  timepoint := now
  labeler := none
  adjuster := none

/-- `new`. -/
def new (now : ℕ) : Queue M L A := fromQueue now []

/-- `is_empty`. -/
def isEmpty (q : Queue M L A) : Bool := q.queue.isEmpty

/-- `len`. -/
def len (q : Queue M L A) : ℕ := q.queue.length

/-- `set_rate_limit`. -/
def setRateLimit (clockMax now delay burst : ℕ) (q : Queue M L A) : Queue M L A :=
  let sub := Duration.saturatingMul delay burst
  { q with
    delay := delay
    sub := sub
    timepoint :=
      (Instant.checkedAdd clockMax now (Duration.saturatingAdd sub delay)).getD now }

/-- `pop`, where the clock shows `now` when it is read first and `later` when it is read again. -/
def pop (clockMax now later : ℕ) (q : Queue M L A) : Option (Popped M × Queue M L A) :=
  match q.queue with
  | value :: rest =>
    let delay := q.timepoint - now - q.sub
    if delay = 0 then
      (Instant.checkedAdd clockMax (max q.timepoint later) q.delay).map fun timepoint =>
        (.msg value, { q with queue := rest, timepoint := timepoint })
    else some (.timeout (some delay), { q with queue := value :: rest })
  | [] => some (.timeout none, q)

/-- `adjust`. -/
def adjust [Adjuster A M] (msg : ServerMsg) (q : Queue M L A) : Queue M L A :=
  match q.adjuster with
  | none => q
  | some adj =>
    match Adjuster.shouldAdjust M adj msg with
    | (true, adj) =>
      { q with
        queue := retained (Adjuster.updateAll adj q.queue).1
        adjuster := some (Adjuster.updateAll adj q.queue).2 }
    | (false, adj) => { q with adjuster := some adj }

/-- `use_adjuster`. -/
def useAdjuster (adjuster : A) (q : Queue M L A) : Queue M L A :=
  { q with adjuster := some adjuster }

/-- `use_no_adjuster`. -/
def useNoAdjuster (q : Queue M L A) : Queue M L A := { q with adjuster := none }

/-- `use_labeler`. -/
def useLabeler (labeler : L) (q : Queue M L A) : Queue M L A := { q with labeler := some labeler }

/-- `use_no_labeler`. -/
def useNoLabeler (q : Queue M L A) : Queue M L A := { q with labeler := none }

/-- `is_using_labeler`. -/
def isUsingLabeler (q : Queue M L A) : Bool := q.labeler.isSome

/-- `clear`. -/
def clear (q : Queue M L A) : Queue M L A := { q with queue := [] }

/-- `reset`, which keeps the rate limit and the adjuster. -/
def reset [Adjuster A M] (now : ℕ) (q : Queue M L A) : Queue M L A :=
  let q := q.clear.useNoLabeler
  { q with timepoint := now, adjuster := q.adjuster.map (Adjuster.reset M) }

/-- `extend`. -/
def extend (iter : List M) (q : Queue M L A) : Queue M L A := { q with queue := q.queue ++ iter }

end Queue

/-- `QueueEditGuard`. -/
structure QueueEditGuard (M L A : Type) where
  queue : Queue M L A
  origLen : ℕ

/-- `Queue::edit`. -/
def Queue.edit {M L A : Type} (q : Queue M L A) : QueueEditGuard M L A := ⟨q, q.len⟩

namespace QueueEditGuard

variable {M L A : Type}

/-- `push` of a guard. -/
def push (msg : M) (g : QueueEditGuard M L A) : QueueEditGuard M L A :=
  { g with queue := { g.queue with queue := g.queue.queue ++ [msg] } }

/-- `push_labeled`, with the label if there is a labeler. -/
def pushLabeled [Labeler L] [Labeled M] (msg : M) (g : QueueEditGuard M L A) :
    Option NoNul × QueueEditGuard M L A :=
  match g.queue.labeler with
  | none => (none, g.push msg)
  | some labeler =>
    let (label, labeler) := Labeler.label labeler
    (some label,
      push (Labeled.insertLabel label msg) { g with queue := g.queue.useLabeler labeler })

/-- `is_using_labeler` of a guard. -/
def isUsingLabeler (g : QueueEditGuard M L A) : Bool := g.queue.labeler.isSome

/-- `len` of a guard: how many messages were added. -/
def len (g : QueueEditGuard M L A) : ℕ := g.queue.queue.length - g.origLen

/-- `is_empty` of a guard. -/
def isEmpty (g : QueueEditGuard M L A) : Bool := g.len == 0

/-- `clear` of a guard, which takes back what was added. -/
def clear (g : QueueEditGuard M L A) : QueueEditGuard M L A :=
  { g with queue := { g.queue with queue := g.queue.queue.take g.origLen } }

/-- A guard that borrows from this one. -/
def edit (g : QueueEditGuard M L A) : QueueEditGuard M L A := g.queue.edit

end QueueEditGuard

namespace Queue

variable {M L A : Type}

/-! ## What a pop does -/

/-- The new time point can be represented. -/
def Representable (clockMax later : ℕ) (q : Queue M L A) : Prop :=
  max q.timepoint later + q.delay ≤ clockMax

instance (clockMax later : ℕ) (q : Queue M L A) : Decidable (q.Representable clockMax later) :=
  inferInstanceAs (Decidable (_ ≤ _))

/-- **The four things that a pop can do**: find nothing, refuse, return the message in front, and
panic. -/
theorem pop_cases (clockMax now later : ℕ) (q : Queue M L A) :
    (q.queue = [] ∧ q.pop clockMax now later = some (.timeout none, q)) ∨
    (q.queue ≠ [] ∧ now + q.sub < q.timepoint ∧
      q.pop clockMax now later = some (.timeout (some (q.timepoint - now - q.sub)), q)) ∨
    (∃ value rest, q.queue = value :: rest ∧ q.timepoint ≤ now + q.sub ∧
      q.Representable clockMax later ∧
      q.pop clockMax now later = some (.msg value,
        { q with queue := rest, timepoint := max q.timepoint later + q.delay })) ∨
    (q.queue ≠ [] ∧ q.timepoint ≤ now + q.sub ∧ ¬ q.Representable clockMax later ∧
      q.pop clockMax now later = none) := by
  unfold pop Instant.checkedAdd
  cases hq : q.queue with
  | nil => exact .inl ⟨rfl, rfl⟩
  | cons value rest =>
    refine .inr ?_
    by_cases hdelay : q.timepoint - now - q.sub = 0
    · have hle : q.timepoint ≤ now + q.sub := by omega
      refine .inr ?_
      simp only [hdelay, if_true]
      by_cases hrep : q.Representable clockMax later
      · refine .inl ⟨value, rest, rfl, hle, hrep, ?_⟩
        rw [if_pos (show max q.timepoint later + q.delay ≤ clockMax from hrep)]
        rfl
      · refine .inr ⟨List.cons_ne_nil _ _, hle, hrep, ?_⟩
        rw [if_neg (show ¬ max q.timepoint later + q.delay ≤ clockMax from hrep)]
        rfl
    · have hlt : now + q.sub < q.timepoint := by omega
      refine .inl ⟨List.cons_ne_nil _ _, hlt, ?_⟩
      simp only [hdelay, if_false]
      rw [← hq]

section Outcomes

variable {clockMax now later w : ℕ} {q q' : Queue M L A} {value : M}

/-- **A refused pop** changes nothing, and gives the wait that is left. -/
theorem of_pop_refused (h : q.pop clockMax now later = some (.timeout (some w), q')) :
    q' = q ∧ q.queue ≠ [] ∧ now + q.sub < q.timepoint ∧ w = q.timepoint - now - q.sub := by
  rcases pop_cases clockMax now later q with ⟨-, hp⟩ | ⟨hne, hlt, hp⟩ | ⟨v, r, -, -, -, hp⟩ |
    ⟨-, -, -, hp⟩
  all_goals
    rw [hp] at h
    try simp only [Option.some.injEq, Prod.mk.injEq, Popped.timeout.injEq, reduceCtorEq,
      false_and] at h
  obtain ⟨rfl, rfl⟩ := h
  exact ⟨rfl, hne, hlt, rfl⟩

/-- **When a pop returns the message in front.** -/
theorem pop_front_iff {rest : List M} (hq : q.queue = value :: rest) :
    (∃ q', q.pop clockMax now later = some (.msg value, q')) ↔
      q.timepoint ≤ now + q.sub ∧ q.Representable clockMax later := by
  rcases pop_cases clockMax now later q with ⟨hnil, -⟩ | ⟨-, hlt, hp⟩ | ⟨v, r, hq', hle, hrep, hp⟩ |
    ⟨-, -, hrep, hp⟩
  · rw [hnil] at hq
    exact absurd hq (by simp)
  · rw [hp]
    exact iff_of_false (by simp) (fun hh => absurd hh.1 (by omega))
  · rw [hq] at hq'
    obtain ⟨rfl, rfl⟩ := List.cons.inj hq'
    exact iff_of_true ⟨_, hp⟩ ⟨hle, hrep⟩
  · rw [hp]
    exact iff_of_false (by simp) (fun hh => hrep hh.2)

end Outcomes

end Queue

end Vinezombie
