import Vinezombie.Client.QueueOrder
import Vinezombie.Library.Machine

/-!
# The clock of the queue

An instant that is set is the sum of another one and a duration, and there is a last instant.
`set_rate_limit` sets the time point with `checked_add`, and without the sum if there is none.
`pop` sets it with `+`, which panics, after it has removed the message that it is about to return.

* `popUnwinding`: `pop`, with the queue that a panic leaves behind.
* `popKeeps_iff`: when a pop returns the message in front or leaves it in the queue.
* `pops_keep_iff`: the pops of a run.
* `keepsMessages_until_iff`: which rate limits let all runs keep their messages until some time.
-/

namespace Vinezombie

open Library Library.Machine

namespace Queue

variable {M L A : Type}

/-! ## One pop -/

/-- `pop`, with the queue that a panic leaves behind.  The message that was removed by then is
dropped by the panic. -/
def popUnwinding (clockMax now later : ℕ) (q : Queue M L A) :
    Except (Queue M L A) (Popped M × Queue M L A) :=
  match q.queue with
  | value :: rest =>
    let q := { q with queue := rest }
    let delay := q.timepoint - now - q.sub
    if delay = 0 then
      match Instant.checkedAdd clockMax (max q.timepoint later) q.delay with
      | some timepoint => .ok (.msg value, { q with timepoint := timepoint })
      | none => .error q
    else .ok (.timeout (some delay), { q with queue := value :: q.queue })
  | [] => .ok (.timeout none, q)

/-- The message that is popped, if there is one. -/
def Popped.messages : Popped M → List M
  | .msg m => [m]
  | .timeout _ => []

/-- The messages that a pop returned, and those that it left in the queue. -/
def keptBy : Except (Queue M L A) (Popped M × Queue M L A) → List M
  | .ok (popped, q) => Popped.messages popped ++ q.queue
  | .error q => q.queue

/-- What is wanted of a pop: it does not overflow, and the message in front is returned or left in
the queue. -/
structure PopKeeps (clockMax now later : ℕ) (q : Queue M L A) : Prop where
  returns : ∃ r, q.popUnwinding clockMax now later = .ok r
  kept : keptBy (q.popUnwinding clockMax now later) = q.queue

/-- A pop finds no message, or refuses, or the time point that it sets can be represented. -/
def InTime (clockMax now later : ℕ) (q : Queue M L A) : Prop :=
  q.queue = [] ∨ now + q.sub < q.timepoint ∨ q.Representable clockMax later

section Pop

variable {clockMax now later : ℕ} {q : Queue M L A}

theorem popUnwinding_nil (h : q.queue = []) :
    q.popUnwinding clockMax now later = .ok (.timeout none, q) := by
  unfold popUnwinding
  rw [h]

theorem popUnwinding_refused (hne : q.queue ≠ []) (h : now + q.sub < q.timepoint) :
    q.popUnwinding clockMax now later =
      .ok (.timeout (some (q.timepoint - now - q.sub)), q) := by
  obtain ⟨value, rest, hq⟩ := List.exists_cons_of_ne_nil hne
  unfold popUnwinding
  simp only [hq]
  rw [if_neg (by omega), ← hq]

theorem popUnwinding_representable {value : M} {rest : List M} (hq : q.queue = value :: rest)
    (h : q.timepoint ≤ now + q.sub) (hrep : q.Representable clockMax later) :
    q.popUnwinding clockMax now later = .ok (.msg value,
      { q with queue := rest, timepoint := max q.timepoint later + q.delay }) := by
  unfold popUnwinding Instant.checkedAdd
  simp only [hq]
  rw [if_pos (by omega), if_pos (show max q.timepoint later + q.delay ≤ clockMax from hrep)]

/-- **A pop that panics** has taken the message out of the queue. -/
theorem popUnwinding_panic {value : M} {rest : List M} (hq : q.queue = value :: rest)
    (h : q.timepoint ≤ now + q.sub) (hrep : ¬ q.Representable clockMax later) :
    q.popUnwinding clockMax now later = .error { q with queue := rest } := by
  unfold popUnwinding Instant.checkedAdd
  simp only [hq]
  rw [if_pos (by omega), if_neg (show ¬ max q.timepoint later + q.delay ≤ clockMax from hrep)]

/-- The queue that is left by a panic is all that `pop` does not tell. -/
theorem toOption_popUnwinding (clockMax now later : ℕ) (q : Queue M L A) :
    (q.popUnwinding clockMax now later).toOption = q.pop clockMax now later := by
  rcases pop_cases clockMax now later q with ⟨hnil, hp⟩ | ⟨hne, hlt, hp⟩ |
    ⟨value, rest, hq, hle, hrep, hp⟩ | ⟨hne, hle, hrep, hp⟩
  · rw [popUnwinding_nil hnil, hp]
    rfl
  · rw [popUnwinding_refused hne hlt, hp]
    rfl
  · rw [popUnwinding_representable hq hle hrep, hp]
    rfl
  · obtain ⟨value, rest, hq⟩ := List.exists_cons_of_ne_nil hne
    rw [popUnwinding_panic hq hle hrep, hp]
    rfl

/-- **When a pop keeps the messages.** -/
theorem popKeeps_iff : q.PopKeeps clockMax now later ↔ q.InTime clockMax now later := by
  rcases pop_cases clockMax now later q with ⟨hnil, -⟩ | ⟨hne, hlt, -⟩ |
    ⟨value, rest, hq, hle, hrep, -⟩ | ⟨hne, hle, hrep, -⟩
  · have hpop : q.popUnwinding clockMax now later = _ := popUnwinding_nil hnil
    exact iff_of_true ⟨⟨_, hpop⟩, by rw [hpop]; rfl⟩ (.inl hnil)
  · have hpop : q.popUnwinding clockMax now later = _ := popUnwinding_refused hne hlt
    exact iff_of_true ⟨⟨_, hpop⟩, by rw [hpop]; rfl⟩ (.inr (.inl hlt))
  · have hpop := popUnwinding_representable hq hle hrep
    exact iff_of_true ⟨⟨_, hpop⟩, by rw [hpop, hq]; rfl⟩ (.inr (.inr hrep))
  · obtain ⟨value, rest, hq⟩ := List.exists_cons_of_ne_nil hne
    have hpop := popUnwinding_panic hq hle hrep
    refine iff_of_false (fun hkeeps => ?_) ?_
    · obtain ⟨r, hr⟩ := hkeeps.returns
      exact absurd (hpop.symm.trans hr) (by simp)
    · rintro (hnil | hlt | hrep')
      · exact hne hnil
      · omega
      · exact hrep hrep'

end Pop

/-! ## Runs -/

/-- What holds of a call if it is a pop. -/
def Op.OfPop (p : ℕ → ℕ → Queue M L A → Prop) (q : Queue M L A) : Op M L A → Prop
  | .pop now later => p now later q
  | _ => True

/-- The clock shows `last` at most when it is read by a pop. -/
def Op.Until (last : ℕ) : Op M L A → Prop
  | .pop now later => now ≤ last ∧ later ≤ last
  | _ => True

section Runs

variable [Labeler L] [Labeled M] [Adjuster A M] {clockMax : ℕ} {q : Queue M L A} {op : Op M L A}
  {ops : List (Op M L A)}

variable (clockMax) in
/-- The queue after a call. -/
def next (q : Queue M L A) (op : Op M L A) : Except PUnit (Queue M L A) :=
  match q.step clockMax op with
  | some e => .ok e.queue
  | none => .error ⟨⟩

variable (clockMax) in
/-- No pop of a run overflows, and each returns the message in front or leaves it in the queue. -/
def KeepsMessages (q : Queue M L A) (ops : List (Op M L A)) : Prop :=
  Meets (next clockMax) (fun q op => op.OfPop (PopKeeps clockMax) q) q ops

variable (clockMax) in
/-- Every pop of a run finds no message, or refuses, or sets a time point that can be
represented. -/
def KeptInTime (q : Queue M L A) (ops : List (Op M L A)) : Prop :=
  Meets (next clockMax) (fun q op => op.OfPop (InTime clockMax) q) q ops

theorem next_eq_ok {q' : Queue M L A} (h : next clockMax q op = .ok q') :
    ∃ e, q.step clockMax op = some e ∧ e.queue = q' := by
  unfold next at h
  cases hs : q.step clockMax op with
  | none =>
    rw [hs] at h
    exact absurd h (by simp)
  | some e =>
    rw [hs] at h
    exact ⟨e, rfl, Except.ok.inj h⟩

theorem keepsMessages_iff : q.KeepsMessages clockMax ops ↔ q.KeptInTime clockMax ops := by
  have hpop : ∀ (q : Queue M L A) (op : Op M L A),
      op.OfPop (PopKeeps clockMax) q ↔ op.OfPop (InTime clockMax) q := by
    intro q op
    cases op with
    | pop now later => exact popKeeps_iff
    | _ => exact Iff.rfl
  exact ⟨.mono (fun _ => True) (fun q op _ => (hpop q op).mp) (fun _ _ _ _ _ _ => trivial) trivial,
    .mono (fun _ => True) (fun q op _ => (hpop q op).mpr) (fun _ _ _ _ _ _ => trivial) trivial⟩

/-- **The pops of a run**, after `set_rate_limit`. -/
theorem pops_keep_iff (clockMax now delay burst : ℕ) (q : Queue M L A) (ops : List (Op M L A)) :
    (q.setRateLimit clockMax now delay burst).KeepsMessages clockMax ops ↔
      (q.setRateLimit clockMax now delay burst).KeptInTime clockMax ops :=
  keepsMessages_iff

/-- **No sum is beyond the last instant** if the latest reading of the clock leaves room for all the
delays of a burst. -/
theorem keptInTime_of_until {last : ℕ} (hroom : last + q.sub + q.delay ≤ clockMax)
    (hops : ∀ op ∈ ops, op.setsTimepoint = false ∧ op.Until last) :
    q.KeptInTime clockMax ops := by
  induction ops generalizing q with
  | nil => trivial
  | cons op ops ih =>
    obtain ⟨hset, huntil⟩ := hops op List.mem_cons_self
    refine ⟨?_, fun q' hq' => ?_⟩
    · cases op with
      | pop now later =>
        by_cases hlt : now + q.sub < q.timepoint
        · exact .inr (.inl hlt)
        · refine .inr (.inr ?_)
          have hnow : now ≤ last := huntil.1
          have hlater : later ≤ last := huntil.2
          show max q.timepoint later + q.delay ≤ clockMax
          omega
      | _ => trivial
    · obtain ⟨e, he, rfl⟩ := next_eq_ok hq'
      have hpaced := paced_step hset he
      exact ih (by rw [hpaced.delay, hpaced.sub]; exact hroom)
        fun op' hop' => hops op' (List.mem_cons_of_mem _ hop')

/-- A pop of such a run that is not refused. -/
theorem KeptInTime.of_pop {now later : ℕ} {value : M} {rest : List M}
    (h : q.KeptInTime clockMax (.pop now later :: ops)) (hq : q.queue = value :: rest)
    (hle : q.timepoint ≤ now + q.sub) :
    q.Representable clockMax later ∧
      { q with queue := rest, timepoint := max q.timepoint later + q.delay : Queue M L A
        }.KeptInTime clockMax ops := by
  have hrep : q.Representable clockMax later := by
    rcases h.1 with hnil | hlt | hrep
    · rw [hq] at hnil
      exact absurd hnil (List.cons_ne_nil _ _)
    · omega
    · exact hrep
  refine ⟨hrep, h.2 _ ?_⟩
  have hpop : q.pop clockMax now later = some (.msg value,
      { q with queue := rest, timepoint := max q.timepoint later + q.delay }) := by
    rw [← toOption_popUnwinding, popUnwinding_representable hq hle hrep]
    rfl
  have hstep : q.step clockMax (.pop now later) = some
      ⟨{ q with queue := rest, timepoint := max q.timepoint later + q.delay },
        [⟨value, now, later⟩], []⟩ := by
    show (q.pop clockMax now later).map _ = _
    rw [hpop]
    rfl
  unfold next
  rw [hstep]

/-- Pops at one time, none of which is refused: the time point is `spent` delays ahead at first, and
one more after each of them. -/
theorem le_clockMax_of_pops {last spent n : ℕ} (hqueue : n < q.queue.length)
    (htime : max q.timepoint last = last + spent * q.delay)
    (hsub : q.sub = (spent + n) * q.delay)
    (h : q.KeptInTime clockMax (List.replicate (n + 1) (.pop last last))) :
    last + (spent + n + 1) * q.delay ≤ clockMax := by
  induction n generalizing q spent with
  | zero =>
    obtain ⟨value, rest, hq⟩ := List.exists_cons_of_length_pos hqueue
    rw [Nat.add_zero] at hsub
    obtain ⟨hrep, -⟩ := h.of_pop hq (by omega)
    have hsum : max q.timepoint last + q.delay ≤ clockMax := hrep
    rw [Nat.add_zero, Nat.succ_mul]
    omega
  | succ n ih =>
    obtain ⟨value, rest, hq⟩ := List.exists_cons_of_length_pos (Nat.zero_lt_of_lt hqueue)
    have hspent : spent * q.delay ≤ (spent + (n + 1)) * q.delay :=
      Nat.mul_le_mul_right _ (Nat.le_add_right _ _)
    obtain ⟨-, hnext⟩ := h.of_pop hq (by omega)
    have hrest : n < rest.length := by
      rw [hq, List.length_cons] at hqueue
      omega
    have hmoved : max (max q.timepoint last + q.delay) last = last + (spent + 1) * q.delay := by
      rw [Nat.succ_mul]
      omega
    have hsub' : q.sub = (spent + 1 + n) * q.delay := by
      rw [hsub, Nat.add_right_comm, Nat.add_assoc]
    have hroom := ih (q := { q with queue := rest, timepoint := max q.timepoint last + q.delay })
      hrest hmoved hsub' hnext
    rwa [Nat.add_right_comm spent 1 n] at hroom

/-- **The rate limits that are safe until some time.**  Runs are those in which the clock
shows `last` at most; the rate limit is one that does not saturate, and at `last` the first wait for
it is over. -/
theorem keepsMessages_until_iff [Inhabited M] {now delay burst last : ℕ} (q : Queue M L A)
    (hburst : delay * burst ≤ Duration.max)
    (hlast : (q.setRateLimit clockMax now delay burst).timepoint ≤ last) :
    (∀ ops : List (Op M L A), (∀ op ∈ ops, op.setsTimepoint = false ∧ op.Until last) →
        (q.setRateLimit clockMax now delay burst).KeepsMessages clockMax ops) ↔
      last + (burst + 1) * delay ≤ clockMax := by
  have hsub : (q.setRateLimit clockMax now delay burst).sub = burst * delay :=
    setRateLimit_sub hburst q
  constructor
  · intro h
    have hops : ∀ op ∈ (.extend (List.replicate (burst + 1) default) : Op M L A) ::
        List.replicate (burst + 1) (.pop last last),
        op.setsTimepoint = false ∧ op.Until last := by
      intro op hop
      rcases List.mem_cons.mp hop with rfl | hop
      · exact ⟨rfl, trivial⟩
      · rw [List.eq_of_mem_replicate hop]
        exact ⟨rfl, Nat.le_refl _, Nat.le_refl _⟩
    have hkept := (keepsMessages_iff.mp (h _ hops)).2 _ rfl
    have hpops : max (q.setRateLimit clockMax now delay burst).timepoint last =
        last + 0 * delay := by
      rw [Nat.zero_mul]
      exact max_eq_right hlast
    have hroom := le_clockMax_of_pops
      (q := (q.setRateLimit clockMax now delay burst).extend (List.replicate (burst + 1) default))
      (by simp [extend]; omega) hpops (by rw [Nat.zero_add]; exact hsub) hkept
    rwa [Nat.zero_add] at hroom
  · intro hroom ops hops
    refine keepsMessages_iff.mpr (keptInTime_of_until ?_ hops)
    rw [hsub]
    rw [Nat.succ_mul, ← Nat.add_assoc] at hroom
    exact hroom

end Runs

/-- A delay that `set_rate_limit` accepts and `pop` cannot add to any time. -/
def longest : Queue ClientMsg DefaultLabeler (MultiAdjuster Empty) :=
  (fromQueue 0 [quit]).setRateLimit lastInstant 0 Duration.max 0

/-- The message that such a queue loses. -/
theorem not_keepsMessages_longest :
    ¬ longest.KeepsMessages lastInstant [.pop 0 0] ∧
      longest.popUnwinding lastInstant 0 0 = .error { longest with queue := [] } := by
  refine ⟨fun h => ?_, rfl⟩
  have hkept := keepsMessages_iff.mp h
  rcases hkept.1 with hnil | hlt | hrep
  · exact absurd hnil (by simp [longest, setRateLimit, fromQueue])
  · exact absurd hlt (by decide)
  · exact absurd hrep (by decide)

end Queue

end Vinezombie
