import Vinezombie.Client.Queue
import Vinezombie.Library.TokenBucket

/-!
# Runs of the rate-limited queue

A run is a list of calls on a queue.  What comes out of it is the queue at its end, the messages
that were popped, with the clock at the pop, and those that were dropped.

* `paced_step`: what one call does to the time point.
* `conforms_run`, `popped_length_le`: the rate limit, over runs.
-/

namespace Vinezombie

open Library

namespace Queue

/-! ## Calls -/

/-- A call on a `QueueEditGuard`. -/
inductive EditCall (M : Type) where
  | push (msg : M)
  | pushLabeled (msg : M)
  | clear

/-- A call on a queue.  A call on a guard comes with the `orig_len` of that guard, which may have
been made at any earlier time from the queue or from another guard. -/
inductive Op (M L A : Type) where
  | pop (now later : ℕ)
  | edit (origLen : ℕ) (call : EditCall M)
  | extend (iter : List M)
  | adjust (msg : ServerMsg)
  | clear
  | reset (now : ℕ)
  | setRateLimit (now delay burst : ℕ)
  | useAdjuster (adjuster : A)
  | useNoAdjuster
  | useLabeler (labeler : L)
  | useNoLabeler

/-- A popped message, with what the clock showed both times. -/
structure Taken (M : Type) where
  msg : M
  now : ℕ
  later : ℕ

/-- What comes out of a call or a run. -/
structure Trace (M L A : Type) where
  queue : Queue M L A
  popped : List (Taken M)
  dropped : List M

variable {M L A : Type}

/-- The messages that were popped, and then those that still wait. -/
def Trace.kept (t : Trace M L A) : List M := t.popped.map Taken.msg ++ t.queue.queue

/-- The messages that a call hands over to the queue. -/
def EditCall.arrivals : EditCall M → List M
  | .push msg => [msg]
  | .pushLabeled msg => [msg]
  | .clear => []

/-- The messages that a call puts into the queue. -/
def Op.arrivals : Op M L A → List M
  | .edit _ call => call.arrivals
  | .extend iter => iter
  | _ => []

/-- The calls that set the time point to another than `pop` does. -/
def Op.setsTimepoint : Op M L A → Bool
  | .reset _ => true
  | .setRateLimit _ _ _ => true
  | _ => false

/-- The popped message of a pop, if there is one. -/
def Popped.taken (now later : ℕ) : Popped M → List (Taken M)
  | .msg m => [⟨m, now, later⟩]
  | .timeout _ => []

section Step

variable [Labeler L] [Labeled M] [Adjuster A M] (clockMax : ℕ)

/-- What a call of a guard leaves, and what it takes back. -/
def EditCall.onGuard (g : QueueEditGuard M L A) : EditCall M → Trace M L A
  | .push msg => ⟨(g.push msg).queue, [], []⟩
  | .pushLabeled msg => ⟨(g.pushLabeled msg).2.queue, [], []⟩
  | .clear => ⟨g.clear.queue, [], g.queue.queue.drop g.origLen⟩

/-- The messages that `adjust` removes, as the adjuster left them. -/
def removedBy (msg : ServerMsg) (q : Queue M L A) : List M :=
  match q.adjuster with
  | none => []
  | some adj =>
    match Adjuster.shouldAdjust M adj msg with
    | (true, adj) => removed (Adjuster.updateAll adj q.queue).1
    | (false, _) => []

/-- One call.  There is no result if it panics. -/
def step (q : Queue M L A) : Op M L A → Option (Trace M L A)
  | .pop now later =>
    (q.pop clockMax now later).map fun r => ⟨r.2, Popped.taken now later r.1, []⟩
  | .edit origLen call => some (call.onGuard ⟨q, origLen⟩)
  | .extend iter => some ⟨q.extend iter, [], []⟩
  | .adjust msg => some ⟨q.adjust msg, [], q.removedBy msg⟩
  | .clear => some ⟨q.clear, [], q.queue⟩
  | .reset now => some ⟨q.reset now, [], q.queue⟩
  | .setRateLimit now delay burst => some ⟨q.setRateLimit clockMax now delay burst, [], []⟩
  | .useAdjuster adjuster => some ⟨q.useAdjuster adjuster, [], []⟩
  | .useNoAdjuster => some ⟨q.useNoAdjuster, [], []⟩
  | .useLabeler labeler => some ⟨q.useLabeler labeler, [], []⟩
  | .useNoLabeler => some ⟨q.useNoLabeler, [], []⟩

/-- Calls one after another. -/
def run : Queue M L A → List (Op M L A) → Option (Trace M L A)
  | q, [] => some ⟨q, [], []⟩
  | q, op :: ops =>
    (q.step clockMax op).bind fun e =>
      (run e.queue ops).map fun t => ⟨t.queue, e.popped ++ t.popped, e.dropped ++ t.dropped⟩

variable {clockMax} {q : Queue M L A} {op : Op M L A} {ops : List (Op M L A)} {e t : Trace M L A}

theorem run_cons (h : run clockMax q (op :: ops) = some t) :
    ∃ e t', q.step clockMax op = some e ∧ run clockMax e.queue ops = some t' ∧
      t = ⟨t'.queue, e.popped ++ t'.popped, e.dropped ++ t'.dropped⟩ := by
  obtain ⟨e, he, hmap⟩ := Option.bind_eq_some_iff.mp h
  obtain ⟨t', ht', heq⟩ := Option.map_eq_some_iff.mp hmap
  exact ⟨e, t', he, ht', heq.symm⟩

/-! ## The rate limit -/

/-- The two times of a popped message. -/
def Taken.times (p : Taken M) : ℕ × ℕ := (p.now, p.later)

/-- What a call that does not set the time point does to it. -/
structure Paced (q : Queue M L A) (e : Trace M L A) : Prop where
  delay : e.queue.delay = q.delay
  sub : e.queue.sub = q.sub
  timepoint : (e.popped = [] ∧ e.queue.timepoint = q.timepoint) ∨
    ∃ p, e.popped = [p] ∧ q.timepoint ≤ p.now + q.sub ∧
      e.queue.timepoint = max q.timepoint p.later + q.delay

omit [Labeler L] [Labeled M] [Adjuster A M] in
/-- A call that leaves the three fields alone. -/
theorem Paced.of_eq (hdelay : e.queue.delay = q.delay) (hsub : e.queue.sub = q.sub)
    (htime : e.queue.timepoint = q.timepoint) (hpopped : e.popped = []) : Paced q e :=
  ⟨hdelay, hsub, .inl ⟨hpopped, htime⟩⟩

theorem paced_pop {now later : ℕ} (h : q.step clockMax (.pop now later) = some e) : Paced q e := by
  obtain ⟨r, hr, he⟩ := Option.map_eq_some_iff.mp h
  subst he
  rcases pop_cases clockMax now later q with ⟨-, hp⟩ | ⟨-, -, hp⟩ | ⟨v, rest, -, hle, -, hp⟩ |
    ⟨-, -, -, hp⟩
  · obtain rfl := Option.some.inj (hr.symm.trans hp)
    exact .of_eq rfl rfl rfl rfl
  · obtain rfl := Option.some.inj (hr.symm.trans hp)
    exact .of_eq rfl rfl rfl rfl
  · obtain rfl := Option.some.inj (hr.symm.trans hp)
    exact ⟨rfl, rfl, .inr ⟨_, rfl, hle, rfl⟩⟩
  · exact absurd (hr.symm.trans hp) (by simp)

omit [Labeler L] [Labeled M] in
theorem paced_adjust (msg : ServerMsg) (q : Queue M L A) (dropped : List M) :
    Paced q ⟨q.adjust msg, [], dropped⟩ := by
  have hfields : (q.adjust msg).delay = q.delay ∧ (q.adjust msg).sub = q.sub ∧
      (q.adjust msg).timepoint = q.timepoint := by
    unfold adjust
    split
    · exact ⟨rfl, rfl, rfl⟩
    · split
      · exact ⟨rfl, rfl, rfl⟩
      · exact ⟨rfl, rfl, rfl⟩
  exact .of_eq hfields.1 hfields.2.1 hfields.2.2 rfl

omit [Adjuster A M] in
theorem paced_onGuard (origLen : ℕ) (call : EditCall M) (q : Queue M L A) :
    Paced q (call.onGuard ⟨q, origLen⟩) := by
  cases call with
  | push msg => exact .of_eq rfl rfl rfl rfl
  | pushLabeled msg =>
    unfold EditCall.onGuard QueueEditGuard.pushLabeled
    cases hl : q.labeler with
    | none => exact .of_eq rfl rfl rfl rfl
    | some labeler => exact .of_eq rfl rfl rfl rfl
  | clear => exact .of_eq rfl rfl rfl rfl

theorem paced_step (hop : op.setsTimepoint = false) (h : q.step clockMax op = some e) :
    Paced q e := by
  cases op with
  | pop now later => exact paced_pop h
  | edit origLen call =>
    obtain rfl := Option.some.inj h
    exact paced_onGuard origLen call q
  | adjust msg =>
    obtain rfl := Option.some.inj h
    exact paced_adjust msg q _
  | reset now => exact absurd hop (by simp [Op.setsTimepoint])
  | setRateLimit now delay burst => exact absurd hop (by simp [Op.setsTimepoint])
  | extend iter | clear | useAdjuster adjuster | useNoAdjuster | useLabeler labeler
  | useNoLabeler =>
    obtain rfl := Option.some.inj h
    exact .of_eq rfl rfl rfl rfl

/-- **The pops of a run conform to the token bucket.** -/
theorem conforms_run (hops : ∀ op ∈ ops, op.setsTimepoint = false)
    (h : run clockMax q ops = some t) :
    TokenBucket.Conforms q.delay q.sub q.timepoint (t.popped.map Taken.times) := by
  induction ops generalizing q t with
  | nil =>
    obtain rfl := Option.some.inj h
    trivial
  | cons op ops ih =>
    obtain ⟨e, t', he, ht', rfl⟩ := run_cons h
    have hpaced := paced_step (hops op List.mem_cons_self) he
    have hrest := ih (fun op' hop' => hops op' (List.mem_cons_of_mem _ hop')) ht'
    rw [hpaced.delay, hpaced.sub] at hrest
    rcases hpaced.timepoint with ⟨hnone, htime⟩ | ⟨p, hp, hle, htime⟩
    · rw [htime] at hrest
      simpa only [hnone, List.nil_append] using hrest
    · rw [htime] at hrest
      rw [hp]
      exact ⟨hle, hrest⟩

/-- **The rate limit.**  With a delay of `delay` and a burst of `burst`, a run of successful pops
has at most `burst + 1` messages and one for each delay that passes in it, whatever the time point
was before. -/
theorem popped_length_le {delay burst tFirst tLast : ℕ} {window : List (Taken M)}
    {first last : Taken M} (hdelay : q.delay = delay) (hpos : 0 < delay)
    (hsub : q.sub = burst * delay) (hops : ∀ op ∈ ops, op.setsTimepoint = false)
    (h : run clockMax q ops = some t) (hwindow : window <:+: t.popped)
    (hhead : window.head? = some first) (hlast : window.getLast? = some last)
    (hfirst : first.now ≤ tFirst ∧ tFirst ≤ first.later)
    (hle : last.now ≤ tLast ∧ tLast ≤ last.later) :
    window.length ≤ burst + 1 + (tLast - tFirst) / delay := by
  subst hdelay
  have hconf := conforms_run hops h
  rw [hsub] at hconf
  obtain ⟨point, hpoint⟩ := hconf.infix (hwindow.map Taken.times)
  have hhead' : (window.map Taken.times).head? = some first.times := by
    rw [List.head?_map, hhead]
    rfl
  have hlast' : (window.map Taken.times).getLast? = some last.times := by
    rw [List.getLast?_map, hlast]
    rfl
  have hlen := hpoint.length_le hpos hhead' hlast' hfirst.2 hle.1
  rwa [List.length_map] at hlen

end Step

/-- A rate limit that does not saturate. -/
theorem setRateLimit_sub {clockMax now delay burst : ℕ} (h : delay * burst ≤ Duration.max)
    (q : Queue M L A) : (q.setRateLimit clockMax now delay burst).sub = burst * delay := by
  show min (delay * burst) Duration.max = burst * delay
  rw [min_eq_left h, Nat.mul_comm]

/-- `QUIT`. -/
def quit : ClientMsg := ClientMsg.new (.fromStr "QUIT")

/-- Two messages are pushed at once, and popped one after another. -/
def twoPops : List (Op ClientMsg DefaultLabeler (MultiAdjuster Empty)) :=
  [.edit 0 (.push quit), .edit 0 (.push quit), .pop 1 1, .pop 2 3]

theorem popped_length_le_twoPops :
    ∃ t, run (10 ^ 18) ((new 0).setRateLimit (10 ^ 18) 0 1 4) twoPops = some t ∧
      t.popped.length ≤ 4 + 1 + (2 - 1) / 1 := by
  have hrun : ∃ t, run (10 ^ 18) ((new 0).setRateLimit (10 ^ 18) 0 1 4) twoPops = some t ∧
      t.popped = [⟨quit, 1, 1⟩, ⟨quit, 2, 3⟩] := ⟨_, rfl, rfl⟩
  have hops : ∀ op ∈ twoPops, op.setsTimepoint = false := by simp [twoPops, Op.setsTimepoint]
  obtain ⟨t, hrun, hpopped⟩ := hrun
  have hhead : t.popped.head? = some ⟨quit, 1, 1⟩ := by
    rw [hpopped]
    rfl
  have hlast : t.popped.getLast? = some ⟨quit, 2, 3⟩ := by
    rw [hpopped]
    rfl
  exact ⟨t, hrun, popped_length_le rfl Nat.one_pos (setRateLimit_sub (by decide) (new 0)) hops hrun
    (List.infix_refl _) hhead hlast ⟨Nat.le_refl 1, Nat.le_refl 1⟩ ⟨Nat.le_refl 2, by decide⟩⟩

end Queue

end Vinezombie
