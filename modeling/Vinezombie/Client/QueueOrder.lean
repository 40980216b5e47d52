import Vinezombie.Client.QueueRuns
import Mathlib.Data.List.Range
import Mathlib.Logic.Relation

/-!
# The order of the messages in the queue

Each message is given a number when it arrives, and the same calls are run on the numbered messages
(`Queue.number`, `numberOps`).  No call looks at the numbers: erasing them gives back the run
(`run_erase`).

* `Keeps`: what calls may do with messages.  It holds of one call (`keeps_step`) and of a run
  (`keeps_run`).
* `fifo`: the order of the messages of a run, and that none is lost or doubled.
* `pop_exact_iff`: when a pop that was refused waits for exactly as long as it says.
-/

namespace Vinezombie

variable {M L A : Type}

/-! ## Numbered messages -/

instance [Labeled M] : Labeled (M × ℕ) where
  insertLabel label msg := (Labeled.insertLabel label msg.1, msg.2)

instance [Adjuster A M] : Adjuster A (M × ℕ) where
  shouldAdjust := Adjuster.shouldAdjust M
  update adj msg :=
    let (keep, updated, adj) := Adjuster.update adj msg.1
    (keep, (updated, msg.2), adj)
  reset := Adjuster.reset M

namespace Queue

/-- The queue with its messages numbered from the front. -/
def number (q : Queue M L A) : Queue (M × ℕ) L A := { q with queue := q.queue.zipIdx }

/-- The queue without the numbers. -/
def erase (q : Queue (M × ℕ) L A) : Queue M L A := { q with queue := q.queue.map Prod.fst }

/-- The call with its messages numbered from `n` on. -/
def EditCall.number (n : ℕ) : EditCall M → EditCall (M × ℕ)
  | .push msg => .push (msg, n)
  | .pushLabeled msg => .pushLabeled (msg, n)
  | .clear => .clear

/-- The call with its messages numbered from `n` on. -/
def Op.number (n : ℕ) : Op M L A → Op (M × ℕ) L A
  | .pop now later => .pop now later
  | .edit origLen call => .edit origLen (call.number n)
  | .extend iter => .extend (iter.zipIdx n)
  | .adjust msg => .adjust msg
  | .clear => .clear
  | .reset now => .reset now
  | .setRateLimit now delay burst => .setRateLimit now delay burst
  | .useAdjuster adjuster => .useAdjuster adjuster
  | .useNoAdjuster => .useNoAdjuster
  | .useLabeler labeler => .useLabeler labeler
  | .useNoLabeler => .useNoLabeler

/-- The calls of a run, with the messages numbered in the order in which they arrive. -/
def numberOps (n : ℕ) : List (Op M L A) → List (Op (M × ℕ) L A)
  | [] => []
  | op :: ops => op.number n :: numberOps (n + op.arrivals.length) ops

/-- What came out of a run, without the numbers. -/
def Trace.erase (t : Trace (M × ℕ) L A) : Trace M L A where
  queue := t.queue.erase
  popped := t.popped.map fun p => ⟨p.msg.1, p.now, p.later⟩
  dropped := t.dropped.map Prod.fst

@[simp] theorem erase_number (q : Queue M L A) : q.number.erase = q := by
  unfold number erase
  rw [List.zipIdx_map_fst]

theorem arrivals_number (n : ℕ) (op : Op M L A) :
    (op.number n).arrivals = op.arrivals.zipIdx n := by
  cases op with
  | edit origLen call => cases call <;> rfl
  | extend iter => rfl
  | _ => rfl

section Runs

variable [Labeler L] [Labeled M] [Adjuster A M] {clockMax : ℕ}

/-! ## No call looks at the numbers -/

theorem erase_pop (now later : ℕ) (q : Queue (M × ℕ) L A) :
    (q.step clockMax (.pop now later)).map Trace.erase =
      q.erase.step clockMax (.pop now later) := by
  unfold step pop
  cases hq : q.queue with
  | nil => simp [erase, hq, Trace.erase, Popped.taken]
  | cons value rest =>
    simp only [erase, hq, List.map_cons]
    split
    · unfold Instant.checkedAdd
      split <;> simp [Trace.erase, Popped.taken, erase]
    · simp [Trace.erase, Popped.taken, erase]

omit [Labeler L] [Labeled M] in
theorem updateAll_erase (adj : A) (msgs : List (M × ℕ)) :
    Adjuster.updateAll adj (msgs.map Prod.fst) =
      ((Adjuster.updateAll adj msgs).1.map fun v => (v.1, v.2.1),
        (Adjuster.updateAll adj msgs).2) := by
  induction msgs generalizing adj with
  | nil => rfl
  | cons msg msgs ih =>
    simp only [List.map_cons, Adjuster.updateAll, ih]
    rfl

omit [Labeled M] in
theorem retained_erase (visited : List (Bool × M × ℕ)) :
    retained (visited.map fun v => (v.1, v.2.1)) = (retained visited).map Prod.fst := by
  simp [retained, List.filter_map, Function.comp_def]

omit [Labeled M] in
theorem removed_erase (visited : List (Bool × M × ℕ)) :
    removed (visited.map fun v => (v.1, v.2.1)) = (removed visited).map Prod.fst := by
  simp [removed, List.filter_map, Function.comp_def]

omit [Labeler L] [Labeled M] in
theorem erase_adjust (msg : ServerMsg) (q : Queue (M × ℕ) L A) :
    (q.adjust msg).erase = q.erase.adjust msg ∧
      (q.removedBy msg).map Prod.fst = q.erase.removedBy msg := by
  unfold adjust removedBy
  cases hadj : q.adjuster with
  | none => simp [erase, hadj]
  | some adj =>
    have hsame : Adjuster.shouldAdjust (M × ℕ) adj msg = Adjuster.shouldAdjust M adj msg := rfl
    rcases hverdict : Adjuster.shouldAdjust M adj msg with ⟨verdict, adj'⟩
    simp only [erase, hadj, hsame, hverdict]
    cases verdict with
    | true => simp only [updateAll_erase, retained_erase, removed_erase, and_self]
    | false => exact ⟨rfl, rfl⟩

omit [Adjuster A M] in
theorem erase_onGuard (n origLen : ℕ) (call : EditCall M) (q : Queue (M × ℕ) L A) :
    ((call.number n).onGuard ⟨q, origLen⟩).erase = call.onGuard ⟨q.erase, origLen⟩ := by
  cases call with
  | push msg => simp [EditCall.number, EditCall.onGuard, QueueEditGuard.push, Trace.erase, erase]
  | pushLabeled msg =>
    unfold EditCall.number EditCall.onGuard QueueEditGuard.pushLabeled
    cases hl : q.labeler with
    | none => simp [QueueEditGuard.push, Trace.erase, erase, hl]
    | some labeler =>
      simp [QueueEditGuard.push, Trace.erase, erase, hl, useLabeler, Labeled.insertLabel]
  | clear => simp [EditCall.number, EditCall.onGuard, QueueEditGuard.clear, Trace.erase, erase]

/-- One call. -/
theorem erase_step (n : ℕ) (op : Op M L A) (q : Queue (M × ℕ) L A) :
    (q.step clockMax (op.number n)).map Trace.erase = q.erase.step clockMax op := by
  cases op with
  | pop now later => exact erase_pop now later q
  | edit origLen call => exact congrArg some (erase_onGuard n origLen call q)
  | extend iter =>
    simp [Op.number, step, extend, Trace.erase, erase]
  | adjust msg =>
    obtain ⟨hq, hdropped⟩ := erase_adjust msg q
    simp [Op.number, step, Trace.erase, hq, hdropped]
  | reset now =>
    simp [Op.number, step, Trace.erase, erase, reset, clear, useNoLabeler]
    rfl
  | _ => rfl

/-- **A run without the numbers is the run without the numbers.** -/
theorem erase_run (n : ℕ) (ops : List (Op M L A)) (q : Queue (M × ℕ) L A) :
    (run clockMax q (numberOps n ops)).map Trace.erase = run clockMax q.erase ops := by
  induction ops generalizing n q with
  | nil => rfl
  | cons op ops ih =>
    have hstep : (q.step clockMax (op.number n)).map Trace.erase = q.erase.step clockMax op :=
      erase_step n op q
    simp only [numberOps, run]
    rw [← hstep]
    cases he : q.step clockMax (op.number n) with
    | none => rfl
    | some e =>
      simp only [Option.bind_some, Option.map_some, Option.map_map]
      have hrest : run clockMax e.erase.queue ops = (run clockMax e.queue
          (numberOps (n + op.arrivals.length) ops)).map Trace.erase := (ih _ e.queue).symm
      rw [hrest, Option.map_map]
      congr 1
      funext t
      simp [Trace.erase]

/-! ## What becomes of the messages -/

variable (A) in
/-- What labels and adjusters can make of a message in one go. -/
def Changed (before after : M) : Prop :=
  (∃ label, after = Labeled.insertLabel label before) ∨
    ∃ adj : A, after = (Adjuster.update adj before).2.1

variable (A) in
/-- A numbered message, before and after labels and adjusters. -/
def Becomes (before after : M × ℕ) : Prop :=
  before.2 = after.2 ∧ Relation.ReflTransGen (Changed A) before.1 after.1

omit [Labeler L] in
theorem Becomes.refl (m : M × ℕ) : Becomes A m m := ⟨rfl, .refl⟩

omit [Labeler L] in
theorem Becomes.trans {m₀ m₁ m₂ : M × ℕ} (h : Becomes A m₀ m₁) (h' : Becomes A m₁ m₂) :
    Becomes A m₀ m₂ :=
  ⟨h.1.trans h'.1, h.2.trans h'.2⟩

variable (A) in
/-- What calls do that begin with the messages `before`, those that they are handed over included:
the numbers of the messages that are popped or still wait are in the order of `before`, every number
is that of a message which is popped, waits or was dropped, and each of these comes from the one
with its number. -/
structure Keeps (before kept dropped : List (M × ℕ)) : Prop where
  sublist : (kept.map Prod.snd).Sublist (before.map Prod.snd)
  perm : ((kept ++ dropped).map Prod.snd).Perm (before.map Prod.snd)
  becomes : ∀ m ∈ kept ++ dropped, ∃ m₀ ∈ before, Becomes A m₀ m

namespace Keeps

variable {before kept dropped : List (M × ℕ)}

omit [Labeler L]

/-- Messages that are all kept as they are. -/
theorem refl (before : List (M × ℕ)) : Keeps A before before [] where
  sublist := .refl _
  perm := by rw [List.append_nil]
  becomes m hm := ⟨m, by rwa [List.append_nil] at hm, .refl m⟩

/-- Messages that are kept in front, and those behind them that are dropped. -/
theorem split (kept dropped : List (M × ℕ)) : Keeps A (kept ++ dropped) kept dropped where
  sublist := (List.sublist_append_left kept dropped).map _
  perm := .refl _
  becomes m hm := ⟨m, hm, .refl m⟩

/-- The message in front is kept, whatever is done with the others. -/
theorem cons (h : Keeps A before kept dropped) {m₀ m : M × ℕ} (hm : Becomes A m₀ m) :
    Keeps A (m₀ :: before) (m :: kept) dropped where
  sublist := by
    rw [List.map_cons, List.map_cons, hm.1]
    exact h.sublist.cons_cons m.2
  perm := by
    rw [List.cons_append, List.map_cons, List.map_cons, hm.1]
    exact h.perm.cons m.2
  becomes m' hm' := by
    rcases List.mem_cons.mp hm' with rfl | hm'
    · exact ⟨m₀, List.mem_cons_self, hm⟩
    · obtain ⟨m₁, hm₁, hbecomes⟩ := h.becomes m' hm'
      exact ⟨m₁, List.mem_cons_of_mem _ hm₁, hbecomes⟩

/-- The message in front is dropped. -/
theorem drop (h : Keeps A before kept dropped) {m₀ m : M × ℕ} (hm : Becomes A m₀ m) :
    Keeps A (m₀ :: before) kept (m :: dropped) where
  sublist := (h.sublist.cons m₀.2)
  perm := by
    rw [List.map_append, List.map_cons, List.map_cons, hm.1]
    refine List.perm_middle.trans ?_
    rw [← List.map_append]
    exact h.perm.cons m.2
  becomes m' hm' := by
    rcases List.mem_append.mp hm' with hm' | hm'
    · obtain ⟨m₁, hm₁, hbecomes⟩ := h.becomes m' (List.mem_append_left _ hm')
      exact ⟨m₁, List.mem_cons_of_mem _ hm₁, hbecomes⟩
    · rcases List.mem_cons.mp hm' with rfl | hm'
      · exact ⟨m₀, List.mem_cons_self, hm⟩
      · obtain ⟨m₁, hm₁, hbecomes⟩ := h.becomes m' (List.mem_append_right _ hm')
        exact ⟨m₁, List.mem_cons_of_mem _ hm₁, hbecomes⟩

/-- **Calls one after another.**  The first ones pop `popped` and leave `waiting`, to which `others`
are added before the second ones. -/
theorem trans {popped waiting others kept' dropped' : List (M × ℕ)}
    (h : Keeps A before (popped ++ waiting) dropped)
    (h' : Keeps A (waiting ++ others) kept' dropped') :
    Keeps A (before ++ others) (popped ++ kept') (dropped ++ dropped') where
  sublist := by
    have hfirst := h.sublist
    have hsecond := h'.sublist
    rw [List.map_append] at hfirst hsecond ⊢
    have hmiddle := hfirst.append_right (others.map Prod.snd)
    rw [List.append_assoc] at hmiddle
    rw [List.map_append]
    exact (hsecond.append_left (popped.map Prod.snd)).trans hmiddle
  perm := by
    refine List.perm_iff_count.mpr fun n => ?_
    have hfirst := h.perm.count_eq n
    have hsecond := h'.perm.count_eq n
    simp only [List.map_append, List.count_append] at hfirst hsecond ⊢
    omega
  becomes m hm := by
    have hcases : m ∈ popped ++ waiting ++ dropped ∨ m ∈ kept' ++ dropped' := by
      simp only [List.mem_append] at hm ⊢
      grind
    rcases hcases with hm | hm
    · obtain ⟨m₀, hm₀, hbecomes⟩ := h.becomes m hm
      exact ⟨m₀, List.mem_append_left _ hm₀, hbecomes⟩
    · obtain ⟨m₁, hm₁, hbecomes⟩ := h'.becomes m hm
      rcases List.mem_append.mp hm₁ with hm₁ | hm₁
      · obtain ⟨m₀, hm₀, hbecomes₀⟩ := h.becomes m₁
          (List.mem_append_left _ (List.mem_append_right _ hm₁))
        exact ⟨m₀, List.mem_append_left _ hm₀, hbecomes₀.trans hbecomes⟩
      · exact ⟨m₁, List.mem_append_right _ hm₁, hbecomes⟩

end Keeps

omit [Labeler L] in
theorem keeps_updateAll (adj : A) (msgs : List (M × ℕ)) :
    Keeps A msgs (retained (Adjuster.updateAll adj msgs).1)
      (removed (Adjuster.updateAll adj msgs).1) := by
  induction msgs generalizing adj with
  | nil => exact .refl []
  | cons msg msgs ih =>
    have hmsg : Becomes A msg ((Adjuster.update adj msg.1).2.1, msg.2) :=
      ⟨rfl, .single (.inr ⟨adj, rfl⟩)⟩
    have hrest := ih (Adjuster.update adj msg.1).2.2
    have hvisited : (Adjuster.updateAll adj (msg :: msgs)).1 =
        ((Adjuster.update adj msg.1).1, (Adjuster.update adj msg.1).2.1, msg.2) ::
          (Adjuster.updateAll (Adjuster.update adj msg.1).2.2 msgs).1 := rfl
    rw [hvisited]
    unfold retained removed at hrest ⊢
    cases hkeep : (Adjuster.update adj msg.1).1 with
    | true => exact hrest.cons hmsg
    | false => exact hrest.drop hmsg

section Steps

variable {q : Queue (M × ℕ) L A} {e : Trace (M × ℕ) L A}

theorem keeps_pop {now later : ℕ} (h : q.step clockMax (.pop now later) = some e) :
    Keeps A q.queue e.kept e.dropped := by
  obtain ⟨r, hr, rfl⟩ := Option.map_eq_some_iff.mp h
  rcases pop_cases clockMax now later q with ⟨-, hp⟩ | ⟨-, -, hp⟩ | ⟨v, rest, hq, -, -, hp⟩ |
    ⟨-, -, -, hp⟩
  · obtain rfl := Option.some.inj (hr.symm.trans hp)
    exact .refl q.queue
  · obtain rfl := Option.some.inj (hr.symm.trans hp)
    exact .refl q.queue
  · obtain rfl := Option.some.inj (hr.symm.trans hp)
    rw [hq]
    exact .refl (v :: rest)
  · exact absurd (hr.symm.trans hp) (by simp)

theorem keeps_onGuard (origLen : ℕ) (call : EditCall (M × ℕ)) (q : Queue (M × ℕ) L A) :
    Keeps A (q.queue ++ call.arrivals) (call.onGuard ⟨q, origLen⟩).kept
      (call.onGuard ⟨q, origLen⟩).dropped := by
  cases call with
  | push msg => exact .refl (q.queue ++ [msg])
  | pushLabeled msg =>
    unfold EditCall.onGuard QueueEditGuard.pushLabeled
    cases hl : q.labeler with
    | none => exact .refl (q.queue ++ [msg])
    | some labeler =>
      have hmsg : Becomes A msg (Labeled.insertLabel (Labeler.label labeler).1 msg) :=
        ⟨rfl, .single (.inl ⟨_, rfl⟩)⟩
      have hqueue : Keeps A q.queue (q.queue ++ []) [] := by
        rw [List.append_nil]
        exact .refl q.queue
      exact hqueue.trans ((Keeps.refl []).cons hmsg)
  | clear =>
    have hsplit := Keeps.split (A := A) (q.queue.take origLen) (q.queue.drop origLen)
    rw [List.take_append_drop] at hsplit
    rw [show (EditCall.clear : EditCall (M × ℕ)).arrivals = [] from rfl, List.append_nil]
    exact hsplit

omit [Labeler L] in
theorem keeps_adjust (msg : ServerMsg) (q : Queue (M × ℕ) L A) :
    Keeps A q.queue (q.adjust msg).queue (q.removedBy msg) := by
  unfold adjust removedBy
  cases hadj : q.adjuster with
  | none => exact .refl q.queue
  | some adj =>
    rcases hverdict : Adjuster.shouldAdjust (M × ℕ) adj msg with ⟨verdict, adj'⟩
    simp only [hverdict]
    cases verdict with
    | true => exact keeps_updateAll adj' q.queue
    | false => exact .refl q.queue

/-- One call. -/
theorem keeps_step {op : Op (M × ℕ) L A} (h : q.step clockMax op = some e) :
    Keeps A (q.queue ++ op.arrivals) e.kept e.dropped := by
  cases op with
  | pop now later =>
    rw [show (Op.pop now later : Op (M × ℕ) L A).arrivals = [] from rfl, List.append_nil]
    exact keeps_pop h
  | edit origLen call =>
    obtain rfl := Option.some.inj h
    exact keeps_onGuard origLen call q
  | extend iter =>
    obtain rfl := Option.some.inj h
    exact .refl (q.queue ++ iter)
  | adjust msg =>
    obtain rfl := Option.some.inj h
    rw [show (Op.adjust msg : Op (M × ℕ) L A).arrivals = [] from rfl, List.append_nil]
    exact keeps_adjust msg q
  | clear =>
    obtain rfl := Option.some.inj h
    rw [show (Op.clear : Op (M × ℕ) L A).arrivals = [] from rfl, List.append_nil]
    exact .split [] q.queue
  | reset now =>
    obtain rfl := Option.some.inj h
    rw [show (Op.reset now : Op (M × ℕ) L A).arrivals = [] from rfl, List.append_nil]
    exact .split [] q.queue
  | setRateLimit now delay burst | useAdjuster adjuster | useNoAdjuster | useLabeler labeler
  | useNoLabeler =>
    obtain rfl := Option.some.inj h
    rw [show Op.arrivals _ = [] from rfl, List.append_nil]
    exact .refl q.queue

/-- **Runs.** -/
theorem keeps_run {ops : List (Op (M × ℕ) L A)} {t : Trace (M × ℕ) L A}
    (h : run clockMax q ops = some t) :
    Keeps A (q.queue ++ ops.flatMap Op.arrivals) t.kept t.dropped := by
  induction ops generalizing q t with
  | nil =>
    obtain rfl := Option.some.inj h
    rw [List.flatMap_nil, List.append_nil]
    exact .refl q.queue
  | cons op ops ih =>
    obtain ⟨e, t', he, ht', rfl⟩ := run_cons h
    have hstep := keeps_step he
    have hrest := ih ht'
    rw [List.flatMap_cons, ← List.append_assoc q.queue]
    unfold Trace.kept
    rw [List.map_append, List.append_assoc (e.popped.map Taken.msg)]
    exact hstep.trans hrest

end Steps

/-! ## First in, first out -/

omit [Labeler L] [Labeled M] [Adjuster A M] in
theorem arrivals_numberOps (n : ℕ) (ops : List (Op M L A)) :
    (numberOps n ops).flatMap Op.arrivals = (ops.flatMap Op.arrivals).zipIdx n := by
  induction ops generalizing n with
  | nil => rfl
  | cons op ops ih =>
    rw [numberOps, List.flatMap_cons, List.flatMap_cons, arrivals_number, ih,
      List.zipIdx_append]

/-- What a run did with the messages that the queue held and those that arrived.  The same run on
numbered messages shows which is which: the numbers of those that were popped, in order, and of
those that still wait, in order, increase; every number is that of exactly one message that was
popped, waits or was dropped by a call; and nothing but labels and adjusters has changed a message.
-/
def Fifo (clockMax : ℕ) (q : Queue M L A) (ops : List (Op M L A)) (t : Trace M L A) : Prop :=
  ∃ t' : Trace (M × ℕ) L A,
    run clockMax q.number (numberOps q.len ops) = some t' ∧ t'.erase = t ∧
    (t'.kept.map Prod.snd).Pairwise (· < ·) ∧
    ((t'.kept ++ t'.dropped).map Prod.snd).Perm
      (List.range (q.queue ++ ops.flatMap Op.arrivals).length) ∧
    ∀ m ∈ t'.kept ++ t'.dropped, ∃ m₀, (q.queue ++ ops.flatMap Op.arrivals)[m.2]? = some m₀ ∧
      Relation.ReflTransGen (Changed A) m₀ m.1

theorem fifo {q : Queue M L A} {ops : List (Op M L A)} {t : Trace M L A}
    (h : run clockMax q ops = some t) : Fifo clockMax q ops t := by
  have herase : (run clockMax q.number (numberOps q.len ops)).map Trace.erase = some t := by
    rw [erase_run, erase_number, h]
  obtain ⟨t', ht', rfl⟩ := Option.map_eq_some_iff.mp herase
  have hkeeps := keeps_run ht'
  have hbefore : q.number.queue ++ (numberOps q.len ops).flatMap Op.arrivals =
      (q.queue ++ ops.flatMap Op.arrivals).zipIdx := by
    rw [arrivals_numberOps, List.zipIdx_append, Nat.zero_add]
    rfl
  rw [hbefore] at hkeeps
  have hmarks : ((q.queue ++ ops.flatMap Op.arrivals).zipIdx.map Prod.snd) =
      List.range (q.queue ++ ops.flatMap Op.arrivals).length := by
    rw [List.zipIdx_map_snd, List.range_eq_range']
  refine ⟨t', ht', rfl, ?_, ?_, ?_⟩
  · have hsublist := hkeeps.sublist
    rw [hmarks] at hsublist
    exact List.pairwise_lt_range.sublist hsublist
  · rw [← hmarks]
    exact hkeeps.perm
  · intro m hm
    obtain ⟨m₀, hm₀, hnum, hmade⟩ := hkeeps.becomes m hm
    exact ⟨m₀.1, by rw [← hnum]; exact List.mem_zipIdx_iff_getElem?.mp hm₀, hmade⟩

/-! ## The wait of a refused pop -/

/-- A pop on `q'` returns the message in front of `q`. -/
def Succeeds (clockMax now later : ℕ) (q q' : Queue M L A) : Prop :=
  ∃ value rest q'', q.queue = value :: rest ∧ q'.pop clockMax now later = some (.msg value, q'')

/-- What is promised of a pop at the time `now` that calls `timeout_fn` with `wait` and leaves `q'`,
and of the next pop, at the time `t`: the queue is as it was, the wait is not zero, and the next pop
succeeds exactly if the wait is over. -/
structure ExactWait (clockMax now wait t later : ℕ) (q q' : Queue M L A) : Prop where
  unchanged : q' = q
  nonzero : 0 < wait
  exact_iff : Succeeds clockMax t later q q' ↔ now + wait ≤ t

omit [Labeler L] [Labeled M] [Adjuster A M] in
/-- **A refused pop.**  The only thing that can go wrong with the wait is that the next time point
cannot be represented when it is over. -/
theorem exactWait_iff {q q' : Queue M L A} {now now' wait t later : ℕ}
    (h : q.pop clockMax now now' = some (.timeout (some wait), q')) :
    ExactWait clockMax now wait t later q q' ↔
      (now + wait ≤ t → q.Representable clockMax later) := by
  obtain ⟨hsame, hne, hlt, hwait⟩ := of_pop_refused h
  rw [hsame, hwait]
  obtain ⟨value, rest, hq⟩ := List.exists_cons_of_ne_nil hne
  have hsucceeds : Succeeds clockMax t later q q ↔
      q.timepoint ≤ t + q.sub ∧ q.Representable clockMax later := by
    rw [← pop_front_iff hq]
    constructor
    · rintro ⟨value', rest', q'', hq', hp⟩
      obtain ⟨rfl, -⟩ := List.cons.inj (hq.symm.trans hq')
      exact ⟨q'', hp⟩
    · rintro ⟨q'', hp⟩
      exact ⟨value, rest, q'', hq, hp⟩
  have htime : q.timepoint ≤ t + q.sub ↔ now + (q.timepoint - now - q.sub) ≤ t := by omega
  rw [htime] at hsucceeds
  constructor
  · intro hexact hle
    exact (hsucceeds.mp (hexact.exact_iff.mpr hle)).2
  · intro hrep
    refine ⟨rfl, by omega, hsucceeds.trans ⟨fun hh => hh.1, fun hle => ⟨hle, hrep hle⟩⟩⟩

/-- **Refused pops and the order of the messages.**  A refused pop keeps its promises exactly if the
wait is not over at the next pop, or the time point that it would set can be represented.  In every
run the messages are popped in the order in which they arrived, and none is lost or doubled. -/
theorem pop_exact_iff (clockMax : ℕ) (q : Queue M L A) :
    (∀ now now' wait t later q', q.pop clockMax now now' = some (.timeout (some wait), q') →
      (ExactWait clockMax now wait t later q q' ↔
        (now + wait ≤ t → q.Representable clockMax later))) ∧
    ∀ ops t, run clockMax q ops = some t → Fifo clockMax q ops t :=
  ⟨fun _ _ _ _ _ _ h => exactWait_iff h, fun _ _ h => fifo h⟩

end Runs

/-- The last instant of a clock that counts `2 ^ 63` seconds. -/
def lastInstant : ℕ := 2 ^ 63 * 10 ^ 9 - 1

/-- A queue with one message, made when the clock shows 0 and limited to bursts of `2 ^ 32 - 1`
messages with a delay of almost `2 ^ 31` seconds. -/
def slow : Queue ClientMsg DefaultLabeler (MultiAdjuster Empty) :=
  (fromQueue 0 [quit]).setRateLimit lastInstant 0 (2 ^ 31 * 10 ^ 9 - 1)
    (2 ^ 32 - 1)

theorem slow_pop :
    slow.pop lastInstant 0 0 = some (.timeout (some (2 ^ 31 * 10 ^ 9 - 1)), slow) := by
  rfl

/-- A queue with one message and no token. -/
def spent : Queue ClientMsg DefaultLabeler (MultiAdjuster Empty) :=
  (fromQueue 0 [quit]).setRateLimit lastInstant 0 2 1

theorem spent_pop : spent.pop lastInstant 0 0 = some (.timeout (some 2), spent) := by
  rfl

/-- Two messages are pushed, one is popped, and the other one dropped. -/
def twoPushes : List (Op ClientMsg DefaultLabeler (MultiAdjuster Empty)) :=
  [.edit 0 (.push quit), .edit 0 (.push quit), .pop 0 0, .clear]

/-- A refused pop with one that comes too early, one with a pop that comes when the wait is over, and
a run that pops one of two messages. -/
theorem pop_exact_slow :
    ExactWait lastInstant 0 (2 ^ 31 * 10 ^ 9 - 1) 5 5 slow slow ∧
      ExactWait lastInstant 0 2 2 2 spent spent ∧
      ∃ t, run lastInstant (new 0) twoPushes = some t ∧ t.popped.length = 1 ∧
        Fifo lastInstant (new 0) twoPushes t :=
  ⟨((pop_exact_iff lastInstant slow).1 0 0 _ 5 5 slow slow_pop).mpr fun h => absurd h (by decide),
    ((pop_exact_iff lastInstant spent).1 0 0 2 2 2 spent spent_pop).mpr fun _ => by decide,
    _, rfl, rfl, (pop_exact_iff lastInstant (new 0)).2 twoPushes _ rfl⟩

/-- The wait of a refused pop need not be exact: the pop after it can panic. -/
theorem wait_not_exact :
    ¬ ∀ (q q' : Queue ClientMsg DefaultLabeler (MultiAdjuster Empty)) (now now' wait t later : ℕ),
      now ≤ t → t ≤ later → later ≤ lastInstant →
      q.pop lastInstant now now' = some (.timeout (some wait), q') →
      ExactWait lastInstant now wait t later q q' := by
  intro h
  have hexact := h slow slow 0 0 _ (2 ^ 31 * 10 ^ 9 - 1) (2 ^ 31 * 10 ^ 9 - 1) (Nat.zero_le _)
    (Nat.le_refl _) (by decide) slow_pop
  exact absurd ((exactWait_iff slow_pop).mp hexact (by decide)) (by decide)

end Queue

end Vinezombie
