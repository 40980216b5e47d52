import Vinezombie.Client.Run

/-!
# What `run` returns

A call of `run` goes on until a message makes a handler yield or finish, and returns what that
message did.  It returns nothing of a handler when there is nothing left to run, and reports a
timeout only when nothing waits to be sent.

* `run_reported`: what each result says.
* `reported_runs`: over any calls, what is returned is what the messages did, each once and in order.
  A connection that fails while the queue is flushed takes the results of the last message with it.
-/

namespace Vinezombie

open Library

namespace Client

variable {I A L Adj H W E T : Type} [LinearOrder I] [Adjuster Adj ClientMsg] [Connection W E]
  [Handlers.Handler H (ClientState I A × Queue ClientMsg L Adj)]
  [TimeoutFn T (ClientLogic I A L Adj H)] {clockMax parseFuel fuel : ℕ}

/-- Results of messages, but for those that made no handler yield or finish. -/
def reports (results : List (List ℕ × List ℕ)) : List (List ℕ × List ℕ) :=
  results.filter fun ids => ids ≠ ([], [])

omit [LinearOrder I] in
theorem reports_append (results results' : List (List ℕ × List ℕ)) :
    reports (results ++ results') = reports results ++ reports results' :=
  List.filter_append ..

/-- **What a result says** of the messages that were heard and the client then. -/
inductive Reported (log : RunLog) (c : Client I A L Adj H W E T) :
    Except (IoError E) (Option (List ℕ × List ℕ)) → Prop
  /-- There is nothing to run. -/
  | idle : reports log.results = [] → c.logic.needsRun = false → Reported log c (.ok (some ([], [])))
  /-- The last message made some handler yield or finish. -/
  | ran {ids : List ℕ × List ℕ} : reports log.results = [ids] → log.results.getLast? = some ids →
    Reported log c (.ok (some ids))
  /-- There was nothing to read in time, and nothing to send. -/
  | timedOut : reports log.results = [] → c.logic.queue.queue = [] → c.onTimeout = none →
    Reported log c (.ok none)
  /-- The same, and the closure did not continue. -/
  | stopped : reports log.results = [] → c.onTimeout.isSome → Reported log c (.error .readTimeout)
  | unread {e : Reader.ReadError} : reports log.results = [] → Reported log c (.error (.read e))
  | failed {e : E} : Reported log c (.error (.conn e))

/-! ## A pass -/

omit [LinearOrder I] in
theorem lastRunResults_eq_nil_iff (finishedAt : ℕ) (handlers : Handlers H) :
    handlers.lastRunResults finishedAt = ([], []) ↔ handlers.hasResults finishedAt = false := by
  unfold Handlers.lastRunResults Handlers.hasResults
  rw [Prod.mk.injEq, List.drop_eq_nil_iff, Bool.or_eq_false_iff, Bool.not_eq_false',
    List.isEmpty_iff, decide_eq_false_iff_not, Nat.not_lt]

/-- What a decision says. -/
def Tells (log : RunLog) : Decision I A L Adj H W E T → Prop
  | none => reports log.results = []
  | some (.again _) => reports log.results = []
  | some (.leave .panicked) => True
  | some (.leave (.returned r c)) => Reported log c r

omit [Adjuster Adj ClientMsg] [Connection W E]
  [Handlers.Handler H (ClientState I A × Queue ClientMsg L Adj)] in
theorem tells_onReadError {log : RunLog} {c : Client I A L Adj H W E T} {constrained : Bool}
    (hlog : reports log.results = []) (hqueue : constrained = false → c.logic.queue.queue = [])
    (e : IoError E) : Tells log (some (onReadError constrained e c)) := by
  unfold onReadError
  rcases filterTimeError_error (R := ServerMsg) e with he | he
  · rw [he]
    cases e with
    | read e => exact .unread hlog
    | conn e => exact .failed
    | readTimeout => cases he
  · rw [he]
    cases constrained with
    | true => exact hlog
    | false =>
      simp only [Bool.false_eq_true, if_false]
      cases hf : c.onTimeout with
      | none => exact .timedOut hlog (hqueue rfl) hf
      | some timeoutFn =>
        simp only
        split
        · exact hlog
        · exact .stopped hlog rfl

omit [TimeoutFn T (ClientLogic I A L Adj H)] in
theorem tells_onMsg (msg : ServerMsg) (c : Client I A L Adj H W E T) :
    Tells (onMsg clockMax msg c).1 (some (onMsg clockMax msg c).2) := by
  unfold onMsg
  simp only
  split
  · rename_i hresults
    have hne : (c.logic.runOnce msg).2.handlers.lastRunResults (c.logic.runOnce msg).1 ≠
        ([], []) := by
      rw [Ne, lastRunResults_eq_nil_iff, hresults]
      simp
    obtain ⟨q, -, hspec⟩ := flushPartial_spec clockMax { c with
      logic := (c.logic.runOnce msg).2, conn := { c.conn with bufI := [] } }
    rcases hf : flushPartial clockMax { c with
      logic := (c.logic.runOnce msg).2, conn := { c.conn with bufI := [] } } with
      ⟨sent, _ | ⟨e | _, c'⟩⟩
    · trivial
    · obtain ⟨e, rfl⟩ := flushPartial_error clockMax (congrArg Prod.snd hf)
      exact .failed
    · -- the flush leaves the handlers as they are
      rw [hf] at hspec
      have hc' := (hspec _ _ rfl).1
      have hids : c'.logic.handlers.lastRunResults (c.logic.runOnce msg).1 =
          (c.logic.runOnce msg).2.handlers.lastRunResults (c.logic.runOnce msg).1 := by
        rw [hc']
      simp only [hids]
      exact .ran (by simp [reports, hne]) rfl
  · rename_i hresults
    have hnil := (lastRunResults_eq_nil_iff (c.logic.runOnce msg).1
      (c.logic.runOnce msg).2.handlers).mpr (Bool.eq_false_iff.mpr hresults)
    show reports [_] = []
    rw [hnil]
    rfl

theorem tells_readPass {waitFor : Option ℕ} {c : Client I A L Adj H W E T}
    (hqueue : waitFor = none → c.logic.queue.queue = []) :
    Tells (readPass clockMax parseFuel fuel waitFor c).1
      (readPass clockMax parseFuel fuel waitFor c).2 := by
  unfold readPass
  rcases hnew : TimeLimitedSync.new clockMax waitFor c.logic.timeout c.conn.writer with
    ⟨_ | ⟨deadline, constrained⟩, timeout, w⟩
  · obtain ⟨e, rfl⟩ := TimeLimitedSync.new_error (congrArg Prod.fst hnew)
    exact .failed
  · have hconstrained := TimeLimitedSync.new_constrained (congrArg Prod.fst hnew)
    simp only
    rcases hread : readMsg parseFuel fuel deadline { c with
      conn := { c.conn with writer := w }, logic := { c.logic with timeout := timeout } } with
      _ | ⟨e | msg, c'⟩
    · exact rfl
    · obtain ⟨hlogic, -⟩ := readMsg_logic hread
      refine tells_onReadError rfl (fun hfalse => ?_) e
      rw [hlogic]
      exact hqueue (Option.isSome_eq_false_iff.mp (hconstrained.symm.trans hfalse) |>
        Option.isNone_iff_eq_none.mp)
    · exact tells_onMsg msg c'

omit [Adjuster Adj ClientMsg] [Connection W E]
  [Handlers.Handler H (ClientState I A × Queue ClientMsg L Adj)]
  [TimeoutFn T (ClientLogic I A L Adj H)] in
theorem Tells.append {log log' : RunLog} {d : Decision I A L Adj H W E T}
    (h : Tells log' d) (hlog : reports log.results = []) : Tells (log.append log') d := by
  have hresults : reports (log.append log').results = reports log'.results := by
    rw [RunLog.results_append, reports_append, hlog, List.nil_append]
  cases d with
  | none => exact hresults.trans h
  | some d =>
    rcases d with c | _ | ⟨r, c⟩
    · exact hresults.trans h
    · trivial
    · cases h with
      | idle h hneeds => exact .idle (hresults.trans h) hneeds
      | ran h hlast =>
        refine .ran (hresults.trans h) ?_
        rw [RunLog.results_append, List.getLast?_append, hlast]
        rfl
      | timedOut h hqueue hnone => exact .timedOut (hresults.trans h) hqueue hnone
      | stopped h hsome => exact .stopped (hresults.trans h) hsome
      | unread h => exact .unread (hresults.trans h)
      | failed => exact .failed

/-- **What a pass says.** -/
theorem tells_pass (c : Client I A L Adj H W E T) :
    Tells (pass clockMax parseFuel fuel c).1 (pass clockMax parseFuel fuel c).2 := by
  obtain ⟨q, -, hspec⟩ := flushPartial_spec clockMax c
  unfold pass
  rcases hf : flushPartial clockMax c with ⟨sent, _ | ⟨e | waitFor, c'⟩⟩
  · trivial
  · obtain ⟨e, rfl⟩ := flushPartial_error clockMax (congrArg Prod.snd hf)
    exact .failed
  · rw [hf] at hspec
    obtain ⟨hc', hqueue⟩ := hspec _ _ rfl
    have hqueue' : waitFor = none → c'.logic.queue.queue = [] := by
      intro hnone
      rw [hc']
      exact hqueue (congrArg _ hnone)
    simp only
    split
    · rename_i hempty
      cases waitFor with
      | some wait => exact rfl
      | none =>
        refine .idle rfl ?_
        simp [ClientLogic.needsRun, hempty, Queue.isEmpty, hqueue' rfl]
    · exact (tells_readPass hqueue').append rfl

/-! ## Runs -/

theorem tells_run (passes : ℕ) (c : Client I A L Adj H W E T) :
    Tells (run clockMax parseFuel fuel passes c).1
      ((run clockMax parseFuel fuel passes c).2.map .leave) := by
  induction passes generalizing c with
  | zero => exact rfl
  | succ passes ih =>
    have hpass : Tells (pass clockMax parseFuel fuel c).1 (pass clockMax parseFuel fuel c).2 :=
      tells_pass c
    rw [run]
    rcases hp : pass clockMax parseFuel fuel c with ⟨log, _ | c' | r⟩
    · rw [hp] at hpass
      exact hpass
    · rw [hp] at hpass
      exact (ih c').append hpass
    · rw [hp] at hpass
      exact hpass

/-- **What the result of `run` says**, however many passes it took. -/
theorem run_reported {passes : ℕ} {c c' : Client I A L Adj H W E T} {log : RunLog}
    {r : Except (IoError E) (Option (List ℕ × List ℕ))}
    (h : run clockMax parseFuel fuel passes c = (log, some (.returned r c'))) :
    Reported log c' r := by
  have htells : Tells (run clockMax parseFuel fuel passes c).1
      ((run clockMax parseFuel fuel passes c).2.map .leave) := tells_run passes c
  rw [h] at htells
  exact htells

theorem run_reported_pinged : ∃ c' : InMemory,
    Reported (run (10 ^ 30) 100 100 5 pinged).1 c' (.error (.read .unexpectedEof)) := by
  obtain ⟨c', hc'⟩ : ∃ c', (run (10 ^ 30) 100 100 5 pinged).2 =
      some (.returned (.error (.read .unexpectedEof)) c') := by
    have hanswer := pinged_answers
    simp only [runs, step] at hanswer
    rcases hrun : run (10 ^ 30) 100 100 5 pinged with ⟨log, _ | _ | ⟨r, c'⟩⟩
    · rw [hrun] at hanswer
      cases hanswer
    · rw [hrun] at hanswer
      cases hanswer
    · rw [hrun] at hanswer
      obtain rfl := Answer.ran.inj (List.cons.inj hanswer).1
      exact ⟨c', rfl⟩
  exact ⟨c', run_reported (Prod.ext rfl hc')⟩

/-- The ids that a call returned, if some handler yielded or finished. -/
def Answer.reported : Answer E → List (List ℕ × List ℕ)
  | .ran (.ok (some ids)) => reports [ids]
  | _ => []

/-- The answers that may have lost results: a panic and an error of the connection. -/
def Answer.Whole (a : Answer E) : Prop := a ≠ .panicked ∧ ∀ e, a ≠ .ran (.error (.conn e))

omit [LinearOrder I] [Adjuster Adj ClientMsg] [Connection W E]
  [Handlers.Handler H (ClientState I A × Queue ClientMsg L Adj)]
  [TimeoutFn T (ClientLogic I A L Adj H)] in
theorem Reported.reported_eq [LinearOrder I] {log : RunLog} {c : Client I A L Adj H W E T}
    {r : Except (IoError E) (Option (List ℕ × List ℕ))} (h : Reported log c r)
    (hwhole : (Answer.ran r).Whole) : (Answer.ran r).reported = reports log.results := by
  cases h with
  | idle h _ => exact h.symm
  | ran h _ =>
    rw [h, Answer.reported, ← h]
    simp [reports]
  | timedOut h _ _ => exact h.symm
  | stopped h _ => exact h.symm
  | unread h => exact h.symm
  | failed => exact absurd rfl (hwhole.2 _)

theorem reported_step {c : Client I A L Adj H W E T} {call : Call I A L Adj H T}
    (hwhole : (step clockMax parseFuel fuel c call).2.1.Whole) :
    (step clockMax parseFuel fuel c call).2.1.reported =
      reports (step clockMax parseFuel fuel c call).1.results := by
  cases call with
  | run passes =>
    have htells : Tells (run clockMax parseFuel fuel passes c).1
        ((run clockMax parseFuel fuel passes c).2.map .leave) := tells_run passes c
    simp only [step] at hwhole ⊢
    rcases hr : run clockMax parseFuel fuel passes c with ⟨log, _ | _ | ⟨r, c'⟩⟩
    · rw [hr] at htells
      exact (show reports log.results = [] from htells).symm
    · rw [hr] at hwhole
      exact absurd rfl hwhole.1
    · rw [hr] at htells hwhole
      exact (show Reported log c' r from htells).reported_eq hwhole
  | flushPartial =>
    simp only [step] at hwhole ⊢
    rcases hf : flushPartial clockMax c with ⟨sent, _ | ⟨r, c'⟩⟩
    · rfl
    · rfl
  | logic f => rfl
  | setTimeoutFn f => rfl

/-- **What calls return** is what the messages that were heard made the handlers do: for each of
them, in order, the ids of those that yielded and finished, and nothing for the others. -/
theorem reported_runs (c : Client I A L Adj H W E T) (calls : List (Call I A L Adj H T))
    (hwhole : ∀ a ∈ (runs clockMax parseFuel fuel c calls).2.1, a.Whole) :
    (runs clockMax parseFuel fuel c calls).2.1.flatMap Answer.reported =
      reports (runs clockMax parseFuel fuel c calls).1.results := by
  induction calls generalizing c with
  | nil => rfl
  | cons call calls ih =>
    have hstep (hwhole : (step clockMax parseFuel fuel c call).2.1.Whole) := reported_step hwhole
    rw [runs] at hwhole ⊢
    rcases hs : step clockMax parseFuel fuel c call with ⟨log, answer, _ | c'⟩
    · rw [hs] at hstep hwhole
      have hanswer := hstep (hwhole answer List.mem_cons_self)
      simpa using hanswer
    · rw [hs] at hstep hwhole
      have hanswer := hstep (hwhole answer List.mem_cons_self)
      have hrest := ih c' fun a ha => hwhole a (List.mem_cons_of_mem _ ha)
      simp only [List.flatMap_cons, RunLog.results_append, reports_append]
      rw [hanswer, hrest]

theorem reported_runs_pinged :
    (runs (10 ^ 30) 100 100 pinged [.run 5]).2.1.flatMap Answer.reported =
      reports (runs (10 ^ 30) 100 100 pinged [.run 5]).1.results := by
  refine reported_runs pinged [.run 5] fun a ha => ?_
  rw [pinged_answers] at ha
  rw [List.mem_singleton.mp ha]
  exact ⟨by simp, fun e => by simp⟩

end Client

end Vinezombie
