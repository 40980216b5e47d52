import Vinezombie.Library.Machine
import Vinezombie.Library.SwapRemove
import Vinezombie.Message.Codec
import Mathlib.Data.List.Range

/-!
# The collection of handlers

`client/handler.rs`: the handlers that a client has, how a message is given to each of them, and how
their ids are recycled.

A handler is a trait object in the source, boxed with the sender of its channel; here handlers are
the values of a type `H` with the functions of `Handlers.Handler`.  What they share, the client
state and the queue, is a value of the type `C`.

The dispatch loop removes a handler that is finished by `swap_remove`, so that the last handler is
the next one.  What it does is what `callAll` does, which calls the handlers of a list one after
another, on some permutation of the handlers (`handleLoop_eq`).

* `Handlers.step`: the calls, as steps of a machine that stops where `cancel_one` panics.
* `IdsOk`: the ids of the handlers and the recycled ones are those below their number.
* `bookkeeping`: that, and what `handle` does, in every state that can be reached.
-/

namespace Vinezombie

open Library Library.Machine

/-- `HandlerStatus`. -/
inductive HandlerStatus where
  | keep (yielded wantsOwning : Bool)
  | done (yielded : Bool)
  deriving DecidableEq

/-- `Handlers`. -/
structure Handlers (H : Type) where
  handlers : List (H × ℕ)
  yielded : List ℕ
  finished : List ℕ
  wantsOwning : Bool

namespace Handlers

/-- What a call of `Handler::handle` leaves. -/
structure Handled (H C : Type) where
  /-- `is_break()` of the result. -/
  isBreak : Bool
  /-- The flag of the `SenderRef`. -/
  didSend : Bool
  handler : H
  ctx : C

/-- `Handler`, with the sender of its channel. -/
class Handler (H : Type) (C : outParam Type) where
  handle : H → ServerMsg → C → Handled H C
  wantsOwning : H → Bool

section Calls

variable {H C : Type} [Handler H C]

/-- The closure of `box_handler`. -/
def boxHandler (handler : H) (msg : ServerMsg) (ctx : C) : HandlerStatus × H × C :=
  let r := Handler.handle handler msg ctx
  if r.isBreak then (.done r.didSend, r.handler, r.ctx)
  else (.keep r.didSend (Handler.wantsOwning r.handler), r.handler, r.ctx)

/-- `Handlers::default`. -/
def new : Handlers H := ⟨[], [], [], false⟩

/-- `add`, which returns the id. -/
def add (handler : H) (self : Handlers H) : ℕ × Handlers H :=
  let id := self.finished.getLast?.getD self.handlers.length
  (id,
    { self with
      wantsOwning := self.wantsOwning || Handler.wantsOwning handler
      finished := self.finished.dropLast
      handlers := self.handlers ++ [(handler, id)] })

/-- `is_empty`. -/
def isEmpty (self : Handlers H) : Bool := self.handlers.isEmpty

/-- The panic of `cancel_one`. -/
inductive InvalidId where
  | attempted (id : ℕ)
  deriving DecidableEq

/-- `cancel_one`. -/
def cancelOne (id : ℕ) (self : Handlers H) : Except InvalidId (Handlers H) :=
  match self.handlers.findIdx? fun h => id == h.2 with
  | some idx =>
    let handlers := swapRemove self.handlers idx
    .ok
      { self with
        handlers := handlers
        finished := self.finished ++ [id]
        wantsOwning := self.wantsOwning && !handlers.isEmpty }
  | none => .error (.attempted id)

/-- `cancel`. -/
def cancel (_self : Handlers H) : Handlers H := ⟨[], [], [], false⟩

/-- `has_results`. -/
def hasResults (finishedAt : ℕ) (self : Handlers H) : Bool :=
  !self.yielded.isEmpty || decide (self.finished.length > finishedAt)

/-- `last_run_results`. -/
def lastRunResults (finishedAt : ℕ) (self : Handlers H) : List ℕ × List ℕ :=
  (self.yielded, self.finished.drop finishedAt)

/-- `if yielded { self.yielded.push(id) }`. -/
def pushIf (yielded : Bool) (ids : List ℕ) (id : ℕ) : List ℕ := if yielded then ids ++ [id] else ids

/-- The loop of `handle`. -/
def handleLoop (msg : ServerMsg) (self : Handlers H) (i : ℕ) (ctx : C) : Handlers H × C :=
  match _hi : self.handlers[i]? with
  | none => (self, ctx)
  | some (handler, id) =>
    match boxHandler handler msg ctx with
    | (.keep yielded wantsOwning, handler, ctx) =>
      handleLoop msg
        { self with
          handlers := self.handlers.set i (handler, id)
          yielded := pushIf yielded self.yielded id
          wantsOwning := self.wantsOwning || wantsOwning } (i + 1) ctx
    | (.done yielded, handler, ctx) =>
      handleLoop msg
        { self with
          handlers := swapRemove (self.handlers.set i (handler, id)) i
          yielded := pushIf yielded self.yielded id
          finished := self.finished ++ [id] } i ctx
termination_by self.handlers.length - i
decreasing_by
  · have hlt := (List.getElem?_eq_some_iff.mp _hi).1
    simp only [List.length_set]
    omega
  · have hlt := (List.getElem?_eq_some_iff.mp _hi).1
    have hlen := length_swapRemove_set hlt (handler, id)
    omega

/-- `handle`, which returns `finished_at`. -/
def handle (msg : ServerMsg) (self : Handlers H) (ctx : C) : ℕ × Handlers H × C :=
  (self.finished.length,
    handleLoop msg { self with wantsOwning := false, yielded := [] } 0 ctx)

/-! ## What the loop does -/

/-- A handler that was called, as the call left it, and its status. -/
structure Called (H : Type) where
  id : ℕ
  status : HandlerStatus
  handler : H

/-- The handlers of the list are called one after another. -/
def callAll (msg : ServerMsg) : List (H × ℕ) → C → List (Called H) × C
  | [], ctx => ([], ctx)
  | (handler, id) :: rest, ctx =>
    let r := boxHandler handler msg ctx
    (⟨id, r.1, r.2.1⟩ :: (callAll msg rest r.2.2).1, (callAll msg rest r.2.2).2)

namespace Called

/-- The handler has sent something. -/
def yielded (c : Called H) : Bool :=
  match c.status with
  | .keep yielded _ => yielded
  | .done yielded => yielded

/-- The handler has finished. -/
def isDone (c : Called H) : Bool :=
  match c.status with
  | .keep _ _ => false
  | .done _ => true

/-- The handler wants messages that own their strings. -/
def wantsOwning (c : Called H) : Bool :=
  match c.status with
  | .keep _ wantsOwning => wantsOwning
  | .done _ => false

end Called

/-- The ids of the handlers that yielded. -/
def yieldedIds (calls : List (Called H)) : List ℕ := (calls.filter Called.yielded).map Called.id

/-- The ids of the handlers that are finished. -/
def finishedIds (calls : List (Called H)) : List ℕ := (calls.filter Called.isDone).map Called.id

/-- The other handlers, as the calls left them. -/
def keptHandlers (calls : List (Called H)) : List (H × ℕ) :=
  (calls.filter fun c => !c.isDone).map fun c => (c.handler, c.id)

/-- What is left of the collection after these calls, which took the place of `front`. -/
def after (front : List (H × ℕ)) (calls : List (Called H)) (self : Handlers H) : Handlers H where
  handlers := front ++ keptHandlers calls
  yielded := self.yielded ++ yieldedIds calls
  finished := self.finished ++ finishedIds calls
  wantsOwning := self.wantsOwning || calls.any Called.wantsOwning

omit [Handler H C] in
theorem after_nil (self : Handlers H) : after self.handlers [] self = self := by
  simp [after, keptHandlers, yieldedIds, finishedIds]

omit [Handler H C] in
/-- A handler that is kept joins the front. -/
theorem after_cons_keep (front : List (H × ℕ)) (handlers : List (H × ℕ)) (id : ℕ) (handler : H)
    (yielded wantsOwning : Bool) (calls : List (Called H)) (self : Handlers H) :
    after front (⟨id, .keep yielded wantsOwning, handler⟩ :: calls) self =
      after (front ++ [(handler, id)]) calls
        { self with
          handlers := handlers
          yielded := pushIf yielded self.yielded id
          wantsOwning := self.wantsOwning || wantsOwning } := by
  cases yielded with
  | true =>
    simp [after, keptHandlers, yieldedIds, finishedIds, Called.yielded, Called.isDone,
      Called.wantsOwning, pushIf, List.filter_cons, Bool.or_assoc]
  | false =>
    simp [after, keptHandlers, yieldedIds, finishedIds, Called.yielded, Called.isDone,
      Called.wantsOwning, pushIf, Bool.or_assoc]

omit [Handler H C] in
/-- A handler that is finished does not. -/
theorem after_cons_done (front : List (H × ℕ)) (handlers : List (H × ℕ)) (id : ℕ) (handler : H)
    (yielded : Bool) (calls : List (Called H)) (self : Handlers H) :
    after front (⟨id, .done yielded, handler⟩ :: calls) self =
      after front calls
        { self with
          handlers := handlers
          yielded := pushIf yielded self.yielded id
          finished := self.finished ++ [id] } := by
  cases yielded with
  | true =>
    simp [after, keptHandlers, yieldedIds, finishedIds, Called.yielded, Called.isDone,
      Called.wantsOwning, pushIf, List.filter_cons]
  | false =>
    simp [after, keptHandlers, yieldedIds, finishedIds, Called.yielded, Called.isDone,
      Called.wantsOwning, pushIf, List.filter_cons]

theorem callAll_cons {msg : ServerMsg} {handler handler' : H} {id : ℕ} {ctx ctx' : C}
    {status : HandlerStatus} (hcall : boxHandler handler msg ctx = (status, handler', ctx'))
    (rest : List (H × ℕ)) :
    callAll msg ((handler, id) :: rest) ctx =
      (⟨id, status, handler'⟩ :: (callAll msg rest ctx').1, (callAll msg rest ctx').2) := by
  rw [callAll, hcall]

theorem handleLoop_of_end (msg : ServerMsg) (self : Handlers H) (ctx : C) :
    handleLoop msg self self.handlers.length ctx = (self, ctx) := by
  rw [handleLoop]
  split
  · rfl
  · rename_i hi
    exact absurd (List.getElem?_eq_some_iff.mp hi).1 (Nat.lt_irrefl _)

section Pass

variable {msg : ServerMsg} {self : Handlers H} {front rest : List (H × ℕ)} {handler handler' : H}
  {id : ℕ} {ctx ctx' : C}

/-- A pass of the loop that keeps the handler. -/
theorem handleLoop_keep {yielded wantsOwning : Bool}
    (hself : self.handlers = front ++ (handler, id) :: rest)
    (hcall : boxHandler handler msg ctx = (.keep yielded wantsOwning, handler', ctx')) :
    handleLoop msg self front.length ctx =
      handleLoop msg
        { self with
          handlers := front ++ [(handler', id)] ++ rest
          yielded := pushIf yielded self.yielded id
          wantsOwning := self.wantsOwning || wantsOwning } (front ++ [(handler', id)]).length
        ctx' := by
  have hget : self.handlers[front.length]? = some (handler, id) := by simp [hself]
  rw [handleLoop]
  split
  · rename_i hi
    exact absurd (hi.symm.trans hget) (by simp)
  · rename_i hi
    obtain ⟨rfl, rfl⟩ := Prod.mk.inj (Option.some.inj (hi.symm.trans hget))
    simp only [hcall, hself, List.set_append_right _ _ (Nat.le_refl front.length), Nat.sub_self,
      List.set_cons_zero, List.length_append, List.length_singleton, List.append_assoc,
      List.singleton_append]

/-- A pass of the loop after which the handler is finished. -/
theorem handleLoop_done {yielded : Bool} (hself : self.handlers = front ++ (handler, id) :: rest)
    (hcall : boxHandler handler msg ctx = (.done yielded, handler', ctx')) :
    handleLoop msg self front.length ctx =
      handleLoop msg
        { self with
          handlers := swapRemove (front ++ (handler', id) :: rest) front.length
          yielded := pushIf yielded self.yielded id
          finished := self.finished ++ [id] } front.length ctx' := by
  have hget : self.handlers[front.length]? = some (handler, id) := by simp [hself]
  rw [handleLoop]
  split
  · rename_i hi
    exact absurd (hi.symm.trans hget) (by simp)
  · rename_i hi
    obtain ⟨rfl, rfl⟩ := Prod.mk.inj (Option.some.inj (hi.symm.trans hget))
    simp only [hcall, hself, List.set_append_right _ _ (Nat.le_refl front.length), Nat.sub_self,
      List.set_cons_zero]

end Pass

/-- **The loop calls each handler once**, in some order, and sorts them into those that are kept and
those that are finished. -/
theorem handleLoop_eq (msg : ServerMsg) (rest : List (H × ℕ)) (front : List (H × ℕ))
    (self : Handlers H) (ctx : C) (hself : self.handlers = front ++ rest) :
    ∃ order, order.Perm rest ∧
      handleLoop msg self front.length ctx =
        (after front (callAll msg order ctx).1 self, (callAll msg order ctx).2) := by
  induction hn : rest.length generalizing rest front self ctx with
  | zero =>
    obtain rfl := List.eq_nil_of_length_eq_zero hn
    rw [List.append_nil] at hself
    refine ⟨[], .nil, ?_⟩
    rw [← hself, handleLoop_of_end, callAll, after_nil]
  | succ n ih =>
    obtain ⟨⟨handler, id⟩, rest, rfl⟩ := List.exists_cons_of_length_eq_add_one hn
    rw [List.length_cons, Nat.add_right_cancel_iff] at hn
    rcases hcall : boxHandler handler msg ctx with ⟨status, handler', ctx'⟩
    cases status with
    | keep yielded wantsOwning =>
      obtain ⟨order, hperm, horder⟩ := ih rest (front ++ [(handler', id)])
        { self with
          handlers := front ++ [(handler', id)] ++ rest
          yielded := pushIf yielded self.yielded id
          wantsOwning := self.wantsOwning || wantsOwning } ctx' rfl hn
      refine ⟨(handler, id) :: order, hperm.cons _, ?_⟩
      rw [handleLoop_keep hself hcall, horder, callAll_cons hcall, after_cons_keep]
    | done yielded =>
      -- the last handler takes the place of the one that is finished
      obtain ⟨rest', hrest', hswap⟩ := swapRemove_append_cons front rest (handler', id)
      obtain ⟨order, hperm, horder⟩ := ih rest' front
        { self with
          handlers := swapRemove (front ++ (handler', id) :: rest) front.length
          yielded := pushIf yielded self.yielded id
          finished := self.finished ++ [id] } ctx' hswap (hrest'.length_eq.trans hn)
      refine ⟨(handler, id) :: order, (hperm.trans hrest').cons _, ?_⟩
      rw [handleLoop_done hself hcall, horder, callAll_cons hcall, after_cons_done]

/-! ## Ids -/

/-- The ids of the handlers that are there. -/
def liveIds (self : Handlers H) : List ℕ := self.handlers.map Prod.snd

/-- The live ids and the recycled ones are the numbers below their number, each once. -/
def IdsOk (self : Handlers H) : Prop :=
  (self.liveIds ++ self.finished).Perm
    (List.range (self.handlers.length + self.finished.length))

omit [Handler H C] in
/-- Another collection with the same ids in another order. -/
theorem IdsOk.of_perm {self self' : Handlers H} (h : self.IdsOk)
    (hperm : (self'.liveIds ++ self'.finished).Perm (self.liveIds ++ self.finished)) :
    self'.IdsOk := by
  have hlen := hperm.length_eq
  simp only [liveIds, List.length_append, List.length_map] at hlen
  unfold IdsOk
  rw [hlen]
  exact hperm.trans h

omit [Handler H C] in
theorem IdsOk.nodup {self : Handlers H} (h : self.IdsOk) :
    (self.liveIds ++ self.finished).Nodup :=
  h.nodup_iff.mpr List.nodup_range

omit [Handler H C] in
theorem idsOk_new : (new : Handlers H).IdsOk := .nil

/-- The new id is not in use: it is a recycled one, or above all others. -/
theorem IdsOk.add {self : Handlers H} (h : self.IdsOk) (handler : H) :
    (self.add handler).2.IdsOk ∧ (self.add handler).1 ∉ self.liveIds := by
  rcases List.eq_nil_or_concat self.finished with hnil | ⟨front, id, hconcat⟩
  · have hadd : self.add handler = (self.handlers.length,
        { self with
          wantsOwning := self.wantsOwning || Handler.wantsOwning handler
          finished := []
          handlers := self.handlers ++ [(handler, self.handlers.length)] }) := by
      unfold Handlers.add
      simp [hnil]
    unfold IdsOk at h
    rw [hnil, List.append_nil, List.length_nil, Nat.add_zero] at h
    rw [hadd]
    constructor
    · unfold IdsOk liveIds
      simp only [List.map_append, List.map_singleton, List.append_nil, List.length_append,
        List.length_singleton, List.length_nil, Nat.add_zero, List.range_succ]
      exact h.append_right _
    · intro hmem
      exact absurd (List.mem_range.mp (h.mem_iff.mp hmem)) (Nat.lt_irrefl _)
  · rw [List.concat_eq_append] at hconcat
    have hadd : self.add handler = (id,
        { self with
          wantsOwning := self.wantsOwning || Handler.wantsOwning handler
          finished := front
          handlers := self.handlers ++ [(handler, id)] }) := by
      unfold Handlers.add
      simp [hconcat]
    rw [hadd]
    constructor
    · refine h.of_perm ?_
      unfold liveIds
      rw [hconcat, List.map_append, List.append_assoc]
      exact (List.perm_append_comm).append_left _
    · intro hmem
      have hdisjoint := (List.nodup_append.mp h.nodup).2.2
      exact hdisjoint id hmem id (by rw [hconcat]; simp) rfl

omit [Handler H C] in
/-- The id of the cancelled handler is recycled. -/
theorem IdsOk.cancelOne {self self' : Handlers H} (h : self.IdsOk) {id : ℕ}
    (hcancel : self.cancelOne id = .ok self') : self'.IdsOk := by
  unfold Handlers.cancelOne at hcancel
  split at hcancel
  · rename_i idx hidx
    obtain rfl := Except.ok.inj hcancel
    obtain ⟨hlt, hid, -⟩ := List.findIdx?_eq_some_iff_getElem.mp hidx
    have hid : self.handlers[idx].2 = id := (beq_iff_eq.mp hid).symm
    have hperm := (perm_swapRemove (List.getElem?_eq_getElem hlt)).map Prod.snd
    rw [List.map_cons, hid] at hperm
    refine h.of_perm ?_
    show ((swapRemove self.handlers idx).map Prod.snd ++ (self.finished ++ [id])).Perm
      (self.handlers.map Prod.snd ++ self.finished)
    refine List.Perm.trans ?_ (hperm.symm.append_right self.finished)
    rw [← List.append_assoc, List.cons_append]
    exact List.perm_append_singleton id _
  · exact absurd hcancel (by simp)

/-- A handler is called with its id. -/
theorem ids_callAll (msg : ServerMsg) (order : List (H × ℕ)) (ctx : C) :
    (callAll msg order ctx).1.map Called.id = order.map Prod.snd := by
  induction order generalizing ctx with
  | nil => rfl
  | cons h order ih =>
    rw [callAll, List.map_cons, List.map_cons, ih]

omit [Handler H C] in
/-- Each handler that was called is kept or finished. -/
theorem kept_append_finished (calls : List (Called H)) :
    ((keptHandlers calls).map Prod.snd ++ finishedIds calls).Perm (calls.map Called.id) := by
  have hkept : (keptHandlers calls).map Prod.snd =
      (calls.filter fun c => !c.isDone).map Called.id := by
    rw [keptHandlers, List.map_map]
    rfl
  rw [hkept, finishedIds, ← List.map_append]
  exact (List.perm_append_comm.trans (List.filter_append_perm Called.isDone calls)).map _

/-! ## What `handle` does -/

/-- **What is promised of `handle`.**  In some order each handler is called once with the message.
Those that yielded and those that finished are reported, and exactly the others are kept, as the
calls left them. -/
def Dispatches (msg : ServerMsg) (ctx : C) (self : Handlers H) : Prop :=
  ∃ order : List (H × ℕ), order.Perm self.handlers ∧
    (self.handle msg ctx).2.2 = (callAll msg order ctx).2 ∧
    (self.handle msg ctx).2.1.handlers = keptHandlers (callAll msg order ctx).1 ∧
    (self.handle msg ctx).2.1.lastRunResults (self.handle msg ctx).1 =
      (yieldedIds (callAll msg order ctx).1, finishedIds (callAll msg order ctx).1)

/-- The whole result of `handle`. -/
theorem handle_eq (msg : ServerMsg) (ctx : C) (self : Handlers H) :
    ∃ order : List (H × ℕ), order.Perm self.handlers ∧
      self.handle msg ctx = (self.finished.length,
        { handlers := keptHandlers (callAll msg order ctx).1
          yielded := yieldedIds (callAll msg order ctx).1
          finished := self.finished ++ finishedIds (callAll msg order ctx).1
          wantsOwning := (callAll msg order ctx).1.any Called.wantsOwning },
        (callAll msg order ctx).2) := by
  obtain ⟨order, hperm, hloop⟩ := handleLoop_eq msg self.handlers []
    { self with wantsOwning := false, yielded := [] } ctx rfl
  refine ⟨order, hperm, ?_⟩
  unfold handle
  rw [List.length_nil] at hloop
  rw [hloop]
  simp [after]

theorem dispatches (msg : ServerMsg) (ctx : C) (self : Handlers H) : Dispatches msg ctx self := by
  obtain ⟨order, hperm, hhandle⟩ := handle_eq msg ctx self
  refine ⟨order, hperm, ?_, ?_, ?_⟩
  · rw [hhandle]
  · rw [hhandle]
  · rw [hhandle]
    simp [lastRunResults]

theorem IdsOk.handle {self : Handlers H} (h : self.IdsOk) (msg : ServerMsg) (ctx : C) :
    (self.handle msg ctx).2.1.IdsOk := by
  obtain ⟨order, hperm, hhandle⟩ := handle_eq msg ctx self
  rw [hhandle]
  refine h.of_perm ?_
  have hcalls := kept_append_finished (callAll msg order ctx).1
  rw [ids_callAll] at hcalls
  have hlive := hcalls.trans (hperm.map Prod.snd)
  show ((keptHandlers (callAll msg order ctx).1).map Prod.snd ++
    (self.finished ++ finishedIds (callAll msg order ctx).1)).Perm (self.liveIds ++ self.finished)
  refine List.Perm.trans ?_ (hlive.append_right self.finished)
  rw [List.append_assoc]
  exact List.perm_append_comm.append_left _

/-! ## Runs -/

/-- A call on the collection. -/
inductive Op (H C : Type) where
  | add (handler : H)
  | handle (msg : ServerMsg) (ctx : C)
  | cancelOne (id : ℕ)
  | cancel

/-- The collection after a call, unless it panics. -/
def step (self : Handlers H) : Op H C → Except InvalidId (Handlers H)
  | .add handler => .ok (self.add handler).2
  | .handle msg ctx => .ok (self.handle msg ctx).2.1
  | .cancelOne id => self.cancelOne id
  | .cancel => .ok self.cancel

/-- The collections that a client can have. -/
def Reachable (self : Handlers H) : Prop := Reach (fun s => s = new) step self

theorem IdsOk.step {self self' : Handlers H} (h : self.IdsOk) {op : Op H C}
    (hstep : self.step op = .ok self') : self'.IdsOk := by
  cases op with
  | add handler =>
    obtain rfl := Except.ok.inj hstep
    exact (h.add handler).1
  | handle msg ctx =>
    obtain rfl := Except.ok.inj hstep
    exact h.handle msg ctx
  | cancelOne id => exact h.cancelOne hstep
  | cancel =>
    obtain rfl := Except.ok.inj hstep
    exact idsOk_new

theorem Reachable.idsOk {self : Handlers H} (h : self.Reachable) : self.IdsOk := by
  refine Reach.invariant IdsOk ?_ ?_ h
  · rintro s rfl
    exact idsOk_new
  · intro s op s' hs hstep
    exact hs.step hstep

/-- **The bookkeeping of the handlers**, in every state that can be reached: live ids and recycled
ids are the numbers below their number, a new handler gets an id that is not live, and a message is
dispatched as promised. -/
theorem bookkeeping {self : Handlers H} (h : self.Reachable) :
    (self.liveIds ++ self.finished).Perm
        (List.range (self.handlers.length + self.finished.length)) ∧
      self.liveIds.Nodup ∧ (∀ handler, (self.add handler).1 ∉ self.liveIds) ∧
      ∀ msg ctx, Dispatches msg ctx self :=
  ⟨h.idsOk, (List.nodup_append.mp h.idsOk.nodup).1, fun handler => (h.idsOk.add handler).2,
    fun msg ctx => dispatches msg ctx self⟩

end Calls

/-- A handler that waits for a number of messages, yields and is finished. -/
structure Countdown where
  left : ℕ

instance : Handler Countdown Unit where
  handle handler _ ctx := ⟨handler.left == 0, handler.left == 0, ⟨handler.left - 1⟩, ctx⟩
  wantsOwning _ := false

theorem bookkeeping_countdown : ∃ self : Handlers Countdown, self.liveIds = [0, 1] ∧
    self.Reachable ∧ self.liveIds.Nodup :=
  have hreach : Reachable (((new.add (Countdown.mk 0)).2.add (Countdown.mk 1)).2) :=
    .step (.add (Countdown.mk 1)) (.step (.add (Countdown.mk 0)) (.init rfl) rfl) rfl
  ⟨_, rfl, hreach, (bookkeeping hreach).2.1⟩

end Handlers

end Vinezombie
