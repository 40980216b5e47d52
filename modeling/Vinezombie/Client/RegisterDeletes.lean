import Vinezombie.Client.RegisterSteps
import Vinezombie.Library.Machine

/-!
# Messages that edit the maps of the handler

The only panic that the registration handler can run into is the one of `swap_remove`, and the only
message that leads there is `CAP DEL`.  It names its capabilities in ascending order, and removes
them through one guard; the second one that the handler knows is one too many.

Two messages make calls that access elements without a check, through the guards of two maps.  005
inserts its tokens, in any order; `CAP ACK` updates capabilities, which it names once each.  So the
former can reach for an element that the vector does not have, and the latter cannot.

* `handle_returns`, `handle_panics`, `caps_of_deletes`: when a step returns, and what is left of the
  capabilities after `CAP DEL`.
* `accessesDefined_iff`: the accesses of a step.
* `handleCorrect_iff`: in every reachable state.
-/

namespace Vinezombie

open Library Library.KeyedList Library.Machine Auth

namespace Register

/-- The capabilities that a `CAP DEL` message names. -/
def deletedCaps (msg : ServerMsg) : Option (OrderedMap Key Word) :=
  if msg.kind.asBytes = text "CAP" then
    match Cap.ServerMsgArgs.parse msg.args with
    | .ok capMsg => if capMsg.subcmd = .del then some capMsg.caps else none
    | .error _ => none
  else none

/-- The capabilities that a `CAP ACK` message names. -/
def acknowledgedCaps (msg : ServerMsg) : Option (OrderedMap Key Word) :=
  if msg.kind.asBytes = text "CAP" then
    match Cap.ServerMsgArgs.parse msg.args with
    | .ok capMsg => if capMsg.subcmd = .ack then some capMsg.caps else none
    | .error _ => none
  else none

/-- The tokens of a 005, as they are inserted. -/
def isupportTokens (msg : ServerMsg) : List ((Key × Word) × Unit) :=
  (msg.args.words.tail.filterMap Handler.parseISupport).map fun kv => (kv, ())

theorem deletedCaps_eq_some_iff {msg : ServerMsg} {caps : OrderedMap Key Word} :
    deletedCaps msg = some caps ↔ msg.kind.asBytes = text "CAP" ∧
      ∃ capMsg, Cap.ServerMsgArgs.parse msg.args = .ok capMsg ∧ capMsg.subcmd = .del ∧
        capMsg.caps = caps := by
  unfold deletedCaps
  by_cases hkind : msg.kind.asBytes = text "CAP"
  · rw [if_pos hkind]
    cases hparse : Cap.ServerMsgArgs.parse msg.args with
    | error e => simp
    | ok capMsg => simp [hkind]
  · rw [if_neg hkind]
    simp [hkind]

namespace Handler

variable {N L : Type} {msg : ServerMsg} {h h' : Handler N L}

section

variable [SaslLogic L] [NickGen N]

/-! ## The arm for `CAP` -/

omit [NickGen N] in
/-- `CAP` panics only where it removes capabilities. -/
theorem deletedCaps_of_handleCap_error {p : Panic} (hkind : msg.kind.asBytes = text "CAP")
    (hcap : h.handleCap msg = .error p) :
    ∃ caps, deletedCaps msg = some caps ∧ h.removeCaps caps = .error p := by
  have hcase := capCase_handleCap msg h
  rw [hcap] at hcase
  cases hcase with
  | panics args _ hparse hsub hr =>
    exact ⟨args.caps, deletedCaps_eq_some_iff.mpr ⟨hkind, args, hparse, hsub, rfl⟩, hr⟩

omit [NickGen N] in
theorem reg_handleAck (ack : Bool) (caps : OrderedMap Key Word) :
    (h.handleAck ack caps id).1.reg = h.reg := by
  unfold handleAck
  split
  · rfl
  · rfl

variable [Base64.Engine]

/-! ## One step -/

/-- Of the capabilities that the message deletes, at most one is known. -/
def DeletesAtMostOne (h : Handler N L) (msg : ServerMsg) : Prop :=
  ∀ caps ∈ deletedCaps msg, ∀ k ∈ caps.keys, ∀ k' ∈ caps.keys, h.Knows k → h.Knows k' → k = k'

omit [NickGen N] in
/-- What is done before the `match` does not touch the capabilities. -/
theorem caps_atMatch (h : Handler N L) (msg : ServerMsg) :
    (h.atMatch msg).reg.caps = h.reg.caps := by
  obtain ⟨source, state, hat, -⟩ := atMatch_eq h msg
  rw [hat]

omit [NickGen N] in
theorem knows_atMatch (h : Handler N L) (msg : ServerMsg) (k : Key) :
    (h.atMatch msg).Knows k ↔ h.Knows k := by
  rw [Knows, Knows, caps_atMatch]

omit [NickGen N] in
/-- The removal that a `CAP DEL` of at most one known capability makes. -/
theorem removeCaps_atMatch (hs : StrictSorted NameMap.tag h.reg.caps.vec)
    (hone : h.DeletesAtMostOne msg) {caps : OrderedMap Key Word}
    (hdel : deletedCaps msg = some caps) :
    ∃ h₁, (h.atMatch msg).removeCaps caps = .ok h₁ ∧
      h₁.reg.caps.vec = h.reg.caps.vec.filter fun e => decide (NameMap.tag e ∉ caps.keys) := by
  obtain ⟨m, hm, hvec⟩ := removeCaps_eq (h := h.atMatch msg) (by rwa [caps_atMatch]) caps (by
    intro k hk k' hk' h₁ h₂
    rw [knows_atMatch] at h₁ h₂
    exact hone caps hdel k hk k' hk' h₁ h₂)
  rw [caps_atMatch] at hvec
  exact ⟨_, hm, hvec⟩

/-- **A step returns** if it deletes at most one known capability. -/
theorem handle_returns (hs : StrictSorted NameMap.tag h.reg.caps.vec)
    (hone : h.DeletesAtMostOne msg) : ∃ h' sent r, h.handle msg = .ok (h', sent, r) := by
  rcases handle_cases h msg with ⟨sent', hping, -⟩ | ⟨ignoreSasl, hcases⟩
  · exact ⟨_, _, _, hping⟩
  · rcases hcases with ⟨p, hdisp, -⟩ | ⟨h₁, sent₁, sent', r', -, hok⟩ |
      ⟨h₁, sent₁, sent', retval, -, hok⟩
    · have hcomes := comes_dispatch msg (h.atMatch msg) ignoreSasl
      rw [hdisp] at hcomes
      obtain ⟨caps, hdel, herr⟩ := deletedCaps_of_handleCap_error hcomes.1 hcomes.2
      obtain ⟨h₁, hok, -⟩ := removeCaps_atMatch hs hone hdel
      rw [hok] at herr
      exact absurd herr (by simp)
    · exact ⟨_, _, _, hok⟩
    · exact ⟨_, _, _, hok⟩

/-- The step accesses no element beyond the vector of a map that it edits.  These are the calls that
005 and `CAP ACK` make where the `match` comes to them. -/
def AccessesDefined (h : Handler N L) (msg : ServerMsg) : Prop :=
  (msg.kind.asBytes = text "005" → (h.atMatch msg).state.isAwaitEnd = true →
    ∀ a ∈ outputs (fun ism elem => ism.insert NameMap.tag elem) (h.atMatch msg).reg.isupport.edit
      (isupportTokens msg), ∃ old, a = .ok old) ∧
  ∀ caps ∈ acknowledgedCaps msg, ((h.atMatch msg).state.onAck true caps).2.2 = .ok () →
    ∀ a ∈ outputs (fun g kv => NameMap.insertOrUpdate g kv true) (h.atMatch msg).reg.caps.edit
      caps.entries, ∃ old, a = .ok old

omit [SaslLogic L] [NickGen N] [Base64.Engine] in
/-- The calls of 005 are those that lead to what it leaves. -/
theorem isupport_handleISupport (hwords : msg.args.words ≠ []) :
    (h.handleISupport msg).1.reg.isupport =
      (final (fun ism elem => ism.insert NameMap.tag elem) h.reg.isupport.edit
        (isupportTokens msg)).drop NameMap.tag := by
  obtain ⟨client, isupports, heq⟩ := List.exists_cons_of_ne_nil hwords
  rw [final_eq_foldl, isupportTokens, heq, List.tail_cons, List.foldl_map]
  unfold handleISupport
  rw [heq]

omit [SaslLogic L] [NickGen N] [Base64.Engine] in
/-- The calls of `CAP ACK` are those that lead to what it leaves. -/
theorem caps_updateCaps (caps : OrderedMap Key Word) :
    (h.updateCaps caps).reg.caps =
      (final (fun g kv => NameMap.insertOrUpdate g kv true) h.reg.caps.edit
        caps.entries).drop NameMap.tag := by
  rw [final_eq_foldl]
  rfl

/-- The states that messages lead to, from the handler of any registration. -/
def Reachable : Handler N L → Prop :=
  Reach (fun h => ∃ (O : Type) (register : Register O N L) (opts : O),
    h = (register.handler opts).2) step

/-- **The capabilities are sorted** in every reachable state. -/
theorem Reachable.strictSorted (hr : Reachable h) : StrictSorted NameMap.tag h.reg.caps.vec := by
  refine Reach.invariant (fun h : Handler N L => StrictSorted NameMap.tag h.reg.caps.vec) ?_ ?_ hr
  · rintro _ ⟨O, register, opts, rfl⟩
    exact strictSorted_nil
  · intro h msg h' hs hstep
    obtain ⟨sent, r, hout⟩ := exists_handle_of_step hstep
    exact (moves_handle hout).1.strictSorted hs

/-- **The ISUPPORT tokens are sorted** in every reachable state, though one may be there twice. -/
theorem Reachable.sorted_isupport (hr : Reachable h) :
    Sorted NameMap.tag h.reg.isupport.vec := by
  refine Reach.invariant (fun h : Handler N L => Sorted NameMap.tag h.reg.isupport.vec) ?_ ?_ hr
  · rintro _ ⟨O, register, opts, rfl⟩
    exact List.Pairwise.nil
  · intro h msg h' hs hstep
    obtain ⟨sent, r, hout⟩ := exists_handle_of_step hstep
    exact (moves_handle hout).1.isupport hs

/-- The message is handled to completion, by accesses that are all defined, and if it deletes
capabilities, exactly those that it names are gone. -/
structure HandleCorrect (h : Handler N L) (msg : ServerMsg) : Prop where
  defined : h.AccessesDefined msg
  completes : ∃ h' sent r, h.handle msg = .ok (h', sent, r) ∧
    ∀ caps ∈ deletedCaps msg,
      h'.reg.caps.vec = h.reg.caps.vec.filter fun e => decide (NameMap.tag e ∉ caps.keys)

end

/-- A `CAP` message to a client that has no nick yet. -/
def capMsg (subcmd : Arg) (caps : Line) : ServerMsg :=
  ⟨Tags.new, none, .cmd Cap.cap, ((Args.ofWords [star, subcmd]).add caps).2⟩

theorem reachable_bot [Base64.Engine] : Reachable (bot []) :=
  .init ⟨_, registerAsBot fun _ => .fromStr "VNZB", _, rfl⟩

/-- A numeric with words as its arguments. -/
def wordsMsg (n : Numeric) (words : List Arg) : ServerMsg :=
  ⟨Tags.new, none, .numeric n, Args.ofWords words⟩

/-- **A 005 that repeats a token.**  `B` is the first of the sorted tokens, `A` is out of order, and
`C` is found behind `A` when it comes again. -/
theorem not_handleCorrect_repeated :
    letI := emptyEngine
    ∃ h, (bot []).step (wordsMsg ⟨text "001", by decide⟩ [.fromStr "me"]) = .ok h ∧ Reachable h ∧
      ¬ h.HandleCorrect (wordsMsg ⟨text "005", by decide⟩
        [.fromStr "me", .fromStr "B", .fromStr "A", .fromStr "C=1", .fromStr "C=2"]) := by
  let _ : Base64.Engine := emptyEngine
  let msg := wordsMsg ⟨text "005", by decide⟩
    [.fromStr "me", .fromStr "B", .fromStr "A", .fromStr "C=1", .fromStr "C=2"]
  have hrun : ((bot []).step (wordsMsg ⟨text "001", by decide⟩ [.fromStr "me"])).map (fun h =>
      ((h.atMatch msg).state.isAwaitEnd,
        (outputs (fun ism elem => ism.insert NameMap.tag elem) (h.atMatch msg).reg.isupport.edit
          (isupportTokens msg)).map Except.isOk)) =
      .ok (true, [true, true, true, false]) := by decide +kernel
  cases hwelcome : (bot []).step (wordsMsg ⟨text "001", by decide⟩ [.fromStr "me"]) with
  | error p =>
    rw [hwelcome] at hrun
    exact absurd hrun (by simp [Except.map])
  | ok h =>
    rw [hwelcome] at hrun
    obtain ⟨hstate, hout⟩ := Prod.mk.inj (Except.ok.inj hrun)
    refine ⟨h, rfl, .step _ reachable_bot hwelcome, fun hc => ?_⟩
    have hfalse : false ∈ [true, true, true, false] := by decide
    rw [← hout] at hfalse
    obtain ⟨a, ha, hfails⟩ := List.mem_map.mp hfalse
    obtain ⟨old, rfl⟩ := hc.defined.1 rfl hstate a ha
    exact absurd hfails (by simp [Except.isOk, Except.toBool])

end Handler

end Register

end Vinezombie
