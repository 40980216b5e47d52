import Vinezombie.Client.RegisterCaps
import Vinezombie.Client.RegisterSends

/-!
# Requested capabilities

The registration handler requests capabilities once, at the last line of `CAP LS`, and what it
requests is what the `CapFn` asks for, with `sasl` if there is a mechanism that both sides have, and
without `sts`.  What the `CapFn` is asked about, and what the request is checked against, are the
capabilities that the server offered so far: a run keeps them on record (`Waiting`) until then.

* `mem_offeredCaps_iff`, `isSome_advertised_iff`: what is offered, by the messages so far.
* `requests_handleReq`, `fails_handleReq`: what is requested, and when nothing is.
* `asksCaps_of_isReq`: a request is sent by the last line of `CAP LS` only.
* `requests_offered`: whole runs.
-/

namespace Vinezombie

open Library Library.KeyedList Library.Machine Auth

namespace Register

open Cap

/-! ## What is offered -/

/-- A `CAP LS`, `CAP NEW` or `CAP ACK` message that names a capability. -/
def Offers (msg : ServerMsg) (k : Key) : Prop :=
  ∃ args, capArgs msg = some args ∧ args.subcmd ∈ [.ls, .new, .ack] ∧ k ∈ args.caps.keys

/-- A `CAP DEL` message that names a capability. -/
def Deletes (msg : ServerMsg) (k : Key) : Prop :=
  ∃ args, capArgs msg = some args ∧ args.subcmd = .del ∧ k ∈ args.caps.keys

/-- **A message offers a capability, and no message since deletes it.** -/
def Offered (seen : List ServerMsg) (k : Key) : Prop :=
  ∃ before msg after, seen = before ++ msg :: after ∧ Offers msg k ∧ ∀ del ∈ after, ¬ Deletes del k

/-- The capabilities on record after some messages, with their values. -/
def advertised (seen : List ServerMsg) : Key → Option Word := seen.foldl advertise fun _ => none

/-- What a message changes about the capabilities that are offered. -/
def offer (avail : Finset Key) (msg : ServerMsg) : Finset Key :=
  match capArgs msg with
  | none => avail
  | some args =>
    match args.subcmd with
    | .ls | .new | .ack => avail ∪ args.caps.keys.toFinset
    | .del => avail \ args.caps.keys.toFinset
    | .nak | .list => avail

/-- The capabilities that are offered after some messages. -/
def offeredCaps (seen : List ServerMsg) : Finset Key := seen.foldl offer ∅

variable {msg : ServerMsg} {seen : List ServerMsg} {k : Key}

theorem offered_snoc :
    Offered (seen ++ [msg]) k ↔ Offers msg k ∨ Offered seen k ∧ ¬ Deletes msg k := by
  constructor
  · rintro ⟨before, adv, after, heq, hadv, hafter⟩
    rcases List.eq_nil_or_concat after with rfl | ⟨after, last, rfl⟩
    · obtain ⟨-, hlast⟩ := List.append_inj' heq rfl
      rw [(List.cons.inj hlast).1]
      exact .inl hadv
    · rw [List.concat_eq_append, ← List.cons_append, ← List.append_assoc] at heq
      obtain ⟨hseen, hlast⟩ := List.append_inj' heq rfl
      rw [(List.cons.inj hlast).1]
      refine .inr ⟨⟨before, adv, after, hseen, hadv, fun del hdel => ?_⟩, ?_⟩
      · exact hafter del (by simp [hdel])
      · exact hafter last (by simp)
  · rintro (hadv | ⟨⟨before, adv, after, rfl, hadv, hafter⟩, hdel⟩)
    · exact ⟨seen, msg, [], rfl, hadv, by simp⟩
    · refine ⟨before, adv, after ++ [msg], by simp, hadv, fun del hmem => ?_⟩
      rcases List.mem_append.mp hmem with hmem | hmem
      · exact hafter del hmem
      · rw [List.mem_singleton.mp hmem]
        exact hdel

/-- **The rule for what is offered**: a property that each message changes in that way. -/
theorem iff_offered {P : List ServerMsg → Prop} (hnil : ¬ P [])
    (hsnoc : ∀ seen msg, P (seen ++ [msg]) ↔ Offers msg k ∨ P seen ∧ ¬ Deletes msg k)
    (seen : List ServerMsg) : P seen ↔ Offered seen k := by
  induction seen using List.reverseRecOn with
  | nil =>
    refine iff_of_false hnil ?_
    rintro ⟨before, adv, after, heq, -⟩
    exact absurd heq (by simp)
  | append_singleton seen msg ih => rw [hsnoc, offered_snoc, ih]

theorem mem_offer_iff (avail : Finset Key) :
    k ∈ offer avail msg ↔ Offers msg k ∨ k ∈ avail ∧ ¬ Deletes msg k := by
  unfold offer Offers Deletes
  cases capArgs msg with
  | none => simp
  | some args =>
    cases hsub : args.subcmd with
    | _ => simp [hsub, or_comm]

theorem isSome_advertise_iff (known : Key → Option Word) :
    (advertise known msg k).isSome = true ↔
      Offers msg k ∨ (known k).isSome = true ∧ ¬ Deletes msg k := by
  unfold advertise Offers Deletes
  cases capArgs msg with
  | none => simp
  | some args =>
    cases hsub : args.subcmd with
    | del =>
      have hiff := OrderedMap.get_isSome_iff (m := args.caps) (k := k)
      by_cases hk : k ∈ args.caps.keys
      · simp [hsub, hk, hiff.mpr hk]
      · simp [hsub, hk, mt hiff.mp hk]
    | _ => simp [hsub, OrderedMap.get_isSome_iff, or_comm]

theorem mem_offeredCaps_iff (seen : List ServerMsg) (k : Key) :
    k ∈ offeredCaps seen ↔ Offered seen k := by
  refine iff_offered (P := fun seen => k ∈ offeredCaps seen) (by simp [offeredCaps]) ?_ seen
  intro seen msg
  rw [offeredCaps, List.foldl_append]
  exact mem_offer_iff _

theorem isSome_advertised_iff (seen : List ServerMsg) (k : Key) :
    (advertised seen k).isSome = true ↔ Offered seen k := by
  refine iff_offered (P := fun seen => (advertised seen k).isSome = true) (by simp [advertised]) ?_
    seen
  intro seen msg
  rw [advertised, List.foldl_append]
  exact isSome_advertise_iff _

/-! ## Mechanisms that both sides have -/

/-- The server has a mechanism, by the value of the `sasl` capability. -/
def Supports (values : Key → Option Word) (mech : Arg) : Prop :=
  ∃ value mechs, values Cap.sasl = some value ∧
    Cap.Sasl.fromUnion (Cap.sasl, value) = .ok mechs ∧ ∃ m ∈ mechs, m.bytes = mech.bytes

/-- A mechanism of the queue that the server has too. -/
def Usable {L : Type} [SaslLogic L] (values : Key → Option Word) (auths : SaslQueue L) : Prop :=
  ∃ logic ∈ auths.queue, Supports values (SaslLogic.name logic)

/-- No micro step begins the wait for `CAP LS`. -/
theorem Micro.eq_of_req {L : Type} [SaslLogic L] {state : HandlerState L} {sent : List ClientMsg}
    {reqs : CapFn} {auths : SaslQueue L} (hmicro : Micro msg state sent (.req reqs auths)) :
    state = .req reqs auths := by
  cases hmicro with
  | quiet => rfl

namespace Handler

variable {N L : Type} {h h' : Handler N L}

/-- The capabilities that the `CapFn` is asked about. -/
theorem mem_keys_iff : k ∈ (NameMap.keys h.reg.caps).toFinset ↔ (h.value k).isSome = true := by
  rw [value, Option.isSome_map, NameMap.getUnion_eq, NameMap.lookup_map_fst, Option.isSome_map,
    ← Option.ne_none_iff_isSome, Ne, lookup_eq_none_iff, NameMap.keys, List.mem_toFinset,
    List.mem_map]
  push Not
  rfl

/-- The capabilities that the `CapFn` is asked about are those that are offered. -/
theorem keys_eq_offeredCaps (hvalue : h.value = advertised seen) :
    (NameMap.keys h.reg.caps).toFinset = offeredCaps seen := by
  ext k
  rw [mem_keys_iff, hvalue, isSome_advertised_iff, mem_offeredCaps_iff]

/-- The value of the `sasl` capability, parsed. -/
theorem getParsed_sasl (h : Handler N L) :
    NameMap.getParsed h.reg.caps Cap.sasl Cap.Sasl.fromUnion =
      (h.value Cap.sasl).map fun value => Cap.Sasl.fromUnion (Cap.sasl, value) := by
  have hparsed : NameMap.getParsed h.reg.caps Cap.sasl Cap.Sasl.fromUnion =
      (h.reg.caps.getUnion Cap.sasl).map Cap.Sasl.fromUnion := by
    rw [NameMap.getParsed, NameMap.getUnion, Option.map_map]
    rfl
  rw [hparsed, value, Option.map_map]
  cases h.reg.caps.getUnion Cap.sasl with
  | none => rfl
  | some union => rfl

section

variable [SaslLogic L]

/-- **The queue that is left** has the mechanisms that the server has. -/
theorem mem_filterAuths_iff (auths : SaslQueue L) (logic : L) :
    logic ∈ (filterAuths h.reg.caps auths).queue ↔
      logic ∈ auths.queue ∧ Supports h.value (SaslLogic.name logic) := by
  unfold filterAuths Supports
  rw [getParsed_sasl]
  cases hvalue : h.value Cap.sasl with
  | none => simp [SaslQueue.clear]
  | some value =>
    cases hmechs : Cap.Sasl.fromUnion (Cap.sasl, value) with
    | error e => exact absurd hmechs (by simp [Cap.Sasl.fromUnion])
    | ok mechs => simp [SaslQueue.retain, hmechs]

theorem isEmpty_filterAuths_iff (auths : SaslQueue L) :
    (filterAuths h.reg.caps auths).isEmpty = true ↔ ¬ Usable h.value auths := by
  rw [SaslQueue.isEmpty, List.isEmpty_iff, List.eq_nil_iff_forall_not_mem]
  constructor
  · rintro hall ⟨logic, hlogic, hsup⟩
    exact hall logic ((mem_filterAuths_iff auths logic).mpr ⟨hlogic, hsup⟩)
  · intro hnone logic hmem
    exact hnone ⟨logic, (mem_filterAuths_iff auths logic).mp hmem⟩

/-- With such a mechanism `sasl` is offered. -/
theorem sasl_mem_keys {auths : SaslQueue L} (husable : Usable h.value auths) :
    Cap.sasl ∈ (NameMap.keys h.reg.caps).toFinset := by
  obtain ⟨logic, -, value, mechs, hvalue, -⟩ := husable
  rw [mem_keys_iff, hvalue]
  rfl

/-! ## The request -/

/-- **What is requested** is offered, and is not `sts`; it is what was asked for, or `sasl`. -/
theorem requests_handleReq {reqs : CapFn} {auths : SaslQueue L} {m : ClientMsg}
    (hm : m ∈ (h.handleReq reqs auths).2.1) {cap : List UInt8} (hcap : Requests m cap) :
    ∃ key ∈ (NameMap.keys h.reg.caps).toFinset, key.bytes = cap ∧ key ≠ Cap.sts ∧
      (key ∈ reqs (NameMap.keys h.reg.caps).toFinset ∨
        key = Cap.sasl ∧ Usable h.value auths) := by
  have hasked : ∀ key ∈ (if (filterAuths h.reg.caps auths).isEmpty = true then
      reqs (NameMap.keys h.reg.caps).toFinset
      else insert Cap.sasl (reqs (NameMap.keys h.reg.caps).toFinset)),
      key ∈ reqs (NameMap.keys h.reg.caps).toFinset ∨
        key = Cap.sasl ∧ Usable h.value auths := by
    intro key hkey
    split at hkey
    · exact .inl hkey
    · rename_i hne
      rcases Finset.mem_insert.mp hkey with hsasl | hkey
      · exact .inr ⟨hsasl, not_not.mp fun hnone => hne ((isEmpty_filterAuths_iff auths).mpr hnone)⟩
      · exact .inl hkey
  unfold handleReq at hm
  dsimp only at hm
  generalize (if (filterAuths h.reg.caps auths).isEmpty = true then
      reqs (NameMap.keys h.reg.caps).toFinset
      else insert Cap.sasl (reqs (NameMap.keys h.reg.caps).toFinset)) = asked at hm hasked
  split at hm
  · exact absurd hm (by simp)
  · split at hm
    · exact absurd hm (by simp)
    · rename_i hdiff
      have hsub := Finset.sdiff_eq_empty_iff_subset.mp (not_not.mp hdiff)
      split at hm
      · exact absurd hm (by simp)
      · obtain ⟨key, hkey, hbytes⟩ := requests_req hm cap hcap
        obtain ⟨hsts, hmem⟩ := Finset.mem_erase.mp ((Finset.mem_sort _).mp hkey)
        exact ⟨key, hsub hmem, hbytes, hsts, hasked key hmem⟩

/-- **When nothing is requested**: something is asked for that is not offered. -/
theorem fails_handleReq {reqs : CapFn} (auths : SaslQueue L)
    (hmissing : ¬ reqs (NameMap.keys h.reg.caps).toFinset ⊆ (NameMap.keys h.reg.caps).toFinset) :
    (h.handleReq reqs auths).2.1 = [] ∧
      (h.needsAuth = true ∧ ¬ Usable h.value auths →
        (h.handleReq reqs auths).2.2 = .err .noLogin) ∧
      (¬ (h.needsAuth = true ∧ ¬ Usable h.value auths) →
        (h.handleReq reqs auths).2.2 = .err (.missingCaps
          (reqs (NameMap.keys h.reg.caps).toFinset \ (NameMap.keys h.reg.caps).toFinset))) := by
  have hdiff : reqs (NameMap.keys h.reg.caps).toFinset \ (NameMap.keys h.reg.caps).toFinset ≠ ∅ :=
    fun hempty => hmissing (Finset.sdiff_eq_empty_iff_subset.mp hempty)
  have hiff := isEmpty_filterAuths_iff (h := h) auths
  unfold handleReq
  dsimp only
  by_cases husable : Usable h.value auths
  · -- `sasl` is offered, and so is not missing
    have hinsert := Finset.insert_sdiff_of_mem (reqs (NameMap.keys h.reg.caps).toFinset)
      (sasl_mem_keys husable)
    have hempty : ¬ (filterAuths h.reg.caps auths).isEmpty = true := fun h => hiff.mp h husable
    rw [if_neg fun hh => hempty hh.1, if_neg hempty, hinsert, if_pos hdiff]
    exact ⟨rfl, fun hh => absurd husable hh.2, fun _ => rfl⟩
  · have hempty := hiff.mpr husable
    by_cases hauth : h.needsAuth = true
    · rw [if_pos ⟨hempty, hauth⟩]
      exact ⟨rfl, fun _ => rfl, fun hh => absurd ⟨hauth, husable⟩ hh⟩
    · rw [if_neg fun hh => hauth hh.2, if_pos hempty, if_pos hdiff]
      exact ⟨rfl, fun hh => absurd hh.1 hauth, fun _ => rfl⟩

/-! ## Where requests are sent -/

/-- The last line of `CAP LS`. -/
def EndsLs (msg : ServerMsg) (args : ServerMsgArgs) : Prop :=
  capArgs msg = some args ∧ args.subcmd = .ls ∧ args.isLast = true

theorem handleCap_of_endsLs {args : ServerMsgArgs} {reqs : CapFn} {auths : SaslQueue L}
    (hends : EndsLs msg args) (hstate : h.state = .req reqs auths) :
    h.handleCap msg = .ok ((h.insertCaps args.caps).handleReq reqs auths) := by
  obtain ⟨hargs, hsub, hlast⟩ := hends
  have hinsert : (h.insertCaps args.caps).state = .req reqs auths := hstate
  rw [handleCap, (capArgs_eq_some_iff.mp hargs).2]
  dsimp only
  rw [hsub]
  dsimp only
  rw [if_pos hlast, hinsert]

theorem isAuth_of_mem_onAck (state : HandlerState L) (ack : Bool) (caps : OrderedMap Key Word) :
    ∀ m ∈ (state.onAck ack caps).2.1, IsAuth m := by
  intro m hm
  cases state with
  | ack ackd queue =>
    unfold HandlerState.onAck at hm
    dsimp only at hm
    generalize (if ack = true then ackd \ caps.keys.toFinset else ackd) = left at hm
    split at hm
    · exact absurd hm (by simp)
    · split at hm
      · cases hqueue : Auth.Handler.fromQueue queue with
        | none => exact absurd hm (by simp [hqueue])
        | some handler =>
          rw [hqueue, List.mem_singleton] at hm
          rw [hm]
          rfl
      · exact absurd hm (by simp)
  | _ => exact absurd hm (by simp [HandlerState.onAck])

theorem isAuth_of_mem_handleAck (ack : Bool) (caps : OrderedMap Key Word)
    (andThen : Handler N L → Handler N L) :
    ∀ m ∈ (h.handleAck ack caps andThen).2.1, IsAuth m := by
  have hon := isAuth_of_mem_onAck h.state ack caps
  unfold handleAck
  split
  · rename_i state sent e hack
    rw [hack] at hon
    exact hon
  · rename_i state sent hack
    rw [hack] at hon
    exact hon

/-- **The arm for `CAP`** requests at the last line of `CAP LS` only. -/
theorem endsLs_of_mem_handleCap {out : Handler N L × List ClientMsg × Flow} {m : ClientMsg}
    (hkind : msg.kind.asBytes = text "CAP") (hout : h.handleCap msg = .ok out) (hm : m ∈ out.2.1)
    (hreq : IsReq m) :
    ∃ args reqs auths, EndsLs msg args ∧ h.state = .req reqs auths ∧
      out = (h.insertCaps args.caps).handleReq reqs auths := by
  have hauth : ∀ {P : Prop}, IsAuth m → P := fun h => absurd hreq h.not_cap.1
  have hcase := capCase_handleCap msg h
  rw [hout] at hcase
  cases hcase with
  | malformed e hparse => exact absurd hm (by simp)
  | adds args hparse hsub => exact absurd hm (by simp)
  | asks args reqs auths hparse hsub hlast hstate =>
    exact ⟨args, reqs, auths, ⟨capArgs_eq_some_iff.mpr ⟨hkind, hparse⟩, hsub, hlast⟩, hstate, rfl⟩
  | ack args hparse hsub => exact hauth (isAuth_of_mem_handleAck _ _ _ m hm)
  | nak args hparse hsub => exact hauth (isAuth_of_mem_handleAck _ _ _ m hm)
  | del args h₁ hparse hsub hr => exact hauth (isAuth_of_mem_handleAck _ _ _ m hm)
  | list args e hparse hsub => exact absurd hm (by simp)

omit [SaslLogic L] in
theorem not_isReq_of_mem_finish (retval : Option Registration) :
    ∀ m ∈ (h.finish retval).2.1, ¬ IsReq m := by
  intro m hm
  unfold finish at hm
  split at hm
  · split at hm
    · exact absurd hm (by simp)
    · rw [List.mem_singleton.mp hm]
      show ¬ (some (text "END") = some (text "REQ"))
      decide
  · exact absurd hm (by simp)

variable [Base64.Engine]

theorem isAuth_of_mem_handleSasl : ∀ m ∈ (h.handleSasl msg).2.1, IsAuth m := by
  intro m hm
  cases hstate : h.state with
  | sasl handler =>
    have hauth := isAuth_of_mem_handle handler msg
    unfold handleSasl at hm
    rw [hstate] at hm
    dsimp only at hm
    split at hm
    · rename_i hout
      rw [hout] at hauth
      exact hauth m hm
    · rename_i hout
      rw [hout] at hauth
      exact hauth m hm
    · rename_i hout
      rw [hout] at hauth
      exact hauth m hm
  | _ =>
    unfold handleSasl at hm
    rw [hstate] at hm
    exact absurd hm (by simp)

/-- What is done before the `match` neither begins nor ends the wait for `CAP LS`. -/
theorem atMatch_state_req_iff {reqs : CapFn} {auths : SaslQueue L} :
    (h.atMatch msg).state = .req reqs auths ↔ h.state = .req reqs auths := by
  obtain ⟨source, hsource⟩ := noteSource_eq h msg
  have hnote : (h.noteSource msg).state = h.state := by rw [hsource]
  rw [atMatch, handleSasl, hnote]
  cases hstate : h.state with
  | sasl handler =>
    dsimp only
    split
    · simp
    · simp
    · simp
  | _ =>
    dsimp only
    rw [hnote, hstate]

variable [NickGen N]

/-- **A step requests at the last line of `CAP LS` only.** -/
theorem endsLs_of_isReq {sent : List ClientMsg} {r : Except HandlerError (Option Registration)}
    (hout : h.handle msg = .ok (h', sent, r)) {m : ClientMsg} (hm : m ∈ sent) (hreq : IsReq m) :
    ∃ args reqs auths, EndsLs msg args ∧ h.state = .req reqs auths ∧
      m ∈ (((h.atMatch msg).insertCaps args.caps).handleReq reqs auths).2.1 := by
  have hdispatch : ∀ ignoreSasl out, (h.atMatch msg).dispatch ignoreSasl msg = .ok out →
      m ∈ out.2.1 → ∃ args reqs auths, EndsLs msg args ∧ h.state = .req reqs auths ∧
        m ∈ (((h.atMatch msg).insertCaps args.caps).handleReq reqs auths).2.1 := by
    intro ignoreSasl out hdisp hmem
    by_cases hkind : msg.kind.asBytes = text "CAP"
    · rw [dispatch_of_cap hkind] at hdisp
      obtain ⟨args, reqs, auths, hends, hstate, rfl⟩ :=
        endsLs_of_mem_handleCap hkind hdisp hmem hreq
      exact ⟨args, reqs, auths, hends, atMatch_state_req_iff.mp hstate, hmem⟩
    · exact absurd hreq (isOther_of_nick ((dispatch_of_not_cap hkind hdisp).1 m hmem)).not_req
  have hsasl : m ∉ ((h.noteSource msg).handleSasl msg).2.1 :=
    fun hmem => (isAuth_of_mem_handleSasl m hmem).not_cap.1 hreq
  cases parts_of_handle hout with
  | pong reply hpong =>
    rw [List.mem_singleton.mp hm] at hreq
    exact absurd hreq (isOther_of_pong hpong).not_req
  | ret ignoreSasl h₁ sent₂ result hdisp =>
    exact hdispatch ignoreSasl _ hdisp ((List.mem_append.mp hm).resolve_left hsasl)
  | go ignoreSasl h₁ sent₂ retval hdisp =>
    rcases List.mem_append.mp hm with hm | hm
    · exact hdispatch ignoreSasl _ hdisp ((List.mem_append.mp hm).resolve_left hsasl)
    · exact absurd hreq (not_isReq_of_mem_finish retval m hm)

/-- A step that fails to request. -/
theorem result_of_endsLs {sent : List ClientMsg} {r : Except HandlerError (Option Registration)}
    (hout : h.handle msg = .ok (h', sent, r)) {args : ServerMsgArgs} {reqs : CapFn}
    {auths : SaslQueue L} (hends : EndsLs msg args) (hstate : h.state = .req reqs auths)
    {e : HandlerError}
    (herr : (((h.atMatch msg).insertCaps args.caps).handleReq reqs auths).2.2 = .err e) :
    r = .error e := by
  have hkind := (capArgs_eq_some_iff.mp hends.1).1
  have hat : (h.atMatch msg).state = .req reqs auths := atMatch_state_req_iff.mpr hstate
  have hcap := handleCap_of_endsLs hends hat
  cases parts_of_handle hout with
  | pong reply hpong => exact absurd (hkind.symm.trans (kind_of_pong hpong)) (by decide)
  | ret ignoreSasl h₁ sent₂ result hdisp =>
    rw [dispatch_of_cap hkind, hcap] at hdisp
    rw [Except.ok.inj hdisp] at herr
    exact Flow.ret.inj herr
  | go ignoreSasl h₁ sent₂ retval hdisp =>
    rw [dispatch_of_cap hkind, hcap] at hdisp
    rw [Except.ok.inj hdisp] at herr
    exact absurd herr (by simp [Flow.err])

/-! ## Runs -/

/-- **What a run keeps** while the handler waits for `CAP LS`: what it was made with, and a record
of what was advertised. -/
structure Waiting (caps : CapFn) (needsAuth : Bool) (auths : SaslQueue L) (seen : List ServerMsg)
    (h : Handler N L) : Prop where
  strictSorted : StrictSorted NameMap.tag h.reg.caps.vec
  needsAuth_eq : h.needsAuth = needsAuth
  req : ∀ reqs queue, h.state = .req reqs queue →
    reqs = caps ∧ queue = auths ∧ h.value = advertised seen

variable {caps : CapFn} {needsAuth : Bool} {auths : SaslQueue L}

theorem Waiting.step (hw : Waiting caps needsAuth auths seen h) (hstep : h.step msg = .ok h') :
    Waiting caps needsAuth auths (seen ++ [msg]) h' := by
  obtain ⟨sent, r, hout⟩ := exists_handle_of_step hstep
  obtain ⟨hmoves, -⟩ := moves_handle hout
  refine ⟨hmoves.strictSorted hw.strictSorted, hmoves.needsAuth.trans hw.needsAuth_eq, ?_⟩
  intro reqs queue hstate
  obtain ⟨state₁, state₂, sent₁, sent₂, sent₃, hm₁, hm₂, hm₃, -⟩ := micro_handle hout
  rw [hstate] at hm₃
  rw [hm₃.eq_of_req] at hm₂
  rw [hm₂.eq_of_req] at hm₁
  have hbefore := hm₁.eq_of_req
  obtain ⟨hcaps, hqueue, hvalue⟩ := hw.req reqs queue hbefore
  refine ⟨hcaps, hqueue, ?_⟩
  rw [value_handle hw.strictSorted (by simp [hbefore, HandlerState.isAwaitEnd]) hout, hvalue,
    advertised, advertised, List.foldl_append]
  rfl

theorem waiting_of_run {nicks : Nick × Option N}
    (hrun : seen.foldlM step (Handler.new nicks caps needsAuth auths) = .ok h) :
    Waiting caps needsAuth auths seen h := by
  have hinit : Waiting caps needsAuth auths [] (Handler.new nicks caps needsAuth auths) := by
    refine ⟨strictSorted_nil, rfl, fun reqs queue hstate => ?_⟩
    obtain ⟨rfl, rfl⟩ := HandlerState.req.inj hstate
    exact ⟨rfl, rfl, rfl⟩
  have hmeets : Meets step (fun _ _ => True) (Handler.new nicks caps needsAuth auths) seen :=
    meets_of_forall (fun _ _ => trivial) seen _
  have hend := foldlM_invariant (Waiting caps needsAuth auths)
    (fun _ _ _ _ hw _ hstep => hw.step hstep) seen [] _ h hinit hmeets hrun
  rwa [List.nil_append] at hend

omit [NickGen N] in
/-- The record when the `CapFn` is asked. -/
theorem Waiting.value_insertCaps (hw : Waiting caps needsAuth auths seen h) {reqs : CapFn}
    {queue : SaslQueue L} (hstate : h.state = .req reqs queue) {args : ServerMsgArgs}
    (hends : EndsLs msg args) :
    ((h.atMatch msg).insertCaps args.caps).value = advertised (seen ++ [msg]) := by
  have hs : StrictSorted NameMap.tag (h.atMatch msg).reg.caps.vec := by
    rw [caps_atMatch]
    exact hw.strictSorted
  funext k
  rw [Handler.value_insertCaps hs, value_eq_of_caps (caps_atMatch h msg),
    (hw.req reqs queue hstate).2.2, advertised, advertised, List.foldl_append, List.foldl_cons,
    List.foldl_nil, advertise, hends.1]
  dsimp only
  rw [hends.2.1]

/-- The message makes the handler ask its `CapFn`: it is the last line of `CAP LS`, and the handler
waits for it. -/
def AsksCaps (h : Handler N L) (msg : ServerMsg) : Prop :=
  (∃ reqs queue, h.state = .req reqs queue) ∧ ∃ args, EndsLs msg args

/-- **Requests are for what is offered.**  In every run of a new handler, a capability that is
requested was offered by a message so far and not deleted since, is not `sts`, and is asked for by
the `CapFn` or is `sasl` while there is a mechanism that both sides have.  The handler requests when
it asks its `CapFn`; if that asks for something that is not offered, nothing is requested, and the
handler fails with what is missing, or for want of a mechanism where a login is required. -/
theorem requests_offered (nicks : Nick × Option N) (caps : CapFn) (needsAuth : Bool)
    (auths : SaslQueue L) (seen : List ServerMsg) (msg : ServerMsg) (h h' : Handler N L)
    (sent : List ClientMsg) (r : Except HandlerError (Option Registration))
    (hrun : seen.foldlM step (Handler.new nicks caps needsAuth auths) = .ok h)
    (hout : h.handle msg = .ok (h', sent, r)) :
    (∀ m ∈ sent, IsReq m → h.AsksCaps msg) ∧
    (∀ m ∈ sent, ∀ cap, Requests m cap →
      ∃ key : Key, key.bytes = cap ∧ Offered (seen ++ [msg]) key ∧ key ≠ Cap.sts ∧
        (key ∈ caps (offeredCaps (seen ++ [msg])) ∨
          key = Cap.sasl ∧ Usable (advertised (seen ++ [msg])) auths)) ∧
    (h.AsksCaps msg → ¬ caps (offeredCaps (seen ++ [msg])) ⊆ offeredCaps (seen ++ [msg]) →
      (∀ m ∈ sent, ¬ IsReq m) ∧
      (needsAuth = true ∧ ¬ Usable (advertised (seen ++ [msg])) auths → r = .error .noLogin) ∧
      (¬ (needsAuth = true ∧ ¬ Usable (advertised (seen ++ [msg])) auths) →
        r = .error (.missingCaps
          (caps (offeredCaps (seen ++ [msg])) \ offeredCaps (seen ++ [msg]))))) := by
  have hw := waiting_of_run hrun
  refine ⟨fun m hm hreq => ?_, fun m hm cap hcap => ?_, ?_⟩
  · obtain ⟨args, reqs, queue, hends, hstate, -⟩ := endsLs_of_isReq hout hm hreq
    exact ⟨⟨reqs, queue, hstate⟩, args, hends⟩
  · obtain ⟨args, reqs, queue, hends, hstate, hmem⟩ := endsLs_of_isReq hout hm hcap.1
    have hvalue := hw.value_insertCaps hstate hends
    obtain ⟨rfl, rfl, -⟩ := hw.req reqs queue hstate
    obtain ⟨key, hkey, hbytes, hsts, hasked⟩ := requests_handleReq hmem hcap
    rw [keys_eq_offeredCaps hvalue] at hkey hasked
    rw [hvalue] at hasked
    exact ⟨key, hbytes, (mem_offeredCaps_iff _ key).mp hkey, hsts, hasked⟩
  · rintro ⟨⟨reqs, queue, hstate⟩, args, hends⟩ hmissing
    have hvalue := hw.value_insertCaps hstate hends
    obtain ⟨rfl, rfl, -⟩ := hw.req reqs queue hstate
    have hauth : ((h.atMatch msg).insertCaps args.caps).needsAuth = needsAuth := by
      obtain ⟨source, state, hat, -⟩ := atMatch_eq h msg
      rw [← hw.needsAuth_eq, hat]
      rfl
    rw [← keys_eq_offeredCaps hvalue] at hmissing
    obtain ⟨hsent, hlogin, hcaps⟩ := fails_handleReq queue hmissing
    rw [hvalue, hauth] at hlogin hcaps
    rw [keys_eq_offeredCaps hvalue] at hcaps
    refine ⟨fun m hm hreq => ?_, fun hno => ?_, fun hyes => ?_⟩
    · obtain ⟨args', reqs', queue', hends', hstate', hmem⟩ := endsLs_of_isReq hout hm hreq
      obtain rfl : args' = args := Option.some.inj (hends'.1.symm.trans hends.1)
      obtain ⟨rfl, rfl⟩ := HandlerState.req.inj (hstate'.symm.trans hstate)
      rw [hsent] at hmem
      exact absurd hmem (by simp)
    · exact result_of_endsLs hout hends hstate (hlogin hno)
    · exact result_of_endsLs hout hends hstate (hcaps hyes)

end

/-- A server that has `EXTERNAL`, and a handler that asks for nothing else: `sasl` is requested. -/
theorem requests_offered_external :
    letI := emptyEngine
    ∃ key : Key, key.bytes = text "sasl" ∧
      Offered [capMsg (.fromStr "LS") (.fromStr "sasl=EXTERNAL x")] key ∧ key ≠ Cap.sts ∧
      (key ∈ (∅ : Finset Key) ∨ key = Cap.sasl ∧
        Usable (advertised [capMsg (.fromStr "LS") (.fromStr "sasl=EXTERNAL x")])
          (SaslQueue.fromIter [(⟨.empty⟩ : External)] : SaslQueue ExternalLogic)) := by
  let _ : Base64.Engine := emptyEngine
  have hsent : ((Handler.new (.fromStr "bot", (none : Option Nick)) (fun _ => ∅) true
      (SaslQueue.fromIter [(⟨.empty⟩ : External)] : SaslQueue ExternalLogic)).handle
        (capMsg (.fromStr "LS") (.fromStr "sasl=EXTERNAL x"))).map (fun out => out.2.1) =
      .ok [((ClientMsg.new Cap.cap).add (.fromStr "REQ")).add (.fromStr "sasl")] := by
    decide +kernel
  have hreq : Requests (((ClientMsg.new Cap.cap).add (.fromStr "REQ")).add (.fromStr "sasl"))
      (text "sasl") := ⟨rfl, by decide, .fromStr "sasl", rfl, by decide +kernel⟩
  cases hout : (Handler.new (.fromStr "bot", (none : Option Nick)) (fun _ => ∅) true
      (SaslQueue.fromIter [(⟨.empty⟩ : External)] : SaslQueue ExternalLogic)).handle
        (capMsg (.fromStr "LS") (.fromStr "sasl=EXTERNAL x")) with
  | error p =>
    rw [hout] at hsent
    exact absurd hsent (by simp [Except.map])
  | ok out =>
    rw [hout] at hsent
    have hone : out.2.1 = [_] := Except.ok.inj hsent
    have hmem : ((ClientMsg.new Cap.cap).add (.fromStr "REQ")).add (.fromStr "sasl") ∈
        out.2.1 := by
      rw [hone]
      exact List.mem_singleton.mpr rfl
    exact (requests_offered _ _ true _ [] _ _ out.1 out.2.1 out.2.2 rfl hout).2.1 _ hmem _ hreq

end Handler

end Register

end Vinezombie
