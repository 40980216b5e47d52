import Vinezombie.Client.AuthSteps
import Vinezombie.Client.Cap
import Vinezombie.Strings.Base64RoundTrip

/-!
# The mechanisms of a 908

A 908 names the mechanisms that the server supports.  They are one parameter, with commas between
the names, and the value of the `sasl` capability is the same list.  `SASL::from_union` takes the
list apart at the commas; `handle` does not.  It takes every argument before the text for the name
of a mechanism, the nick of the client among them, and finds no name in a list of two or more.

* `Cap.Sasl.mem_fromUnion_iff`: the names that the value of the capability is read into.
* `Auth.Handler.mechsCorrect_iff`: the lists with which a 908 does what it ought to.
-/

namespace Vinezombie

open Base64

/-- The names of mechanisms with commas between them. -/
def joinedNames (names : List Arg) : List UInt8 := [byte ','].intercalate (names.map Str.bytes)

theorem joinedNames_singleton (name : Arg) : joinedNames [name] = name.bytes :=
  List.intercalate_singleton

theorem joinedNames_cons_cons (name next : Arg) (names : List Arg) :
    joinedNames (name :: next :: names) =
      name.bytes ++ byte ',' :: joinedNames (next :: names) := by
  simp [joinedNames, List.intercalate_cons_cons]

/-! ## The value of the capability -/

namespace Cap.Sasl

variable {s : Splitter .word}

/-- What `untilComma` returns. -/
theorem bytes_untilComma (s : Splitter .word) :
    (untilComma s).1.bytes = s.asSlice.takeWhile fun c => !(c == byte ',') := by
  obtain ⟨w, hw, hrest⟩ := (s.untilByteEq (byte ',')).restOrDefault_eq (U := .word) rfl
  rw [Splitter.asSlice_untilByteEq] at hw
  rw [untilComma, Splitter.saveEnd, hrest]
  exact hw

/-- A pass of the loop over what begins with a name, and the comma behind it if there is one. -/
theorem untilComma_append {bytes rest : List UInt8} (h : s.Valid) (hbytes : byte ',' ∉ bytes)
    (hs : s.asSlice = bytes ++ rest) (hrest : ∀ c ∈ rest.head?, c = byte ',') :
    (untilComma s).1.bytes = bytes ∧ (untilComma s).2.nextByte.2.asSlice = rest.tail := by
  have hstop : ∀ c ∈ rest.head?, (!(c == byte ',')) = false := by simpa using hrest
  have hgo : ∀ c ∈ bytes, (!(c == byte ',')) = true := by
    intro c hc
    simpa using fun heq : c = byte ',' => hbytes (heq ▸ hc)
  constructor
  · rw [bytes_untilComma, hs]
    exact Library.Scan.takeWhile_append_of_stop hgo hstop
  · rw [Splitter.asSlice_nextByte, (untilComma_spec h).2, hs]
    exact congrArg List.tail (Library.Scan.dropWhile_append_of_stop hgo hstop)

theorem mem_namesLoop_iff {names : List Arg} (hcomma : ∀ name ∈ names, byte ',' ∉ name.bytes)
    (h : s.Valid) (hs : s.asSlice = joinedNames names) (found : Finset Word) (w : Word) :
    w ∈ namesLoop s h found ↔ w ∈ found ∨ ∃ name ∈ names, w = name.toWord.toUppercase := by
  induction names generalizing s found with
  | nil =>
    rw [namesLoop, dif_pos (h.isEmpty_iff.mpr hs)]
    simp
  | cons name names ih =>
    obtain ⟨b, l, hb, -⟩ := name.exists_eq_cons rfl
    -- what follows the name is nothing, or a comma and the names behind it
    obtain ⟨rest, hrest, hhead, htail⟩ : ∃ rest, s.asSlice = name.bytes ++ rest ∧
        (∀ c ∈ rest.head?, c = byte ',') ∧ rest.tail = joinedNames names := by
      cases names with
      | nil =>
        refine ⟨[], ?_, by simp, rfl⟩
        rw [hs, joinedNames_singleton, List.append_nil]
      | cons next names =>
        refine ⟨byte ',' :: joinedNames (next :: names), ?_, by simp, rfl⟩
        rw [hs, joinedNames_cons_cons]
    obtain ⟨hname, hnext⟩ :=
      untilComma_append h (hcomma name List.mem_cons_self) hrest hhead
    have hword : (untilComma s).1 = name.toWord := Str.ext hname
    have hne : s.isEmpty = false := h.isEmpty_of_cons (by rw [hrest, hb, List.cons_append])
    rw [namesLoop, dif_neg (by simp [hne]), ih (fun name hn => hcomma name (.tail _ hn)) _
      (hnext.trans htail), hword, if_neg (by simp [Arg.toWord, Str.into, hb]), Finset.mem_insert]
    rw [List.exists_mem_cons_iff, or_assoc, or_left_comm]

/-- **The names that the value of the capability is read into**: those between the commas, in upper
case. -/
theorem mem_fromUnion_iff {value : Word} {names : List Arg} {found : Finset Word}
    (hcomma : ∀ name ∈ names, byte ',' ∉ name.bytes) (hvalue : value.bytes = joinedNames names)
    (hfound : fromUnion (sasl, value) = .ok found) (w : Word) :
    w ∈ found ↔ ∃ name ∈ names, w = name.toWord.toUppercase := by
  rw [← Except.ok.inj hfound,
    mem_namesLoop_iff hcomma _ ((Splitter.asSlice_new value).trans hvalue)]
  simp

end Cap.Sasl

/-! ## The message -/

namespace Auth

/-- A 908 whose parameter for the mechanisms is a list of names, and has the nick of the client
before it and a text behind it. -/
structure IsMechs (msg : ServerMsg) (client mechs : Arg) (names : List Arg) : Prop where
  kind : msg.kind.asBytes = text "908"
  args : msg.args.splitLast.1 = [client, mechs]
  no_comma : ∀ name ∈ names, byte ',' ∉ name.bytes
  bytes : mechs.bytes = joinedNames names

namespace IsMechs

variable {msg : ServerMsg} {client mechs : Arg} {names : List Arg}

theorem ne_nil (hm : IsMechs msg client mechs names) : names ≠ [] := by
  rintro rfl
  obtain ⟨b, l, hb, -⟩ := mechs.exists_eq_cons rfl
  rw [hm.bytes] at hb
  exact absurd hb (by simp [joinedNames])

/-- A list of one name is that name. -/
theorem eq_singleton (hm : IsMechs msg client mechs names) (hone : names.length = 1) :
    names = [mechs] := by
  obtain ⟨name, rfl⟩ := List.length_eq_one_iff.mp hone
  rw [show mechs = name from Str.ext (hm.bytes.trans (joinedNames_singleton name))]

/-- The whole parameter is a name of the list only where the list has no other. -/
theorem mem_iff (hm : IsMechs msg client mechs names) : mechs ∈ names ↔ names.length = 1 := by
  constructor
  · intro hmem
    cases names with
    | nil => exact absurd rfl hm.ne_nil
    | cons name names =>
      cases names with
      | nil => rfl
      | cons next names =>
        have hcomma : byte ',' ∈ mechs.bytes := by
          rw [hm.bytes, joinedNames_cons_cons]
          exact List.mem_append_right _ List.mem_cons_self
        exact absurd hcomma (hm.no_comma mechs hmem)
  · intro hone
    rw [hm.eq_singleton hone]
    exact List.mem_singleton_self mechs

end IsMechs

/-- A mechanism for which it makes no difference that the list is not taken apart.  One with the
name of the client is in the list.  Otherwise the list has one name only, or the mechanism is not in
the list and is not called like all of it. -/
def TakenRight (client mechs : Arg) (names : List Arg) (name : Arg) : Prop :=
  if name = client then name ∈ names else names.length = 1 ∨ (name ∉ names ∧ name ≠ mechs)

theorem IsMechs.takenRight_iff {msg : ServerMsg} {client mechs : Arg} {names : List Arg}
    (hm : IsMechs msg client mechs names) {name : Arg} :
    TakenRight client mechs names name ↔ (name ∈ [client, mechs] ↔ name ∈ names) := by
  have hset : name ∈ [client, mechs] ↔ name = client ∨ name = mechs := by simp
  unfold TakenRight
  split
  · rename_i hclient
    rw [hset]
    exact ⟨fun hmem => iff_of_true (.inl hclient) hmem, fun hiff => hiff.mp (.inl hclient)⟩
  · rename_i hclient
    rw [hset, or_iff_right hclient]
    by_cases hone : names.length = 1
    · refine iff_of_true (.inl hone) ?_
      rw [hm.eq_singleton hone, List.mem_singleton]
    · have hmechs : mechs ∉ names := fun hmem => hone (hm.mem_iff.mp hmem)
      rw [or_iff_right hone]
      constructor
      · rintro ⟨hnames, hne⟩
        exact iff_of_false hne hnames
      · intro hiff
        have hne : name ≠ mechs := fun heq => hmechs (heq ▸ hiff.mp heq)
        exact ⟨fun hnames => hne (hiff.mpr hnames), hne⟩

/-- Two filters that keep the same of a list agree on all of it. -/
theorem filter_eq_filter_iff {α : Type} {p q : α → Prop} [DecidablePred p] [DecidablePred q]
    {l : List α} : (l.filter fun a => decide (p a)) = (l.filter fun a => decide (q a)) ↔
      ∀ a ∈ l, (p a ↔ q a) := by
  constructor
  · intro heq a ha
    have hp : a ∈ l.filter (fun a => decide (p a)) ↔ p a := by simp [ha]
    have hq : a ∈ l.filter (fun a => decide (q a)) ↔ q a := by simp [ha]
    rw [← hp, heq, hq]
  · intro hall
    exact List.filter_congr fun a ha => decide_eq_decide.mpr (hall a ha)

namespace Handler

section

variable {L : Type} [SaslLogic L]

theorem queue_handleMechs (h : Handler L) (msg : ServerMsg) :
    (h.handleMechs msg).1.queue.queue =
      h.queue.queue.filter fun l => decide (SaslLogic.name l ∈ msg.args.splitLast.1) := by
  unfold handleMechs
  dsimp only
  split
  · rfl
  · rfl

theorem handleMechs_eq_unsupported_iff (h : Handler L) (msg : ServerMsg) :
    (h.handleMechs msg).2.2 = .error .unsupported ↔
      SaslLogic.name h.logic ∉ msg.args.splitLast.1 ∧
        ∀ l ∈ h.queue.queue, SaslLogic.name l ∉ msg.args.splitLast.1 := by
  have hempty : (h.queue.retain fun ln => decide (ln ∈ msg.args.splitLast.1)).isEmpty = true ↔
      ∀ l ∈ h.queue.queue, SaslLogic.name l ∉ msg.args.splitLast.1 := by
    simp [SaslQueue.retain, SaslQueue.isEmpty, List.filter_eq_nil_iff]
  unfold handleMechs
  dsimp only
  split
  · rename_i hcond
    exact iff_of_true rfl ⟨hcond.2, hempty.mp hcond.1⟩
  · rename_i hcond
    refine iff_of_false (by simp) fun hnone => hcond ⟨hempty.mpr hnone.2, hnone.1⟩

variable [Engine]

/-- **What a 908 ought to do.**  The queue keeps the mechanisms of the list, in their order, and no
mechanism is supported just where neither the current one nor any in the queue is in the list. -/
structure MechsCorrect (h : Handler L) (msg : ServerMsg) (names : List Arg) : Prop where
  queue : (h.handle msg).1.queue.queue =
    h.queue.queue.filter fun l => decide (SaslLogic.name l ∈ names)
  unsupported : (h.handle msg).2.2 = .error .unsupported ↔
    SaslLogic.name h.logic ∉ names ∧ ∀ l ∈ h.queue.queue, SaslLogic.name l ∉ names

theorem handle_of_908 (h : Handler L) {msg : ServerMsg} (hkind : msg.kind.asBytes = text "908") :
    h.handle msg = h.handleMechs msg := by
  rw [handle, hkind]
  rfl

/-- **When a 908 does what it ought to.**  That is where it makes no difference for the mechanisms
of the queue that the list is not taken apart, and none for the current mechanism either if the list
has no mechanism of the queue. -/
theorem mechsCorrect_iff (h : Handler L) {msg : ServerMsg} {client mechs : Arg} {names : List Arg}
    (hm : IsMechs msg client mechs names) :
    h.MechsCorrect msg names ↔
      (∀ l ∈ h.queue.queue, TakenRight client mechs names (SaslLogic.name l)) ∧
        ((∀ l ∈ h.queue.queue, SaslLogic.name l ∉ names) →
          TakenRight client mechs names (SaslLogic.name h.logic)) := by
  have hqueue : (h.handle msg).1.queue.queue =
        (h.queue.queue.filter fun l => decide (SaslLogic.name l ∈ names)) ↔
      ∀ l ∈ h.queue.queue, TakenRight client mechs names (SaslLogic.name l) := by
    rw [handle_of_908 h hm.kind, queue_handleMechs, hm.args, filter_eq_filter_iff]
    exact forall₂_congr fun l _ => hm.takenRight_iff.symm
  have hresult : (h.handle msg).2.2 = .error .unsupported ↔
      SaslLogic.name h.logic ∉ [client, mechs] ∧
        ∀ l ∈ h.queue.queue, SaslLogic.name l ∉ [client, mechs] := by
    rw [handle_of_908 h hm.kind, handleMechs_eq_unsupported_iff, hm.args]
  have hsame (hright : ∀ l ∈ h.queue.queue, TakenRight client mechs names (SaslLogic.name l)) :
      (∀ l ∈ h.queue.queue, SaslLogic.name l ∉ [client, mechs]) ↔
        ∀ l ∈ h.queue.queue, SaslLogic.name l ∉ names :=
    forall₂_congr fun l hl => not_congr (hm.takenRight_iff.mp (hright l hl))
  constructor
  · rintro ⟨hkept, hunsupported⟩
    have hright := hqueue.mp hkept
    refine ⟨hright, fun hnone => hm.takenRight_iff.mpr ?_⟩
    rw [hresult, hsame hright, and_iff_left hnone, and_iff_left hnone] at hunsupported
    exact not_iff_not.mp hunsupported
  · rintro ⟨hright, hcurrent⟩
    refine ⟨hqueue.mpr hright, ?_⟩
    rw [hresult, hsame hright]
    refine and_congr_left fun hnone => ?_
    exact not_congr (hm.takenRight_iff.mp (hcurrent hnone))

end

/-- A 908 as servers send it. -/
def mechsMsg (client mechs : Arg) : ServerMsg :=
  ⟨Tags.new, none, .numeric ⟨text "908", by decide⟩,
    ((Args.ofWords [client, mechs]).add (.fromStr "are available SASL mechanisms")).2⟩

/-- A handler that tries `EXTERNAL` with two accounts. -/
def externalTwice : Handler ExternalLogic :=
  new ⟨.empty⟩ ⟨[⟨.fromStr "account"⟩]⟩

/-- A list of one name. -/
theorem mechsCorrect_external :
    letI := standardEngine
    externalTwice.MechsCorrect (mechsMsg star (.fromStr "EXTERNAL")) [.fromStr "EXTERNAL"] := by
  let _ : Engine := standardEngine
  have hm : IsMechs (mechsMsg star (.fromStr "EXTERNAL")) star (.fromStr "EXTERNAL")
      [.fromStr "EXTERNAL"] := ⟨rfl, rfl, by decide, by decide⟩
  exact (mechsCorrect_iff externalTwice hm).mpr
    ⟨fun l _ => .inl rfl, fun _ => .inl rfl⟩

/-- **A list of two names.**  `EXTERNAL` is one of them, and no mechanism is supported. -/
theorem not_mechsCorrect_two :
    letI := standardEngine
    ServerMsg.parse 0 (.fromStr "908 * EXTERNAL,PLAIN :are available SASL mechanisms") =
        some (.ok (mechsMsg star (.fromStr "EXTERNAL,PLAIN"))) ∧
      IsMechs (mechsMsg star (.fromStr "EXTERNAL,PLAIN")) star (.fromStr "EXTERNAL,PLAIN")
        [.fromStr "EXTERNAL", .fromStr "PLAIN"] ∧
      (externalTwice.handle (mechsMsg star (.fromStr "EXTERNAL,PLAIN"))).2.2 =
        .error .unsupported ∧
      ¬ externalTwice.MechsCorrect (mechsMsg star (.fromStr "EXTERNAL,PLAIN"))
        [.fromStr "EXTERNAL", .fromStr "PLAIN"] := by
  let _ : Engine := standardEngine
  have hresult : (externalTwice.handle (mechsMsg star (.fromStr "EXTERNAL,PLAIN"))).2.2 =
      .error .unsupported := by
    rw [handle_of_908 _ rfl, handleMechs_eq_unsupported_iff]
    have hnot : (.fromStr "EXTERNAL" : Arg) ∉ [star, .fromStr "EXTERNAL,PLAIN"] := by decide
    exact ⟨hnot, fun _ _ => hnot⟩
  refine ⟨by decide +kernel, ⟨rfl, rfl, by decide, by decide⟩, hresult, fun hcorrect => ?_⟩
  exact (hcorrect.unsupported.mp hresult).1 List.mem_cons_self

end Handler

end Auth

end Vinezombie
