import Vinezombie.Client.Register
import Vinezombie.Client.SuffixStates

/-!
# Nick generators

`client/nick.rs`.  A generator of nicks is used up when it is asked for a nick, and returns what
continues it.  A boxed generator is one of four kinds: a nick, a list with its first nick taken out,
a suffix generator, or two generators in sequence.  A `Chain` unwraps its second generator, so that
there is a panic where it has none.

* `DynNickGen.Ready`: the invariant, that every `Chain` has its second generator.
* `DynNickGen.Built`: the generators that are built from the functions of the module.
* `DynNickGen.Built.lawful`: they are exhausted at some point, and yield what they are built from.
-/

namespace Vinezombie

open Library.Generator

/-- The panic of `Option::unwrap`. -/
inductive UnwrapNone where
  | unwrapNone
  deriving DecidableEq, Repr

/-- A boxed `NickGen`. -/
inductive DynNickGen where
  | single (self : Nick)
  | fromIter (nick : Nick) (iter : List Nick)
  | suffixGen (self : SuffixGen)
  | chain (a b : Option DynNickGen)

namespace DynNickGen

/-! ## The methods -/

/-- `next_nick`. -/
def nextNick : DynNickGen → Except UnwrapNone (Nick × Option DynNickGen)
  | .single self => .ok (self, none)
  | .fromIter nick iter =>
    match iter with
    | next :: iter => .ok (nick, some (.fromIter next iter))
    | [] => .ok (nick, none)
  | .suffixGen self =>
    let (nick, next) := self.nextNick
    .ok (nick, next.map .suffixGen)
  | .chain (some gen) b => do
    let (nick, next) ← gen.nextNick
    .ok (nick, some (.chain next b))
  | .chain none (some b) => b.nextNick
  | .chain none none => .error .unwrapNone

/-- `peek`.  The second generator of a `Chain` is unwrapped also where it is not used. -/
def peek : DynNickGen → Except UnwrapNone Nick
  | .single self => .ok self
  | .fromIter nick _ => .ok nick
  | .suffixGen self => .ok self.peek
  | .chain _ none => .error .unwrapNone
  | .chain (some a) (some _) => a.peek
  | .chain none (some b) => b.peek

/-- `handle_invalid`.  The size hint of a list has an upper bound.  The second generator of a `Chain`
is unwrapped after the first one has been told. -/
def handleInvalid : DynNickGen → Nick → Except UnwrapNone (Option DynNickGen)
  | .single self, nick => .ok (if nick = self then some (.single self) else none)
  | .fromIter self iter, _ => .ok (some (.fromIter self iter))
  | .suffixGen self, nick => .ok ((self.handleInvalid nick).map .suffixGen)
  | .chain (some a) (some b), nick => do
    match ← a.handleInvalid nick with
    | none => b.handleInvalid nick
    | some a =>
      match ← b.handleInvalid nick with
      | none => .ok (some a)
      | some b => .ok (some (.chain (some a) (some b)))
  | .chain (some a) none, nick => do
    let _ ← a.handleInvalid nick
    .error .unwrapNone
  | .chain none (some b), nick => b.handleInvalid nick
  | .chain none none, _ => .error .unwrapNone

/-! ## Building generators -/

/-- `from_iter`. -/
def fromIter? : List Nick → Option DynNickGen
  | [] => none
  | nick :: iter => some (.fromIter nick iter)

/-- `from_iter_or`. -/
def fromIterOr (default : Nick) : List Nick → DynNickGen
  | [] => .fromIter default []
  | nick :: iter => .fromIter nick iter

/-- `NickGenExt::chain`. -/
def append (self ng : DynNickGen) : DynNickGen := .chain (some self) (some ng)

/-- `NickGenExt::chain_using`, with a `Suffix`. -/
def chainUsing (self : DynNickGen) (nt : Suffix) (fresh : UInt32) :
    Except UnwrapNone DynNickGen := do
  let nick ← self.peek
  .ok (self.append (.suffixGen (nt.transform nick fresh)))

/-- The generators that are built from nicks, lists of nicks, suffixes that have something to append
and chains of these. -/
inductive Built : DynNickGen → Prop
  | single (nick : Nick) : Built (.single nick)
  | fromIter {iter : List Nick} {g : DynNickGen} : fromIter? iter = some g → Built g
  | fromIterOr (default : Nick) (iter : List Nick) : Built (fromIterOr default iter)
  | suffix {nt : Suffix} (nick : Nick) (fresh : UInt32) :
      nt.Achievable → Built (.suffixGen (nt.transform nick fresh))
  | chain {a b : DynNickGen} : Built a → Built b → Built (a.append b)

/-- A generator that is left of another one after some nicks. -/
def Later : DynNickGen → DynNickGen → Prop :=
  Relation.ReflTransGen fun g g' => ∃ nick, g.nextNick = .ok (nick, some g')

/-! ## The invariant -/

/-- **The invariant of generators**.  It is the postcondition of every method of `Chain`, that there
is a second generator, and that suffix generators have nicks left. -/
inductive Ready : DynNickGen → Prop
  | single (nick : Nick) : Ready (.single nick)
  | fromIter (nick : Nick) (iter : List Nick) : Ready (.fromIter nick iter)
  | suffixGen {g : SuffixGen} : g.Bounded → Ready (.suffixGen g)
  | chain {a b : DynNickGen} : Ready a → Ready b → Ready (.chain (some a) (some b))
  | chainNone {b : DynNickGen} : Ready b → Ready (.chain none (some b))

variable {g : DynNickGen}

/-- Generators are built with the invariant. -/
theorem Built.ready (h : Built g) : Ready g := by
  induction h with
  | single nick => exact .single nick
  | @fromIter iter g hiter =>
    cases iter with
    | nil => exact absurd hiter (by simp [fromIter?])
    | cons nick iter =>
      obtain rfl := Option.some.inj hiter
      exact .fromIter nick iter
  | fromIterOr default iter =>
    cases iter with
    | nil => exact .fromIter default []
    | cons nick iter => exact .fromIter nick iter
  | suffix nick fresh hnt => exact .suffixGen (Suffix.bounded_transform _ nick fresh hnt)
  | chain _ _ iha ihb => exact .chain iha ihb

/-- **One step**: the nick that is returned is the one that was to be seen, and what is left keeps
the invariant. -/
theorem Ready.exists_nextNick (h : Ready g) :
    ∃ nick next, g.peek = .ok nick ∧ g.nextNick = .ok (nick, next) ∧
      ∀ g', next = some g' → Ready g' := by
  induction h with
  | single nick => exact ⟨nick, none, rfl, rfl, fun g' hg' => absurd hg' (by simp)⟩
  | fromIter nick iter =>
    cases iter with
    | nil => exact ⟨nick, none, rfl, rfl, fun g' hg' => absurd hg' (by simp)⟩
    | cons next iter =>
      refine ⟨nick, some (.fromIter next iter), rfl, rfl, ?_⟩
      rintro g' ⟨rfl⟩
      exact .fromIter next iter
  | @suffixGen g hbounded =>
    refine ⟨g.peek, g.nextNick.2.map .suffixGen, rfl, rfl, ?_⟩
    intro g' hg'
    obtain ⟨next, hnext, rfl⟩ := Option.map_eq_some_iff.mp hg'
    exact .suffixGen (hbounded.nextNick hnext)
  | @chain a b _ hb iha _ =>
    obtain ⟨nick, next, hpeek, hnick, hnext⟩ := iha
    refine ⟨nick, some (.chain next (some b)), by rw [peek, hpeek], ?_, ?_⟩
    · rw [nextNick, hnick]
      rfl
    · rintro g' ⟨rfl⟩
      cases next with
      | none => exact .chainNone hb
      | some a' => exact .chain (hnext a' rfl) hb
  | chainNone _ ihb =>
    obtain ⟨nick, next, hpeek, hnick, hnext⟩ := ihb
    exact ⟨nick, next, by rw [peek, hpeek], by rw [nextNick, hnick], hnext⟩

/-- **A run** keeps the invariant. -/
theorem Later.ready {g' : DynNickGen} (h : Later g g') (hg : Ready g) : Ready g' := by
  induction h with
  | refl => exact hg
  | tail _ hstep ih =>
    obtain ⟨nick, hnick⟩ := hstep
    obtain ⟨nick', next, -, hnick', hnext⟩ := ih.exists_nextNick
    exact hnext _ (Prod.mk.inj (Except.ok.inj (hnick'.symm.trans hnick))).2

/-- `chain_using` does not panic for a generator that is built. -/
theorem Built.chainUsing (h : Built g) {nt : Suffix} (hnt : nt.Achievable) (fresh : UInt32) :
    ∃ nick, g.peek = .ok nick ∧ g.chainUsing nt fresh =
      .ok (g.append (.suffixGen (nt.transform nick fresh))) ∧
      Built (g.append (.suffixGen (nt.transform nick fresh))) := by
  obtain ⟨nick, -, hpeek, -, -⟩ := h.ready.exists_nextNick
  refine ⟨nick, hpeek, ?_, .chain h (.suffix nick fresh hnt)⟩
  rw [DynNickGen.chainUsing, hpeek]
  rfl

/-- What goes on after an invalid nick keeps the invariant. -/
theorem Ready.exists_handleInvalid (h : Ready g) (nick : Nick) :
    ∃ left, g.handleInvalid nick = .ok left ∧ ∀ g', left = some g' → Ready g' := by
  induction h with
  | single self =>
    refine ⟨if nick = self then some (.single self) else none, rfl, ?_⟩
    intro g' hg'
    split at hg'
    · obtain rfl := Option.some.inj hg'
      exact .single self
    · exact absurd hg' (by simp)
  | fromIter self iter =>
    refine ⟨some (.fromIter self iter), rfl, ?_⟩
    rintro g' ⟨rfl⟩
    exact .fromIter self iter
  | @suffixGen g hbounded =>
    refine ⟨(g.handleInvalid nick).map .suffixGen, rfl, ?_⟩
    intro g' hg'
    rw [SuffixGen.handleInvalid] at hg'
    split at hg'
    · exact absurd hg' (by simp)
    · obtain rfl := Option.some.inj hg'
      exact .suffixGen hbounded
  | @chain a b _ _ iha ihb =>
    obtain ⟨lefta, ha, hreadya⟩ := iha
    obtain ⟨leftb, hb, hreadyb⟩ := ihb
    rw [handleInvalid, ha, hb]
    cases lefta with
    | none => exact ⟨leftb, rfl, hreadyb⟩
    | some a' =>
      cases leftb with
      | none => exact ⟨some a', rfl, hreadya⟩
      | some b' =>
        refine ⟨some (.chain (some a') (some b')), rfl, ?_⟩
        rintro g' ⟨rfl⟩
        exact .chain (hreadya a' rfl) (hreadyb b' rfl)
  | @chainNone b _ ihb =>
    obtain ⟨left, hb, hready⟩ := ihb
    exact ⟨left, by rw [handleInvalid, hb], hready⟩

/-! ## What generators yield -/

theorem yields_single (nick : Nick) : Yields nextNick (some (.single nick)) [nick] := .next rfl .done

/-- A list is yielded in order. -/
theorem yields_fromIter (nick : Nick) (iter : List Nick) :
    Yields nextNick (some (.fromIter nick iter)) (nick :: iter) := by
  induction iter generalizing nick with
  | nil => exact .next rfl .done
  | cons next iter ih => exact .next rfl (ih next)

theorem yields_suffixGen (self : SuffixGen) :
    Yields nextNick (some (.suffixGen self)) self.nicks := by
  refine self.yields_nicks.simulate suffixGen ?_
  intro g nick next hstep
  have hnick : g.nextNick = (nick, next) := Except.ok.inj hstep
  rw [nextNick, hnick]

/-- The first generator of a `Chain` is asked until it is exhausted, and then the second one. -/
theorem yields_chain {a : Option DynNickGen} {b : DynNickGen} {as bs : List Nick}
    (ha : Yields nextNick a as) (hb : Yields nextNick (some b) bs) :
    Yields nextNick (some (.chain a (some b))) (as ++ bs) := by
  have hfirst : ∀ a nick next, nextNick a = .ok (nick, next) →
      nextNick (.chain (some a) (some b)) = .ok (nick, some (.chain next (some b))) := by
    intro a nick next hstep
    rw [nextNick, hstep]
    rfl
  have hsecond : nextNick (.chain none (some b)) = nextNick b := by rw [nextNick]
  exact @Yields.append _ _ _ _ (fun a => .chain a (some b)) b hfirst hsecond _ _ _ ha hb

/-- Generators with the invariant are exhausted at some point. -/
theorem Ready.exists_yields (h : Ready g) : ∃ nicks, Yields nextNick (some g) nicks := by
  induction h with
  | single nick => exact ⟨_, yields_single nick⟩
  | fromIter nick iter => exact ⟨_, yields_fromIter nick iter⟩
  | suffixGen _ => exact ⟨_, yields_suffixGen _⟩
  | chain _ _ iha ihb =>
    obtain ⟨as, ha⟩ := iha
    obtain ⟨bs, hb⟩ := ihb
    exact ⟨_, yields_chain ha hb⟩
  | chainNone _ ihb =>
    obtain ⟨bs, hb⟩ := ihb
    exact ⟨_, yields_chain .done hb⟩

/-- **The laws of the generators that are built**: asking them until they are exhausted terminates;
on the way they keep the invariant, and what is seen is what the next step returns; a list is yielded
in order, and a chain yields what its parts yield, one after the other. -/
theorem Built.lawful (h : Built g) :
    (∃ nicks, Yields nextNick (some g) nicks) ∧
      (∀ g', Later g g' → Ready g' ∧
        ∃ nick next, g'.peek = .ok nick ∧ g'.nextNick = .ok (nick, next)) ∧
      (∀ iter, fromIter? iter = some g → Yields nextNick (some g) iter) ∧
      ∀ a b as bs, g = a.append b → Yields nextNick (some a) as → Yields nextNick (some b) bs →
        Yields nextNick (some g) (as ++ bs) := by
  refine ⟨h.ready.exists_yields, ?_, ?_, ?_⟩
  · intro g' hlater
    have hready := hlater.ready h.ready
    obtain ⟨nick, next, hpeek, hnick, -⟩ := hready.exists_nextNick
    exact ⟨hready, nick, next, hpeek, hnick⟩
  · intro iter hiter
    cases iter with
    | nil => exact absurd hiter (by simp [fromIter?])
    | cons nick iter =>
      obtain rfl := Option.some.inj hiter
      exact yields_fromIter nick iter
  · rintro a b as bs rfl ha hb
    exact yields_chain ha hb

/-- A nick with a count as the fallback. -/
theorem Built.lawful_fallback :
    ∃ nicks, Yields nextNick (some (append (.single fooNick)
      (.suffixGen (Suffix.transform ⟨.seq, [.char '_']⟩ fooNick 0)))) nicks :=
  (Built.lawful (.chain (.single fooNick)
    (.suffix fooNick 0 fun _ => .inr ⟨.char '_', List.mem_cons_self, by decide⟩))).1

end DynNickGen

/-! ## The generators of the registration -/

/-- The generators with the invariant.  No method of theirs panics, so that they are nick generators
for the handler of the registration. -/
def ReadyNickGen : Type := {g : DynNickGen // g.Ready}

namespace ReadyNickGen

variable (self : ReadyNickGen) (nick : Nick)

theorem isOk_nextNick : self.1.nextNick.isOk = true := by
  obtain ⟨nick, next, -, hnick, -⟩ := self.2.exists_nextNick
  rw [hnick]
  rfl

theorem isOk_handleInvalid : (self.1.handleInvalid nick).isOk = true := by
  obtain ⟨left, hleft, -⟩ := self.2.exists_handleInvalid nick
  rw [hleft]
  rfl

/-- What `next_nick` returns. -/
def next : Nick × Option DynNickGen := unwrap self.1.nextNick self.isOk_nextNick

/-- What `handle_invalid` returns. -/
def left : Option DynNickGen := unwrap (self.1.handleInvalid nick) (self.isOk_handleInvalid nick)

theorem ready_of_next {g : DynNickGen} (h : g ∈ self.next.2) : g.Ready := by
  obtain ⟨nick, next, -, hnick, hnext⟩ := self.2.exists_nextNick
  have heq : self.next = (nick, next) := unwrap_eq_of_eq_ok hnick self.isOk_nextNick
  rw [heq] at h
  exact hnext g h

theorem ready_of_left {g : DynNickGen} (h : g ∈ self.left nick) : g.Ready := by
  obtain ⟨left, hleft, hready⟩ := self.2.exists_handleInvalid nick
  have heq : self.left nick = left := unwrap_eq_of_eq_ok hleft (self.isOk_handleInvalid nick)
  rw [heq] at h
  exact hready g h

instance : NickGen ReadyNickGen where
  nextNick self :=
    (self.next.1, self.next.2.attach.map fun g => ⟨g.1, self.ready_of_next g.2⟩)
  handleInvalid self nick := (self.left nick).attach.map fun g => ⟨g.1, self.ready_of_left nick g.2⟩

/-- The handler of the registration sees the nicks that the generators yield. -/
theorem nextNick_eq : self.1.nextNick =
    .ok ((NickGen.nextNick self).1, (NickGen.nextNick self).2.map Subtype.val) := by
  obtain ⟨nick, next, -, hnick, -⟩ := self.2.exists_nextNick
  have heq : self.next = (nick, next) := unwrap_eq_of_eq_ok hnick self.isOk_nextNick
  have hval : (NickGen.nextNick self).2.map Subtype.val = self.next.2 := by
    change (self.next.2.attach.map _).map Subtype.val = self.next.2
    rw [Option.map_map]
    exact Option.attach_map_subtype_val self.next.2
  rw [hval]
  change self.1.nextNick = .ok (self.next.1, self.next.2)
  rw [hnick, heq]

theorem handleInvalid_eq : self.1.handleInvalid nick =
    .ok ((NickGen.handleInvalid self nick).map Subtype.val) := by
  obtain ⟨left, hleft, -⟩ := self.2.exists_handleInvalid nick
  have heq : self.left nick = left := unwrap_eq_of_eq_ok hleft (self.isOk_handleInvalid nick)
  have hval : (NickGen.handleInvalid self nick).map Subtype.val = self.left nick := by
    change ((self.left nick).attach.map _).map Subtype.val = self.left nick
    rw [Option.map_map]
    exact Option.attach_map_subtype_val (self.left nick)
  rw [hval, hleft, heq]

end ReadyNickGen

end Vinezombie
