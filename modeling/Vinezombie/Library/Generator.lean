import Mathlib.Data.List.Basic

/-!
# Generators with explicit continuations

A generator that is asked for an element is used up; it returns the element and, unless it is
exhausted, the generator that continues it.  Asking may fail.  `Yields` says of what is left of a
generator that asking until it is exhausted terminates, does not fail, and yields a list.

* `Yields.unique`: there is one list at most.
* `Yields.invariant`: what every generator on the way satisfies.
* `Yields.simulate`, `Yields.append`: generators inside others, and in sequence.
-/

namespace Library.Generator

variable {G A ε : Type*} (step : G → Except ε (A × Option G))

/-- What is left of a generator yields the elements of a list, and is exhausted then. -/
inductive Yields : Option G → List A → Prop
  | done : Yields none []
  | next {g : G} {a : A} {o : Option G} {as : List A} :
      step g = .ok (a, o) → Yields o as → Yields (some g) (a :: as)

variable {step}

/-- **A generator yields one list only.** -/
theorem Yields.unique {o : Option G} {as bs : List A} (h : Yields step o as)
    (h' : Yields step o bs) : as = bs := by
  induction h generalizing bs with
  | done =>
    cases h' with
    | done => rfl
  | next hstep _ ih =>
    cases h' with
    | next hstep' hrest =>
      obtain ⟨ha, ho⟩ := Prod.mk.inj (Except.ok.inj (hstep.symm.trans hstep'))
      subst ho
      rw [ha, ih hrest]

/-- **The rule for what a generator yields**: an invariant of its states that says of each element
that is yielded in them that it has a property. -/
theorem Yields.invariant {Inv : G → Prop} {P : A → Prop}
    (hstep : ∀ g a o, Inv g → step g = .ok (a, o) → P a ∧ ∀ g', o = some g' → Inv g')
    {o : Option G} {as : List A} (h : Yields step o as) (hinv : ∀ g, o = some g → Inv g) :
    ∀ a ∈ as, P a := by
  induction h with
  | done => exact fun a ha => absurd ha List.not_mem_nil
  | next hs _ ih =>
    obtain ⟨hP, hnext⟩ := hstep _ _ _ (hinv _ rfl) hs
    intro a ha
    rcases List.mem_cons.mp ha with rfl | ha
    · exact hP
    · exact ih hnext a ha

/-- A generator that does the steps of another one yields what that one does. -/
theorem Yields.simulate {G' ε' : Type*} {step' : G' → Except ε' (A × Option G')} (emb : G → G')
    (hstep : ∀ g a o, step g = .ok (a, o) → step' (emb g) = .ok (a, o.map emb)) {o : Option G}
    {as : List A} (h : Yields step o as) : Yields step' (o.map emb) as := by
  induction h with
  | done => exact .done
  | next hs _ ih => exact .next (hstep _ _ _ hs) ih

/-- **Two generators in sequence** yield what the first one does and then what the second one
does. -/
theorem Yields.append {chain : Option G → G} {b : G}
    (hfirst : ∀ a x o, step a = .ok (x, o) → step (chain (some a)) = .ok (x, some (chain o)))
    (hsecond : step (chain none) = step b) {o : Option G} {as bs : List A} (ha : Yields step o as)
    (hb : Yields step (some b) bs) : Yields step (some (chain o)) (as ++ bs) := by
  induction ha with
  | done =>
    cases hb with
    | next hs hrest => exact .next (hsecond.trans hs) hrest
  | next hs _ ih => exact .next (hfirst _ _ _ hs) ih

end Library.Generator
