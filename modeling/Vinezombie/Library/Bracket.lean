import Mathlib.Data.List.Basic

/-!
# Machines with a stack

A machine that takes its inputs one by one, and keeps a stack in its state.  Some inputs push onto
the stack, some pop from it, and the plain ones leave it alone.  In a balanced run every push has
its pop, and nothing is popped that was there before.

* `Balanced`: balanced runs.
* `Stacks`: what pushes, pops and plain inputs do, where an invariant may be needed for it.
* `Balanced.foldl_stack`: a balanced run leaves the stack as it is, so that what is popped after it
  is what was pushed before it.
-/

namespace Library.Bracket

universe u v w

variable {α : Type u} {σ : Type v} {γ : Type w}

/-- A run in which the inputs that push and those that pop belong together like brackets. -/
inductive Balanced (Plain Opens Closes : α → Prop) : List α → Prop
  | nil : Balanced Plain Opens Closes []
  | plain {a : α} {as : List α} : Plain a → Balanced Plain Opens Closes as →
    Balanced Plain Opens Closes (a :: as)
  | bracket {a b : α} {inner as : List α} : Opens a → Balanced Plain Opens Closes inner →
    Closes b → Balanced Plain Opens Closes as →
    Balanced Plain Opens Closes (a :: (inner ++ b :: as))

/-- What the three sorts of inputs do with the stack, in the states that an invariant allows. -/
structure Stacks (step : σ → α → σ) (stack : σ → List γ) (Inv : σ → Prop)
    (Plain Opens Closes : α → Prop) : Prop where
  keeps : ∀ s a, Inv s → Inv (step s a)
  plain : ∀ s a, Inv s → Plain a → stack (step s a) = stack s
  opens : ∀ s a, Opens a → ∃ g, stack (step s a) = g :: stack s
  closes : ∀ s a g rest, Closes a → stack s = g :: rest → stack (step s a) = rest

variable {Plain Opens Closes : α → Prop} {step : σ → α → σ} {stack : σ → List γ} {Inv : σ → Prop}

/-- The invariant holds after a run. -/
theorem Stacks.foldl_inv (hstep : Stacks step stack Inv Plain Opens Closes) (as : List α) {s : σ}
    (hs : Inv s) : Inv (as.foldl step s) := by
  induction as generalizing s with
  | nil => exact hs
  | cons a as ih => exact ih (hstep.keeps s a hs)

/-- **A balanced run leaves the stack as it is.** -/
theorem Balanced.foldl_stack (hstep : Stacks step stack Inv Plain Opens Closes) {as : List α}
    (h : Balanced Plain Opens Closes as) {s : σ} (hs : Inv s) :
    stack (as.foldl step s) = stack s := by
  induction h generalizing s with
  | nil => rfl
  | @plain a as ha _ ih =>
    rw [List.foldl_cons, ih (hstep.keeps s a hs)]
    exact hstep.plain s a hs ha
  | @bracket a b inner as ha _ hb _ ihinner ihas =>
    obtain ⟨g, hg⟩ := hstep.opens s a ha
    have hs₁ := hstep.keeps s a hs
    have hs₂ := hstep.foldl_inv inner hs₁
    rw [List.foldl_cons, List.foldl_append, List.foldl_cons, ihas (hstep.keeps _ b hs₂)]
    refine hstep.closes _ b g (stack s) hb ?_
    rw [ihinner hs₁, hg]

end Library.Bracket
