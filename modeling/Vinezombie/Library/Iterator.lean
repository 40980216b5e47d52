import Mathlib.Data.List.Basic

/-!
# Iterators that are called again after they are exhausted

An iterator is asked for an element with `next`, which also changes its state, and may fail.
`Gives` says of a state that the calls from there on give the elements of a list, and nothing from
then on.

* `Gives.unique`: there is one list at most.
* `Gives.calls_eq`: what a number of calls gives, and what is left after them.
-/

namespace Library.Iterator

variable {S A ε : Type*} (next : S → Except ε (Option A × S))

/-- The results of a number of calls, and the state after them. -/
def calls (s : S) : ℕ → Except ε (List (Option A) × S)
  | 0 => .ok ([], s)
  | n + 1 => do
    let (a, s) ← next s
    let (as, s) ← calls s n
    .ok (a :: as, s)

/-- What is given from a state on: the elements of a list, and then nothing, in a state that does
not change any more. -/
inductive Gives : S → List A → Prop
  | nil {s : S} : next s = .ok (none, s) → Gives s []
  | cons {s s' : S} {a : A} {as : List A} :
      next s = .ok (some a, s') → Gives s' as → Gives s (a :: as)

variable {next}

/-- **An iterator gives one list only.** -/
theorem Gives.unique {s : S} {as bs : List A} (h : Gives next s as) (h' : Gives next s bs) :
    as = bs := by
  induction h generalizing bs with
  | nil hs =>
    cases h' with
    | nil => rfl
    | cons hs' => exact absurd (hs.symm.trans hs') (by simp)
  | cons hs _ ih =>
    cases h' with
    | nil hs' => exact absurd (hs.symm.trans hs') (by simp)
    | cons hs' hrest =>
      obtain ⟨ha, hstate⟩ := Prod.mk.inj (Except.ok.inj (hs.symm.trans hs'))
      subst hstate
      rw [Option.some.inj ha, ih hrest]

/-- One call, and then others. -/
theorem calls_succ {s s₁ s' : S} {a : Option A} {as : List (Option A)} {n : ℕ}
    (h : next s = .ok (a, s₁)) (hn : calls next s₁ n = .ok (as, s')) :
    calls next s (n + 1) = .ok (a :: as, s') := by
  simp only [calls, h, hn, bind, Except.bind]

theorem calls_of_exhausted {s : S} (h : next s = .ok (none, s)) (n : ℕ) :
    calls next s n = .ok (List.replicate n none, s) := by
  induction n with
  | zero => rfl
  | succ n ih => exact calls_succ h ih

/-- **A number of calls** gives the first elements, and nothing where there are no more; the state
after them gives the other elements. -/
theorem Gives.calls_eq {s : S} {as : List A} (h : Gives next s as) (n : ℕ) :
    ∃ s', calls next s n =
        .ok ((as.take n).map some ++ List.replicate (n - as.length) none, s') ∧
      Gives next s' (as.drop n) := by
  induction h generalizing n with
  | @nil s hs =>
    refine ⟨s, ?_, by rw [List.drop_nil]; exact .nil hs⟩
    rw [calls_of_exhausted hs, List.take_nil]
    rfl
  | @cons s s' a as hs hrest ih =>
    cases n with
    | zero => exact ⟨s, by rw [calls, List.take_zero, Nat.zero_sub]; rfl, .cons hs hrest⟩
    | succ n =>
      obtain ⟨t, hcalls, ht⟩ := ih n
      refine ⟨t, ?_, ht⟩
      rw [calls_succ hs hcalls, List.take_succ_cons, List.map_cons, List.length_cons,
        Nat.add_sub_add_right]
      rfl

end Library.Iterator
