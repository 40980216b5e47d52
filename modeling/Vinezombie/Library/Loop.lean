import Mathlib.Logic.Relation
import Mathlib.Order.Basic

/-!
# Loops that need not terminate

A `while` loop of an imperative program, written as the decision its body takes on each pass: go
round again from a new state, or leave with a result.  Nothing here assumes that a loop ends.
`run` performs at most a given number of passes, so it is a structural recursion that evaluates;
`Returns` and `Terminates` forget the number of passes.

* `Returns.unique`: a loop returns at most one result, whatever number of passes it is given.
* `terminates_of_decreasing`: a body that makes a measure smaller on every pass it repeats
  terminates; the invariant says which states count.
* `not_terminates_of_again_self`: a body that repeats a state unchanged never terminates.
-/

namespace Library

universe u v

variable {σ : Type u} {ρ : Type v}

/-- What one pass through the body of a loop decides. -/
inductive Pass (σ : Type u) (ρ : Type v) where
  | again (s : σ)
  | leave (r : ρ)

namespace Loop

/-- Run the loop for at most the given number of passes. -/
def run (body : σ → Pass σ ρ) : ℕ → σ → Option ρ
  | 0, _ => none
  | n + 1, s =>
    match body s with
    | .again s' => run body n s'
    | .leave r => some r

variable {body : σ → Pass σ ρ} {s s' : σ} {r r' : ρ}

@[simp] theorem run_zero : run body 0 s = none := rfl

theorem run_succ_again (h : body s = .again s') (n : ℕ) :
    run body (n + 1) s = run body n s' := by
  rw [run, h]

theorem run_succ_leave (h : body s = .leave r) (n : ℕ) : run body (n + 1) s = some r := by
  rw [run, h]

/-- More passes than needed change nothing. -/
theorem run_mono {n m : ℕ} (h : run body n s = some r) (hnm : n ≤ m) :
    run body m s = some r := by
  induction n generalizing s m with
  | zero => simp at h
  | succ n ih =>
    obtain ⟨m, rfl⟩ := Nat.exists_eq_add_of_lt (show 0 < m by omega)
    rw [Nat.zero_add] at hnm ⊢
    cases hb : body s with
    | again s' =>
      rw [run_succ_again hb] at h ⊢
      exact ih h (by omega)
    | leave q =>
      rw [run_succ_leave hb] at h ⊢
      exact h

variable (body) in
/-- The loop, started in `s`, is left with the result `r`. -/
def Returns (s : σ) (r : ρ) : Prop :=
  ∃ n, run body n s = some r

variable (body) in
/-- The loop, started in `s`, is left. -/
def Terminates (s : σ) : Prop :=
  ∃ r, Returns body s r

/-- **A loop returns at most one result.** -/
theorem Returns.unique (h : Returns body s r) (h' : Returns body s r') : r = r' := by
  obtain ⟨n, hn⟩ := h
  obtain ⟨m, hm⟩ := h'
  have h1 := run_mono hn (Nat.le_max_left n m)
  rw [run_mono hm (Nat.le_max_right n m)] at h1
  exact (Option.some.inj h1).symm

theorem returns_again_iff (h : body s = .again s') : Returns body s r ↔ Returns body s' r := by
  constructor
  · rintro ⟨n, hn⟩
    cases n with
    | zero => simp at hn
    | succ n => exact ⟨n, by rwa [run_succ_again h] at hn⟩
  · rintro ⟨n, hn⟩
    exact ⟨n + 1, by rwa [run_succ_again h]⟩

theorem returns_leave (h : body s = .leave r) : Returns body s r :=
  ⟨1, run_succ_leave h 0⟩

theorem terminates_again_iff (h : body s = .again s') :
    Terminates body s ↔ Terminates body s' :=
  exists_congr fun _ => returns_again_iff h

variable (body) in
/-- The states at the head of the loop: `s` and whatever further passes lead to. -/
def Heads (s : σ) : σ → Prop :=
  Relation.ReflTransGen (fun a b => body a = .again b) s

/-- **A pass that repeats its state is the end of progress.** -/
theorem not_terminates_of_again_self (h : body s = .again s) : ¬ Terminates body s := by
  rintro ⟨r, n, hn⟩
  induction n with
  | zero => simp at hn
  | succ n ih => exact ih (by rwa [run_succ_again h] at hn)

/-- **The rule for termination.**  If an invariant is kept by every repeated pass, and every
repeated pass makes the measure smaller, the loop terminates within one pass more than the measure
of its first state. -/
theorem run_of_decreasing (Inv : σ → Prop) (μ : σ → ℕ)
    (step : ∀ a b, Inv a → body a = .again b → Inv b ∧ μ b < μ a) {n : ℕ} (hs : Inv s)
    (hn : μ s < n) : ∃ r, run body n s = some r := by
  induction n generalizing s with
  | zero => omega
  | succ n ih =>
    cases hb : body s with
    | leave r => exact ⟨r, run_succ_leave hb n⟩
    | again s' =>
      obtain ⟨hinv, hlt⟩ := step s s' hs hb
      obtain ⟨r, hr⟩ := ih hinv (by omega)
      exact ⟨r, by rwa [run_succ_again hb]⟩

theorem terminates_of_decreasing (Inv : σ → Prop) (μ : σ → ℕ)
    (step : ∀ a b, Inv a → body a = .again b → Inv b ∧ μ b < μ a) (hs : Inv s) :
    Terminates body s := by
  obtain ⟨r, hr⟩ := run_of_decreasing Inv μ step hs (Nat.lt_succ_self _)
  exact ⟨r, _, hr⟩

/-- A loop that terminates terminates from each of its heads. -/
theorem Terminates.of_heads (h : Terminates body s) (hs : Heads body s s') :
    Terminates body s' := by
  induction hs with
  | refl => exact h
  | tail _ hb ih => exact (terminates_again_iff hb).mp ih

end Loop

end Library
