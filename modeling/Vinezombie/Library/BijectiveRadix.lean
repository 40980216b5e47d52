import Mathlib.Algebra.Order.Ring.Nat
import Mathlib.Algebra.BigOperators.Group.List.Basic
import Mathlib.Tactic.Common

/-!
# Bijective numerals with mixed radices

A positive number in a list of radices, least significant digit first.  One is taken off the number
for each digit, so that there is no zero and every number has one numeral only; a numeral ends where
nothing is left.

* `value_digits`: a number is the value of its digits, up to the number of numerals there are.
* `length_digits_le`, `length_digits_mono`: how long numerals are.
* `sum_le_capacity`: there are at least as many numerals as the radices together.
-/

namespace Library.BijectiveRadix

/-- The digits of a number. -/
def digits : List ℕ → ℕ → List ℕ
  | [], _ => []
  | v :: vs, n => (n - 1) % v :: if (n - 1) / v = 0 then [] else digits vs ((n - 1) / v)

/-- The value of digits. -/
def value : List ℕ → List ℕ → ℕ
  | v :: vs, d :: ds => d + 1 + v * value vs ds
  | _, _ => 0

/-- The greatest number that has a numeral. -/
def capacity : List ℕ → ℕ
  | [] => 0
  | v :: vs => v * (1 + capacity vs)

theorem value_nil (vs : List ℕ) : value vs [] = 0 := by
  cases vs with
  | nil => rfl
  | cons v vs => rfl

/-- **A number is the value of its digits.** -/
theorem value_digits {vs : List ℕ} {n : ℕ} (hn : 1 ≤ n) (hcap : n ≤ capacity vs) :
    value vs (digits vs n) = n := by
  induction vs generalizing n with
  | nil =>
    rw [capacity] at hcap
    omega
  | cons v vs ih =>
    have hdiv := Nat.mod_add_div (n - 1) v
    rw [digits, value]
    split
    · rename_i hq
      rw [hq] at hdiv
      rw [value_nil]
      omega
    · rename_i hq
      have hv : 0 < v := Nat.pos_of_ne_zero fun hv => hq (by rw [hv, Nat.div_zero])
      have hlt : (n - 1) / v < 1 + capacity vs := by
        rw [Nat.div_lt_iff_lt_mul hv, Nat.mul_comm]
        rw [capacity] at hcap
        omega
      rw [ih (Nat.one_le_iff_ne_zero.mpr hq) (by omega)]
      omega

/-- Two numbers with the same digits are equal. -/
theorem digits_injOn {vs : List ℕ} {n m : ℕ} (hn : 1 ≤ n) (hncap : n ≤ capacity vs) (hm : 1 ≤ m)
    (hmcap : m ≤ capacity vs) (h : digits vs n = digits vs m) : n = m := by
  rw [← value_digits hn hncap, ← value_digits hm hmcap, h]

/-- Every digit is below its radix. -/
theorem digits_lt {vs : List ℕ} (hpos : ∀ v ∈ vs, 0 < v) (n : ℕ) :
    List.Forall₂ (fun d v => d < v) (digits vs n) (vs.take (digits vs n).length) := by
  induction vs generalizing n with
  | nil => exact .nil
  | cons v vs ih =>
    have hhead : (n - 1) % v < v := Nat.mod_lt _ (hpos v List.mem_cons_self)
    rw [digits, List.length_cons, List.take_succ_cons]
    refine .cons hhead ?_
    split
    · exact .nil
    · exact ih (fun u hu => hpos u (List.mem_cons_of_mem v hu)) _

theorem length_digits_le (vs : List ℕ) (n : ℕ) : (digits vs n).length ≤ vs.length := by
  induction vs generalizing n with
  | nil => exact Nat.le_refl 0
  | cons v vs ih =>
    rw [digits, List.length_cons, List.length_cons]
    split
    · exact Nat.succ_le_succ (Nat.zero_le _)
    · exact Nat.succ_le_succ (ih _)

theorem one_le_length_digits {vs : List ℕ} (h : vs ≠ []) (n : ℕ) : 1 ≤ (digits vs n).length := by
  cases vs with
  | nil => exact absurd rfl h
  | cons v vs => exact Nat.succ_le_succ (Nat.zero_le _)

/-- Greater numbers do not have fewer digits. -/
theorem length_digits_mono (vs : List ℕ) {n m : ℕ} (h : n ≤ m) :
    (digits vs n).length ≤ (digits vs m).length := by
  induction vs generalizing n m with
  | nil => exact Nat.le_refl 0
  | cons v vs ih =>
    have hq : (n - 1) / v ≤ (m - 1) / v := Nat.div_le_div_right (by omega)
    rw [digits, digits, List.length_cons, List.length_cons]
    refine Nat.succ_le_succ ?_
    by_cases hn : (n - 1) / v = 0
    · rw [if_pos hn]
      exact Nat.zero_le _
    · have hm : (m - 1) / v ≠ 0 := fun hm => hn (Nat.le_zero.mp (hm ▸ hq))
      rw [if_neg hn, if_neg hm]
      exact ih hq

/-- **There are enough numerals** for as many numbers as the radices together. -/
theorem sum_le_capacity {vs : List ℕ} (hpos : ∀ v ∈ vs, 0 < v) : vs.sum ≤ capacity vs := by
  induction vs with
  | nil => exact Nat.le_refl 0
  | cons v vs ih =>
    have hv := hpos v List.mem_cons_self
    have htail := ih fun u hu => hpos u (List.mem_cons_of_mem v hu)
    have hmul : capacity vs ≤ v * capacity vs := Nat.le_mul_of_pos_left _ hv
    rw [List.sum_cons, capacity, Nat.mul_add, Nat.mul_one]
    omega

end Library.BijectiveRadix
