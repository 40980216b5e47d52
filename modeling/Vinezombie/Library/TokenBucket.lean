import Mathlib.Data.List.Infix
import Mathlib.Data.Nat.Basic

/-!
# Token buckets in virtual time

A limiter keeps a point in time.  A token is given out at a time `t` if the point is not more than
`sub` after `t`, and then moves the point to `delay` after the later of itself and the clock.  The
clock may be read twice for one token, once for the test and once for the move, so that a token has
two times.

`Conforms` says of a list of tokens that a limiter gives them out one after another.  Part of such a
list is such a list (`Conforms.infix`), and with a burst of `burst` delays no window of time has
more than `burst + 1` tokens and one for each delay that passes in it (`Conforms.length_le`).
-/

namespace Library.TokenBucket

variable {delay sub : ℕ}

/-- The tokens are given out in this order, beginning with this point in time. -/
def Conforms (delay sub : ℕ) : ℕ → List (ℕ × ℕ) → Prop
  | _, [] => True
  | point, t :: ts => point ≤ t.1 + sub ∧ Conforms delay sub (max point t.2 + delay) ts

theorem Conforms.of_append_left {ts us : List (ℕ × ℕ)} {point : ℕ}
    (h : Conforms delay sub point (ts ++ us)) : Conforms delay sub point ts := by
  induction ts generalizing point with
  | nil => trivial
  | cons t ts ih => exact ⟨h.1, ih h.2⟩

theorem Conforms.of_append_right {ts us : List (ℕ × ℕ)} {point : ℕ}
    (h : Conforms delay sub point (ts ++ us)) : ∃ point', Conforms delay sub point' us := by
  induction ts generalizing point with
  | nil => exact ⟨point, h⟩
  | cons t ts ih => exact ih h.2

/-- **A window of a conforming list conforms**, beginning with the point reached there. -/
theorem Conforms.infix {ts us : List (ℕ × ℕ)} {point : ℕ} (h : Conforms delay sub point us)
    (hts : ts <:+: us) : ∃ point', Conforms delay sub point' ts := by
  obtain ⟨before, after, rfl⟩ := hts
  exact h.of_append_left.of_append_right

/-- Each token moves the point by a delay at least, so the last one is not given out early. -/
theorem Conforms.le_last {ts : List (ℕ × ℕ)} {t : ℕ × ℕ} {point : ℕ}
    (h : Conforms delay sub point (ts ++ [t])) : point + ts.length * delay ≤ t.1 + sub := by
  induction ts generalizing point with
  | nil =>
    rw [List.length_nil, Nat.zero_mul]
    exact h.1
  | cons u ts ih =>
    have hlast := ih h.2
    have hpoint : point ≤ max point u.2 := le_max_left _ _
    rw [List.length_cons, Nat.succ_mul]
    omega

/-- **The rate limit.**  The first and the last time may be any up to the second time of the first
token and from the first time of the last token on. -/
theorem Conforms.length_le {burst point tFirst tLast : ℕ} {ts : List (ℕ × ℕ)} {first last : ℕ × ℕ}
    (h : Conforms delay (burst * delay) point ts) (hdelay : 0 < delay)
    (hhead : ts.head? = some first) (hlast : ts.getLast? = some last) (hfirst : tFirst ≤ first.2)
    (hle : last.1 ≤ tLast) : ts.length ≤ burst + 1 + (tLast - tFirst) / delay := by
  cases ts with
  | nil => exact absurd hhead (by simp)
  | cons t ts =>
    obtain rfl : t = first := Option.some.inj hhead
    rcases List.eq_nil_or_concat ts with rfl | ⟨mid, u, rfl⟩
    · rw [List.length_singleton]
      exact Nat.le_trans (Nat.le_add_left 1 burst) (Nat.le_add_right _ _)
    · rw [List.concat_eq_append] at h hlast ⊢
      obtain rfl : u = last := by
        rw [← List.cons_append, List.getLast?_concat] at hlast
        exact Option.some.inj hlast
      have htime := Conforms.le_last h.2
      have hpoint : t.2 ≤ max point t.2 := le_max_right _ _
      -- all tokens but the first fit into the burst and the time that passed
      have hfit : (mid.length + 1 - burst) * delay ≤ tLast - tFirst := by
        rw [Nat.sub_mul, Nat.succ_mul]
        omega
      have hdiv := (Nat.le_div_iff_mul_le hdelay).mpr hfit
      rw [List.length_cons, List.length_append, List.length_singleton]
      omega

end Library.TokenBucket
