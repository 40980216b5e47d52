import Mathlib.Algebra.Order.Floor.Div
import Mathlib.Data.List.Basic

/-!
# Memory layouts

The layout of a value is its size and its alignment, a power of two.  A layout is extended by another
one that is put behind it, with padding in between, and padded at its end.  The fields of a struct are
laid out in this way, one behind the other.

Sizes are bounded: rounded up to the alignment they are less than `2 ^ bits`.

* `roundUp_eq_self_iff`, `roundUp_of_dvd`: rounding up.
* `Layout.extend`, `Layout.padToAlign`, `Layout.struct`.
* `Layout.padToAlign_eq_self_iff`: when there is no padding at the end.
-/

namespace Library

/-- The least multiple of `a` that is not below `n`. -/
def roundUp (n a : ℕ) : ℕ := a * (n ⌈/⌉ a)

theorem dvd_roundUp (n a : ℕ) : a ∣ roundUp n a := Dvd.intro _ rfl

theorem le_roundUp {a : ℕ} (ha : 0 < a) (n : ℕ) : n ≤ roundUp n a := le_smul_ceilDiv ha

theorem roundUp_le {n m a : ℕ} (ha : 0 < a) (hle : n ≤ m) (hdvd : a ∣ m) : roundUp n a ≤ m := by
  obtain ⟨c, rfl⟩ := hdvd
  exact Nat.mul_le_mul_left a ((ceilDiv_le_iff_le_mul ha).mpr hle)

theorem roundUp_of_dvd {n a : ℕ} (ha : 0 < a) (h : a ∣ n) : roundUp n a = n :=
  Nat.le_antisymm (roundUp_le ha (Nat.le_refl n) h) (le_roundUp ha n)

theorem roundUp_eq_self_iff {n a : ℕ} (ha : 0 < a) : roundUp n a = n ↔ a ∣ n :=
  ⟨fun h => h ▸ dvd_roundUp n a, roundUp_of_dvd ha⟩

/-- The size of a value and its alignment. -/
@[ext] structure Layout (bits : ℕ) where
  size : ℕ
  align : ℕ
  align_eq : ∃ k, align = 2 ^ k
  fits : size + align ≤ 2 ^ bits

namespace Layout

variable {bits : ℕ}

theorem align_pos (l : Layout bits) : 0 < l.align := by
  obtain ⟨k, hk⟩ := l.align_eq
  rw [hk]
  exact Nat.two_pow_pos k

/-- Of two alignments the lesser one divides the other one. -/
theorem align_dvd_of_le {l l' : Layout bits} (h : l.align ≤ l'.align) : l.align ∣ l'.align := by
  obtain ⟨k, hk⟩ := l.align_eq
  obtain ⟨k', hk'⟩ := l'.align_eq
  rw [hk, hk'] at h ⊢
  exact Nat.pow_dvd_pow 2 ((Nat.pow_le_pow_iff_right Nat.one_lt_two).mp h)

/-- The alignment divides the bound. -/
theorem align_dvd_bound (l : Layout bits) : l.align ∣ 2 ^ bits := by
  obtain ⟨k, hk⟩ := l.align_eq
  have hfits := l.fits
  rw [hk] at hfits ⊢
  exact Nat.pow_dvd_pow 2 ((Nat.pow_le_pow_iff_right Nat.one_lt_two).mp
    (Nat.le_trans (Nat.le_add_left _ _) hfits))

theorem max_align_eq (l l' : Layout bits) : ∃ k, max l.align l'.align = 2 ^ k := by
  rcases max_choice l.align l'.align with hmax | hmax
  · rw [hmax]
    exact l.align_eq
  · rw [hmax]
    exact l'.align_eq

/-- The next layout behind this one, and where it begins.  There is no result if it gets too big. -/
def extend (l next : Layout bits) : Option (Layout bits × ℕ) :=
  if h : roundUp l.size next.align + next.size + max l.align next.align ≤ 2 ^ bits then
    some (⟨roundUp l.size next.align + next.size, max l.align next.align,
      l.max_align_eq next, h⟩, roundUp l.size next.align)
  else none

theorem extend_eq_some {l next l' : Layout bits} {offset : ℕ}
    (h : l.extend next = some (l', offset)) :
    offset = roundUp l.size next.align ∧ l'.size = offset + next.size ∧
      l'.align = max l.align next.align := by
  unfold extend at h
  split at h
  · obtain ⟨rfl, rfl⟩ := Prod.mk.inj (Option.some.inj h)
    exact ⟨rfl, rfl, rfl⟩
  · cases h

/-- Something smaller with the same alignment fits as well, at the same place. -/
theorem extend_of_le {l next next' l' : Layout bits} {offset : ℕ}
    (h : l.extend next = some (l', offset)) (halign : next'.align = next.align)
    (hle : next'.size ≤ next.size) : ∃ l'', l.extend next' = some (l'', offset) := by
  obtain ⟨rfl, hsize, hmax⟩ := extend_eq_some h
  have hfits := l'.fits
  have hfits' : roundUp l.size next'.align + next'.size + max l.align next'.align ≤ 2 ^ bits := by
    rw [hsize, hmax] at hfits
    rw [halign]
    omega
  unfold extend
  rw [dif_pos hfits', ← halign]
  exact ⟨_, rfl⟩

/-- The layout with padding at its end. -/
def padToAlign (l : Layout bits) : Layout bits where
  size := roundUp l.size l.align
  align := l.align
  align_eq := l.align_eq
  fits := by
    have hfits := l.fits
    have hle := roundUp_le l.align_pos (Nat.le_sub_of_add_le hfits)
      (Nat.dvd_sub l.align_dvd_bound (Nat.dvd_refl _))
    omega

theorem padToAlign_eq_self_iff (l : Layout bits) : l.padToAlign = l ↔ l.align ∣ l.size := by
  rw [← roundUp_eq_self_iff l.align_pos, Layout.ext_iff]
  exact and_iff_left rfl

/-- Fields behind a layout, and where they begin. -/
def fields (l : Layout bits) : List (Layout bits) → Option (Layout bits × List ℕ)
  | [] => some (l, [])
  | next :: rest =>
    match l.extend next with
    | none => none
    | some (l', offset) => (l'.fields rest).map fun r => (r.1, offset :: r.2)

/-- A struct with the fields in this order, and where they begin. -/
def struct (first : Layout bits) (rest : List (Layout bits)) :
    Option (Layout bits × List ℕ) :=
  (first.fields rest).map fun r => (r.1.padToAlign, 0 :: r.2)

end Layout

end Library
