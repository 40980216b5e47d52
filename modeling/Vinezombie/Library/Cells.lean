import Mathlib.Data.List.Basic

/-!
# Rows of cells

Memory that was allocated in one piece is a row of cells, each of which holds a value once it has
been written to.  The code that writes to it knows the first cell and counts from there; `write`
refuses to go beyond the last one, where that code would write to something else.

* `write`, `writeAll`, `fill`: one value, a list of values, and one value over and over.
* `writeAll_append`, `fill_append`: what they do to the cells they are meant for, and that the cells
  before and behind stay as they are.
* `fill_outOfBounds`: a loop that goes on for too long.
-/

namespace Library.Cells

universe u

variable {T : Type u}

/-- A write to a cell that does not exist. -/
structure OutOfBounds where
  index : ℕ
  capacity : ℕ
  deriving DecidableEq, Repr

/-- An element is written, which has to be one of the cells. -/
def write (cells : List (Option T)) (i : ℕ) (x : T) : Except OutOfBounds (List (Option T)) :=
  if i < cells.length then .ok (cells.set i (some x)) else .error ⟨i, cells.length⟩

/-- Values one after another, from the cell `i` on. -/
def writeAll : List T → ℕ → List (Option T) → Except OutOfBounds (List (Option T))
  | [], _, cells => .ok cells
  | x :: xs, i, cells => (write cells i x).bind (writeAll xs (i + 1))

/-- The loop that writes `x` to the cells from `cur` on, up to the cell before `fin`. -/
def fill (x : T) (cur fin : ℕ) (cells : List (Option T)) : Except OutOfBounds (List (Option T)) :=
  if cur < fin then (write cells cur x).bind (fill x (cur + 1) fin) else .ok cells
termination_by fin - cur

/-! ## Within the row -/

/-- One cell changes. -/
theorem write_append (before : List (Option T)) (old : Option T) (after : List (Option T)) (x : T) :
    write (before ++ old :: after) before.length x = .ok (before ++ some x :: after) := by
  unfold write
  rw [if_pos (by simp), List.set_append_right _ _ (Nat.le_refl _), Nat.sub_self, List.set_cons_zero]

/-- **Values that have cells.** -/
theorem writeAll_append (xs : List T) (before old after : List (Option T))
    (h : old.length = xs.length) :
    writeAll xs before.length (before ++ old ++ after) = .ok (before ++ xs.map some ++ after) := by
  induction xs generalizing before old with
  | nil =>
    rw [List.length_nil, List.length_eq_zero_iff] at h
    rw [h]
    rfl
  | cons x xs ih =>
    obtain ⟨c, old, rfl⟩ := List.exists_cons_of_length_eq_add_one h
    have hrest : old.length = xs.length := by simpa using h
    have hwrite := write_append before c (old ++ after) x
    have hnext := ih (before ++ [some x]) old hrest
    simp only [List.append_assoc, List.cons_append, List.nil_append, List.length_append,
      List.length_cons, List.length_nil, Nat.zero_add] at hnext
    rw [writeAll, List.append_assoc, List.cons_append, hwrite]
    simpa [Except.bind] using hnext

theorem fill_of_le (x : T) {cur fin : ℕ} (h : fin ≤ cur) (cells : List (Option T)) :
    fill x cur fin cells = .ok cells := by
  rw [fill, if_neg (Nat.not_lt.mpr h)]

theorem fill_of_lt (x : T) {cur fin : ℕ} (h : cur < fin) (cells : List (Option T)) :
    fill x cur fin cells = (write cells cur x).bind (fill x (cur + 1) fin) := by
  rw [fill, if_pos h]

/-- **The cells that the loop is meant for.** -/
theorem fill_append (x : T) (before old after : List (Option T)) :
    fill x before.length (before.length + old.length) (before ++ old ++ after) =
      .ok (before ++ List.replicate old.length (some x) ++ after) := by
  induction old generalizing before with
  | nil => exact fill_of_le x (Nat.le_refl _) _
  | cons c old ih =>
    have hwrite := write_append before c (old ++ after) x
    have hnext := ih (before ++ [some x])
    simp only [List.append_assoc, List.cons_append, List.nil_append, List.length_append,
      List.length_cons, List.length_nil, Nat.zero_add] at hnext
    rw [List.length_cons, fill_of_lt x (by omega), List.append_assoc, List.cons_append, hwrite]
    rw [show before.length + (old.length + 1) = before.length + 1 + old.length by omega]
    simpa [Except.bind, List.replicate_succ] using hnext

/-- **A whole row.** -/
theorem fill_all (x : T) (cells : List (Option T)) :
    fill x 0 cells.length cells = .ok (List.replicate cells.length (some x)) := by
  simpa using fill_append x [] cells []

/-! ## Beyond the row -/

theorem write_outOfBounds {cells : List (Option T)} {i : ℕ} (h : cells.length ≤ i) (x : T) :
    write cells i x = .error ⟨i, cells.length⟩ := by
  unfold write
  rw [if_neg (Nat.not_lt.mpr h)]

/-- **A loop that goes on for too long** writes to the cell that would be the next one. -/
theorem fill_outOfBounds (x : T) {cur fin : ℕ} {cells : List (Option T)}
    (hcur : cur ≤ cells.length) (hfin : cells.length < fin) :
    fill x cur fin cells = .error ⟨cells.length, cells.length⟩ := by
  obtain ⟨n, hn⟩ := Nat.exists_eq_add_of_le hcur
  induction n generalizing cur cells with
  | zero =>
    have hlast : cur = cells.length := by omega
    rw [fill_of_lt x (by omega), hlast, write_outOfBounds (Nat.le_refl _)]
    rfl
  | succ n ih =>
    have hset : (cells.set cur (some x)).length = cells.length := List.length_set
    have hwrite : write cells cur x = .ok (cells.set cur (some x)) := by
      unfold write
      rw [if_pos (by omega)]
    have hnext : fill x (cur + 1) fin (cells.set cur (some x)) = _ :=
      ih (by omega) (by omega) (by omega)
    rw [hset] at hnext
    rw [fill_of_lt x (by omega), hwrite]
    exact hnext

end Library.Cells
