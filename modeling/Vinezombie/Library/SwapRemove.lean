import Mathlib.Data.List.Basic

/-!
# Removal by swapping with the last element

`swapRemove l i` removes the element at `i` from a vector in constant time: the last element takes
its place.  What is left is a permutation of the others (`perm_swapRemove`), and everything before
`i` stays where it is (`swapRemove_append_cons`).
-/

namespace Library

variable {α : Type*}

/-- The list with the element at `i`, which must be there, replaced by the last one. -/
def swapRemove (l : List α) (i : ℕ) : List α :=
  match l.getLast? with
  | some last => (l.set i last).dropLast
  | none => l

/-- The last element itself is just removed. -/
theorem swapRemove_append_singleton (front : List α) (x : α) :
    swapRemove (front ++ [x]) front.length = front := by
  unfold swapRemove
  rw [List.getLast?_concat]
  simp

/-- Any other element is replaced by the last one. -/
theorem swapRemove_append_cons_append (front middle : List α) (x last : α) :
    swapRemove (front ++ x :: (middle ++ [last])) front.length = front ++ last :: middle := by
  unfold swapRemove
  have hlast : (front ++ x :: (middle ++ [last])).getLast? = some last := by
    rw [← List.cons_append, ← List.append_assoc, List.getLast?_concat]
  rw [hlast]
  simp only [List.set_append_right _ _ (Nat.le_refl front.length), Nat.sub_self, List.set_cons_zero]
  rw [← List.cons_append, ← List.append_assoc, List.dropLast_concat]

/-- **What is behind the removed element** is permuted, and what is in front of it stays. -/
theorem swapRemove_append_cons (front rest : List α) (x : α) :
    ∃ rest', rest'.Perm rest ∧ swapRemove (front ++ x :: rest) front.length = front ++ rest' := by
  rcases List.eq_nil_or_concat rest with rfl | ⟨middle, last, rfl⟩
  · exact ⟨[], .nil, by rw [swapRemove_append_singleton, List.append_nil]⟩
  · rw [List.concat_eq_append]
    refine ⟨last :: middle, ?_, swapRemove_append_cons_append front middle x last⟩
    exact (List.perm_append_singleton last middle).symm

/-- **The removed element and what is left** are what there was. -/
theorem perm_swapRemove {l : List α} {i : ℕ} {x : α} (h : l[i]? = some x) :
    l.Perm (x :: swapRemove l i) := by
  obtain ⟨hlt, rfl⟩ := List.getElem?_eq_some_iff.mp h
  have hsplit : l = l.take i ++ l[i] :: l.drop (i + 1) := by
    rw [← List.drop_eq_getElem_cons hlt, List.take_append_drop]
  have hlen : (l.take i).length = i := by
    rw [List.length_take, Nat.min_eq_left (Nat.le_of_lt hlt)]
  obtain ⟨rest', hperm, heq⟩ := swapRemove_append_cons (l.take i) (l.drop (i + 1)) l[i]
  rw [← hsplit, hlen] at heq
  rw [heq]
  refine (List.Perm.of_eq hsplit).trans (List.perm_middle.trans ?_)
  exact (hperm.symm.append_left _).cons _

theorem length_swapRemove {l : List α} {i : ℕ} (h : i < l.length) :
    (swapRemove l i).length + 1 = l.length := by
  have hperm := perm_swapRemove (List.getElem?_eq_getElem h)
  rw [hperm.length_eq, List.length_cons]

/-- The element may be changed before it is removed. -/
theorem length_swapRemove_set {l : List α} {i : ℕ} (h : i < l.length) (x : α) :
    (swapRemove (l.set i x) i).length + 1 = l.length := by
  have hlen := length_swapRemove (l := l.set i x) (i := i) (by rwa [List.length_set])
  rwa [List.length_set] at hlen

end Library
