import Vinezombie.Util.FlatMap

/-!
# The slot of a pushed element

`push` appends an element, and returns a reference to a slot whose index it takes from the length of
the guard.  At that point the length already counts the new element, so the index is that of the
slot behind it, which holds nothing.  `get_or_insert` passes the reference on when the key is new;
`insert`, `try_insert` and the `insert_or_update` of a `NameMap` make it too, and let go of it.

* `EditGuard.getElem?_push_slots`: where the element is, and where the reference points to.
* `EditGuard.designates_getOrInsert_iff`: when the reference is to an element with the key.
-/

namespace Vinezombie

variable {E K : Type} [LinearOrder K] (key : E → K)

namespace EditGuard

/-- A slot is one of those of the guard, and holds an element with the key of the given one. -/
def Designates (slot : ℕ) (g : EditGuard E) (elem : E) : Prop :=
  slot < g.realLen ∧ ∃ e, g.slots[slot]? = some e ∧ key e = key elem

variable {key} {g : EditGuard E}

/-- **A push**: the element is in the slot behind those that were there, and the slot that is
returned is the one behind it. -/
theorem getElem?_push_slots (g : EditGuard E) (elem : E) :
    (g.push key elem).2.slots[g.realLen]? = some elem ∧
      (g.push key elem).1 = (g.push key elem).2.realLen := by
  constructor
  · rw [push_slots]
    exact List.getElem?_concat_length
  · change g.realLen + 1 = (g.slots ++ [elem]).length
    rw [List.length_append, List.length_singleton]
    rfl

omit [LinearOrder K] in
/-- The length of a guard is no slot of it. -/
theorem not_designates_realLen (g : EditGuard E) (elem : E) : ¬ Designates key g.realLen g elem :=
  fun h => absurd h.1 (lt_irrefl _)

/-- **The slot that is returned for a key**: it holds an element with that key exactly if there was
one before. -/
theorem designates_getOrInsert_iff (g : EditGuard E) (elem : E) :
    Designates key (g.getOrInsert key elem).1.1 (g.getOrInsert key elem).2 elem ↔
      (g.getIdx key (key elem)).isSome = true := by
  unfold getOrInsert
  cases hidx : g.getIdx key (key elem) with
  | some idx =>
    obtain ⟨hlt, hkey⟩ := key_of_getIdx hidx
    exact iff_of_true ⟨hlt, g.slots[idx], List.getElem?_eq_getElem hlt, hkey⟩ rfl
  | none =>
    refine iff_of_false (fun h => ?_) (by simp)
    rw [(getElem?_push_slots g elem).2] at h
    exact not_designates_realLen _ elem h

/-- **No push returns the slot of its element**, whatever the guard holds; `get_or_insert` returns
a slot with the key exactly if it finds one, that is if it does not push. -/
theorem not_designates_push (key : E → K) (g : EditGuard E) (elem : E) :
    ¬ Designates key (g.push key elem).1 (g.push key elem).2 elem ∧
      (Designates key (g.getOrInsert key elem).1.1 (g.getOrInsert key elem).2 elem ↔
        (g.getIdx key (key elem)).isSome = true) := by
  refine ⟨fun h => ?_, designates_getOrInsert_iff g elem⟩
  rw [(getElem?_push_slots g elem).2] at h
  exact not_designates_realLen _ elem h

/-- A push into an empty guard: the element is in slot 0, and slot 1 is returned. -/
theorem not_designates_push_first :
    ((FlatMap.new : FlatMap ℕ).edit.push id 5).2.slots = [5] ∧
      ((FlatMap.new : FlatMap ℕ).edit.push id 5).1 = 1 ∧
      ¬ Designates id ((FlatMap.new : FlatMap ℕ).edit.push id 5).1
        ((FlatMap.new : FlatMap ℕ).edit.push id 5).2 5 := by
  refine ⟨rfl, rfl, fun h => ?_⟩
  exact absurd h.1 (by decide)

end EditGuard

end Vinezombie
