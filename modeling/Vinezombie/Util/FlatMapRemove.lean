import Vinezombie.Library.Machine
import Vinezombie.Util.FlatMap

/-!
# Removal through the guard

`remove` calls `swap_remove` on a vector whose length is the number of sorted elements, takes one
off the real length, and declares everything from the removed index on unsorted.  While there are no
unsorted elements that is a removal.  Once there are, `swap_remove` moves the last *sorted* element
and leaves it in place as well, while the shorter length cuts off the last *unsorted* one; and an
unsorted element that is found is beyond the length that `swap_remove` checks against.

* `remove_of_sorted_eq`: removal of a sorted element, with what is left.
* `Call`, `Reachable`: the states that insertions and removals lead to, and `Reachable.wellFormed`,
  the invariant of all of them.
* `removeCorrect_iff`: when a removal is one.
-/

namespace Vinezombie

open Library.KeyedList Library.Machine

variable {E K : Type} [LinearOrder K] {key : E → K}

namespace EditGuard

variable {g : EditGuard E}

/-! ## One removal -/

theorem remove_of_getIdx_none {k : K} (h : g.getIdx key k = none) :
    g.remove key k = .ok (none, g) := by
  unfold EditGuard.remove
  rw [h]

/-- An element that is found among the unsorted ones makes `swap_remove` panic. -/
theorem remove_of_le_getIdx {k : K} {idx : ℕ} (h : g.getIdx key k = some idx)
    (hle : g.sortedUntil ≤ idx) : g.remove key k = .error (.swapRemove idx g.sortedUntil) := by
  have hswap : g.swapRemove idx = .error (.swapRemove idx g.sortedUntil) := by
    rw [swapRemove, if_neg (by omega)]
  unfold EditGuard.remove
  rw [h]
  dsimp only
  split
  · rename_i p hp
    rw [hswap] at hp
    rw [Except.error.inj hp]
  · rename_i r slots hp
    rw [hswap] at hp
    exact absurd hp (by simp)

/-- **Removal of a sorted element.**  The elements before it stay sorted.  The last sorted element
takes its place and begins the unsorted ones; the last of all is cut off. -/
theorem remove_of_sorted_eq {A B : List E} {x : E} (hs : g.sorted = A ++ x :: B)
    (hA : ∀ a ∈ A, key a ≠ key x) :
    ∃ g', g.remove key (key x) = .ok (some x, g') ∧ g'.sorted = A ∧
      g'.unsorted =
        ((x :: B).getLast (List.cons_ne_nil x B) :: (B ++ g.unsorted)).dropLast := by
  set last := (x :: B).getLast (List.cons_ne_nil x B) with hlast
  have hslots : g.slots = A ++ x :: (B ++ g.unsorted) := by
    rw [← g.sorted_append_unsorted, hs, List.append_assoc, List.cons_append]
  have hsu : g.sortedUntil = A.length + (B.length + 1) := by
    rw [← g.length_sorted, hs, List.length_append, List.length_cons]
  have hidx : g.getIdx key (key x) = some A.length := by
    have hnot : ¬ g.Hidden key (key x) := fun hh => hh.1 x (by simp [hs]) rfl
    rw [getIdx_of_not_hidden hnot, hslots, List.findIdx?_append,
      List.findIdx?_eq_none_iff.mpr (by simpa using hA), List.findIdx?_cons]
    simp
  have hgetLast : g.slots[g.sortedUntil - 1]? = some last := by
    have hi : g.sortedUntil - 1 = A.length + B.length := by omega
    rw [hslots, hi, List.getElem?_append_right (Nat.le_add_right _ _), Nat.add_sub_cancel_left,
      ← List.cons_append, List.getElem?_append_left (by simp), hlast, List.getLast_eq_getElem]
    simp
  have hswap : g.swapRemove A.length = .ok (some x, A ++ last :: (B ++ g.unsorted)) := by
    rw [swapRemove, if_pos (by omega), hgetLast]
    simp [hslots]
  have hlen : g.realLen - 1 = A.length + (B ++ g.unsorted).length := by
    rw [realLen, hslots, List.length_append, List.length_cons]
    omega
  unfold EditGuard.remove
  rw [hidx]
  dsimp only
  split
  · rename_i p hp
    rw [hswap] at hp
    exact absurd hp (by simp)
  · rename_i r slots hp
    rw [hswap, Except.ok.injEq, Prod.mk.injEq] at hp
    obtain ⟨rfl, rfl⟩ := hp
    refine ⟨_, rfl, ?_, ?_⟩
    · simp only [sorted, hlen, List.take_length_add_append, List.take_left]
    · simp only [unsorted, hlen, List.take_length_add_append, List.drop_left]
      rw [List.dropLast_eq_take, List.length_cons, Nat.add_sub_cancel]

/-- The sorted elements around one of them. -/
theorem exists_sorted_eq (h : g.WellFormed key) {x : E} (hx : x ∈ g.sorted) :
    ∃ A B, g.sorted = A ++ x :: B ∧ (∀ a ∈ A, key a ≠ key x) ∧ ∀ b ∈ B, key b ≠ key x := by
  obtain ⟨A, B, hs⟩ := List.append_of_mem hx
  have hsort := h.strictSorted
  rw [hs, StrictSorted, List.pairwise_append] at hsort
  refine ⟨A, B, hs, fun a ha => ?_, fun b hb => ?_⟩
  · exact (hsort.2.2 a ha x List.mem_cons_self).ne
  · exact ((List.pairwise_cons.mp hsort.2.1).1 b hb).ne'

/-- What the unsorted elements are after a removal: some of the sorted ones from the removed one on,
and some of those that were unsorted before. -/
theorem mem_unsorted_of_remove {B U : List E} {x b : E}
    (hb : b ∈ ((x :: B).getLast (List.cons_ne_nil x B) :: (B ++ U)).dropLast) :
    b ∈ x :: B ∨ b ∈ U := by
  rcases List.mem_cons.mp ((List.dropLast_sublist _).mem hb) with rfl | hb
  · exact .inl (List.getLast_mem _)
  · rcases List.mem_append.mp hb with hb | hb
    · exact .inl (List.mem_cons_of_mem _ hb)
    · exact .inr hb

/-- **The shape of the state is kept** by a removal that does not panic, right or wrong. -/
theorem WellFormed.remove (h : g.WellFormed key) {k : K} {r : Option E} {g' : EditGuard E}
    (hr : g.remove key k = .ok (r, g')) : g'.WellFormed key := by
  cases hidx : g.getIdx key k with
  | none =>
    rw [remove_of_getIdx_none hidx, Except.ok.injEq, Prod.mk.injEq] at hr
    rw [← hr.2]
    exact h
  | some idx =>
    by_cases hlt : idx < g.sortedUntil
    · obtain ⟨hlen, rfl⟩ := key_of_getIdx hidx
      have hx : g.slots[idx] ∈ g.sorted :=
        List.mem_take_iff_getElem.mpr ⟨idx, by omega, rfl⟩
      obtain ⟨A, B, hs, hA, -⟩ := exists_sorted_eq h hx
      obtain ⟨g₁, hr₁, hsorted, hunsorted⟩ := remove_of_sorted_eq hs hA
      rw [hr₁, Except.ok.injEq, Prod.mk.injEq] at hr
      rw [← hr.2]
      have hsort := h.strictSorted
      rw [hs, StrictSorted, List.pairwise_append] at hsort
      refine ⟨by rw [hsorted]; exact hsort.1, ?_⟩
      rw [hsorted, hunsorted]
      intro a ha b hb
      rcases mem_unsorted_of_remove hb with hb | hb
      · exact (hsort.2.2 a ha b hb).ne
      · exact h.disjoint a (by simp [hs, ha]) b hb
    · rw [remove_of_le_getIdx hidx (by omega)] at hr
      exact absurd hr (by simp)

/-! ## Removal as it should be -/

/-- `remove(k)` returns, with the element that has the key if there is one; the elements with other
keys are those that are left, each as often as before, also once the guard is dropped. -/
def RemoveCorrect (key : E → K) (g : EditGuard E) (k : K) : Prop :=
  ∃ g', g.remove key k = .ok (lookup key g.slots k, g') ∧
    g'.slots.Perm (g.slots.filter fun e => decide (key e ≠ k)) ∧
    (g'.drop key).vec.Perm (g.slots.filter fun e => decide (key e ≠ k))

theorem removeCorrect_of_absent {k : K} (h : ∀ e ∈ g.slots, key e ≠ k) :
    g.RemoveCorrect key k := by
  have hidx : g.getIdx key k = none := by
    rw [getIdx_eq]
    split
    · rfl
    · exact List.findIdx?_eq_none_iff.mpr (by simpa using h)
  have hfilter : (g.slots.filter fun e => decide (key e ≠ k)) = g.slots :=
    List.filter_eq_self.mpr (by simpa using h)
  refine ⟨g, ?_, ?_, ?_⟩
  · rw [remove_of_getIdx_none hidx, lookup_eq_none_iff.mpr h]
  · rw [hfilter]
  · rw [hfilter]
    exact drop_perm

/-- The elements without the removed one. -/
theorem filter_of_sorted_eq (h : g.WellFormed key) {A B : List E} {x : E}
    (hs : g.sorted = A ++ x :: B) (hA : ∀ a ∈ A, key a ≠ key x) (hB : ∀ b ∈ B, key b ≠ key x) :
    (g.slots.filter fun e => decide (key e ≠ key x)) = A ++ (B ++ g.unsorted) := by
  have hU : ∀ u ∈ g.unsorted, key u ≠ key x := fun u hu =>
    (h.disjoint x (by simp [hs]) u hu).symm
  rw [← g.sorted_append_unsorted, hs, List.append_assoc, List.cons_append, List.filter_append,
    List.filter_cons_of_neg (by simp), List.filter_append,
    List.filter_eq_self.mpr (by simpa using hA),
    List.filter_eq_self.mpr (by simpa using hB), List.filter_eq_self.mpr (by simpa using hU)]

theorem lookup_of_sorted_eq {A B : List E} {x : E} (hs : g.sorted = A ++ x :: B)
    (hA : ∀ a ∈ A, key a ≠ key x) : lookup key g.slots (key x) = some x := by
  rw [← g.sorted_append_unsorted, hs, lookup, List.append_assoc, List.find?_append,
    List.find?_eq_none.mpr (by simpa using hA)]
  simp

/-- With nothing behind the sorted elements, the last one fills the gap. -/
theorem dropLast_getLast_cons_perm (x : E) (B : List E) :
    ((x :: B).getLast (List.cons_ne_nil x B) :: B).dropLast.Perm B := by
  rcases List.eq_nil_or_concat B with rfl | ⟨B', z, rfl⟩
  · simp
  · have hlast : (x :: (B' ++ [z])).getLast (List.cons_ne_nil _ _) = z := by
      rw [List.getLast_cons (by simp), List.getLast_append_singleton]
    rw [List.concat_eq_append, hlast, ← List.cons_append, List.dropLast_concat]
    exact (List.perm_append_singleton z B').symm

theorem removeCorrect_of_unsorted_nil (h : g.WellFormed key) (hU : g.unsorted = []) (k : K) :
    g.RemoveCorrect key k := by
  by_cases hk : ∀ e ∈ g.slots, key e ≠ k
  · exact removeCorrect_of_absent hk
  · push Not at hk
    obtain ⟨x, hx, rfl⟩ := hk
    have hslots : g.slots = g.sorted := by
      rw [← g.sorted_append_unsorted, hU, List.append_nil]
    obtain ⟨A, B, hs, hA, hB⟩ := exists_sorted_eq h (hslots ▸ hx)
    obtain ⟨g', hr, hsorted, hunsorted⟩ := remove_of_sorted_eq hs hA
    have hperm : g'.slots.Perm (g.slots.filter fun e => decide (key e ≠ key x)) := by
      rw [filter_of_sorted_eq h hs hA hB, ← g'.sorted_append_unsorted, hsorted, hunsorted, hU,
        List.append_nil]
      exact (dropLast_getLast_cons_perm x B).append_left A
    refine ⟨g', ?_, hperm, drop_perm.trans hperm⟩
    rw [hr, lookup_of_sorted_eq hs hA]

/-- With unsorted elements, a removal among the sorted ones leaves the removed element, or leaves
another one twice. -/
theorem not_perm_of_unsorted_ne_nil (h : g.WellFormed key) {A B : List E} {x : E}
    (hs : g.sorted = A ++ x :: B) (hU : g.unsorted ≠ []) :
    ¬ (A ++ ((x :: B).getLast (List.cons_ne_nil x B) :: (B ++ g.unsorted)).dropLast).Perm
      (A ++ (B ++ g.unsorted)) := by
  intro hperm
  have hperm := (List.perm_append_left_iff A).mp hperm
  have hdrop : ((x :: B).getLast (List.cons_ne_nil x B) :: (B ++ g.unsorted)).dropLast =
      (x :: B).getLast (List.cons_ne_nil x B) :: (B ++ g.unsorted.dropLast) := by
    rw [List.dropLast_cons_of_ne_nil (by simp [hU]), List.dropLast_append_of_ne_nil hU]
  rw [hdrop] at hperm
  set z := (x :: B).getLast (List.cons_ne_nil x B) with hz
  have hUz : ∀ u ∈ g.unsorted, key u ≠ key z := fun u hu =>
    (h.disjoint z (by rw [hs]; exact List.mem_append_right _ (List.getLast_mem _)) u hu).symm
  have hUz' : g.unsorted.countP (fun e => decide (key e = key z)) = 0 :=
    List.countP_eq_zero.mpr (by simpa using hUz)
  -- the key of the last sorted element occurs once more than it should
  have hcount := hperm.countP_eq fun e => decide (key e = key z)
  rw [List.countP_cons_of_pos (by simp), List.countP_append, List.countP_append, hUz'] at hcount
  omega

theorem not_removeCorrect (h : g.WellFormed key) (hU : g.unsorted ≠ []) {x : E}
    (hx : x ∈ g.slots) : ¬ g.RemoveCorrect key (key x) := by
  rintro ⟨g', hr, hperm, -⟩
  have hsome : lookup key g.slots (key x) ≠ none := fun hn =>
    lookup_eq_none_iff.mp hn x hx rfl
  cases hidx : g.getIdx key (key x) with
  | none =>
    -- not found, although it is there
    rw [remove_of_getIdx_none hidx, Except.ok.injEq, Prod.mk.injEq] at hr
    exact hsome hr.1.symm
  | some idx =>
    by_cases hlt : idx < g.sortedUntil
    · obtain ⟨hlen, hk⟩ := key_of_getIdx hidx
      have hmem : g.slots[idx] ∈ g.sorted :=
        List.mem_take_iff_getElem.mpr ⟨idx, by omega, rfl⟩
      obtain ⟨A, B, hs, hA, hB⟩ := exists_sorted_eq h hmem
      obtain ⟨g₁, hr₁, hsorted, hunsorted⟩ := remove_of_sorted_eq hs hA
      rw [← hk, hr₁, Except.ok.injEq, Prod.mk.injEq] at hr
      rw [← hr.2, ← hk, filter_of_sorted_eq h hs hA hB, ← g₁.sorted_append_unsorted, hsorted,
        hunsorted] at hperm
      exact not_perm_of_unsorted_ne_nil h hs hU hperm
    · rw [remove_of_le_getIdx hidx (by omega)] at hr
      exact absurd hr (by simp)

/-- The invariant after a removal that does not panic. -/
theorem WellFormed.of_remove {g' : EditGuard E} {k : K} (h : g.WellFormed key)
    (hr : (g.remove key k).map Prod.snd = .ok g') : g'.WellFormed key := by
  cases hres : g.remove key k with
  | error p =>
    rw [hres] at hr
    exact absurd hr (by simp [Except.map])
  | ok rg =>
    rw [hres] at hr
    rw [← Except.ok.inj hr]
    exact h.remove hres

/-! ## Reachable states -/

end EditGuard

/-- A call through the guard that changes it. -/
inductive Call (E K : Type) where
  | insert (elem : E)
  | tryInsert (elem : E)
  | remove (k : K)

/-- The call on the guard, without what it returns. -/
def Call.onGuard (key : E → K) (g : EditGuard E) : Call E K → Except Panic (EditGuard E)
  | .insert elem => .ok (g.insert key elem).2
  | .tryInsert elem => .ok (g.tryInsert key elem).2
  | .remove k => (g.remove key k).map Prod.snd

namespace EditGuard

variable {g : EditGuard E}

/-- The states that calls lead to, from a guard of a strictly sorted map. -/
def Reachable (key : E → K) : EditGuard E → Prop :=
  Reach (fun g => ∃ m : FlatMap E, StrictSorted key m.vec ∧ g = m.edit) (Call.onGuard key)

/-- **The invariant of the guard.** -/
theorem Reachable.wellFormed (h : g.Reachable key) : g.WellFormed key := by
  refine Reach.invariant (WellFormed key) ?_ ?_ h
  · rintro _ ⟨m, hm, rfl⟩
    exact wellFormed_edit hm
  · intro g c g' hg hc
    cases c with
    | insert e =>
      rw [← Except.ok.inj hc]
      exact hg.insert e
    | tryInsert e =>
      rw [← Except.ok.inj hc]
      exact hg.tryInsert e
    | remove k => exact hg.of_remove hc

/-- **When a removal is one.**  In every state that insertions and removals lead to, the removal of
a key is correct exactly when there are no unsorted elements, or no element has the key. -/
theorem removeCorrect_iff (key : E → K) (g : EditGuard E) (h : g.Reachable key) (k : K) :
    g.RemoveCorrect key k ↔ g.sortedUntil = g.realLen ∨ ∀ e ∈ g.slots, key e ≠ k := by
  have hU : g.unsorted = [] ↔ g.sortedUntil = g.realLen := by
    have := g.sortedUntil_le
    rw [unsorted, List.drop_eq_nil_iff, realLen]
    omega
  rw [← hU]
  constructor
  · intro hc
    by_contra hn
    push Not at hn
    obtain ⟨hne, x, hx, rfl⟩ := hn
    exact not_removeCorrect h.wellFormed hne hx hc
  · rintro (hnil | habs)
    · exact removeCorrect_of_unsorted_nil h.wellFormed hnil k
    · exact removeCorrect_of_absent habs

/-- A removal with nothing unsorted. -/
theorem removeCorrect_first :
    (⟨[(1, 0), (2, 0)]⟩ : FlatMap (ℕ × ℕ)).edit.Reachable Prod.fst ∧
      (⟨[(1, 0), (2, 0)]⟩ : FlatMap (ℕ × ℕ)).edit.RemoveCorrect Prod.fst 1 := by
  have hreach : (⟨[(1, 0), (2, 0)]⟩ : FlatMap (ℕ × ℕ)).edit.Reachable Prod.fst :=
    .init ⟨_, by simp [StrictSorted], rfl⟩
  exact ⟨hreach, (removeCorrect_iff Prod.fst _ hreach 1).mpr (.inl rfl)⟩

/-- **A removal that panics.**  Of three elements the first was removed; the other two are now
unsorted, and neither can be removed. -/
theorem not_removeCorrect_second :
    (⟨[(3, 0), (2, 0)], 0, Nat.zero_le 2⟩ : EditGuard (ℕ × ℕ)).Reachable Prod.fst ∧
      (⟨[(3, 0), (2, 0)], 0, Nat.zero_le 2⟩ : EditGuard (ℕ × ℕ)).remove Prod.fst 2 =
        .error (.swapRemove 1 0) ∧
      ¬ (⟨[(3, 0), (2, 0)], 0, Nat.zero_le 2⟩ : EditGuard (ℕ × ℕ)).RemoveCorrect Prod.fst 2 := by
  have hpanic : (⟨[(3, 0), (2, 0)], 0, Nat.zero_le 2⟩ : EditGuard (ℕ × ℕ)).remove Prod.fst 2 =
      .error (.swapRemove 1 0) := rfl
  refine ⟨?_, hpanic, ?_⟩
  · have hinit : (⟨[(1, 0), (2, 0), (3, 0)]⟩ : FlatMap (ℕ × ℕ)).edit.Reachable Prod.fst :=
      .init ⟨_, by simp [StrictSorted], rfl⟩
    exact .step (.remove 1) hinit rfl
  · rintro ⟨g', hr, -⟩
    rw [hpanic] at hr
    exact absurd hr (by simp)

end EditGuard

end Vinezombie
