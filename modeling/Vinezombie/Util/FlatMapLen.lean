import Vinezombie.Util.FlatMapForget

/-!
# The length of a guard

`len` and `is_empty` of an edit guard come from the macro `collection_methods!`, which asks the
vector inside the guard.  The length of that vector is the number of elements that are known to be
sorted.  So the guard tells its real length as long as every element is one of those, and a call
that leaves an element behind them makes it tell a smaller one.  The guards of `Tags` and of
`NameMap` return what this one does.

* `EditGuard.lenCorrect_iff`: when a guard tells its length.
* `EditGuard.lenCorrect_of_run_iff`: the runs of calls in which it always does.
-/

namespace Vinezombie

open Library.Machine

variable {E K : Type} [LinearOrder K] {key : E → K}

namespace EditGuard

/-- `len`, which is `src.len()`. -/
def len (g : EditGuard E) : ℕ := g.sortedUntil

/-- `is_empty`, which is `src.is_empty()`. -/
def isEmpty (g : EditGuard E) : Bool := g.sortedUntil == 0

/-- What the documentation of the two methods says. -/
def LenCorrect (g : EditGuard E) : Prop :=
  g.len = g.slots.length ∧ (g.isEmpty = true ↔ g.slots = [])

/-- The call leaves no element behind the sorted ones: what it appends has a key above the one of
the last element, and what it takes out is the last element. -/
def InOrder (key : E → K) (g : EditGuard E) : GuardCall E K → Prop
  | .insert elem | .tryInsert elem | .getOrInsert elem =>
    (∀ x ∈ g.slots, key x ≠ key elem) → ∀ last, g.slots.getLast? = some last → key last < key elem
  | .remove k => ∀ x ∈ g.slots.dropLast, key x ≠ k
  | .clear => True

variable {g g' : EditGuard E}

theorem lenCorrect_iff : g.LenCorrect ↔ g.sortedUntil = g.slots.length := by
  constructor
  · exact fun h => h.1
  · intro h
    refine ⟨h, ?_⟩
    rw [isEmpty, h, beq_iff_eq, List.length_eq_zero_iff]

theorem lenCorrect_edit (m : FlatMap E) : m.edit.LenCorrect :=
  lenCorrect_iff.mpr rfl

theorem lenCorrect_iff_unsorted_eq_nil : g.LenCorrect ↔ g.unsorted = [] := by
  have hle := g.sortedUntil_le
  rw [lenCorrect_iff, unsorted, List.drop_eq_nil_iff]
  omega

/-- No key is hidden behind the sorted elements. -/
theorem LenCorrect.getIdx_eq (h : g.LenCorrect) (k : K) :
    g.getIdx key k = g.slots.findIdx? fun e => decide (key e = k) := by
  refine getIdx_of_not_hidden fun hhidden => ?_
  obtain ⟨-, -, e, he, -⟩ := hhidden
  rw [lenCorrect_iff_unsorted_eq_nil.mp h] at he
  exact absurd he List.not_mem_nil

theorem LenCorrect.getIdx_eq_none_iff (h : g.LenCorrect) {k : K} :
    g.getIdx key k = none ↔ ∀ x ∈ g.slots, key x ≠ k := by
  rw [h.getIdx_eq, List.findIdx?_eq_none_iff]
  simp

/-- Appending: the last key decides. -/
theorem LenCorrect.push_iff (h : g.LenCorrect) (e : E) :
    (g.push key e).2.LenCorrect ↔ ∀ last, g.slots.getLast? = some last → key last < key e := by
  have hlen := lenCorrect_iff.mp h
  have hsorted : g.isSorted key e = true ↔
      ∀ last, g.slots.getLast? = some last → key last < key e := by
    rw [isSorted, realLen, hlen, beq_self_eq_true, Bool.true_and]
    cases g.slots.getLast? with
    | none => simp
    | some last => simp
  rw [lenCorrect_iff, push_slots, List.length_append, List.length_singleton, ← hsorted]
  change g.sortedUntil + (if g.isSorted key e = true then 1 else 0) = _ ↔ _
  split
  · rename_i hs
    exact iff_of_true (by omega) hs
  · rename_i hs
    exact iff_of_false (by omega) hs

theorem LenCorrect.replace (h : g.LenCorrect) (idx : ℕ) (e : E) :
    (g.replace idx e).LenCorrect := by
  have hlen := lenCorrect_iff.mp h
  rw [lenCorrect_iff]
  change g.sortedUntil = (g.slots.set idx e).length
  rw [List.length_set, hlen]

theorem LenCorrect.insert_iff (h : g.LenCorrect) (e : E) :
    (g.insert key e).2.LenCorrect ↔ g.InOrder key (.insert e) := by
  unfold EditGuard.insert
  cases hidx : g.getIdx key (key e) with
  | some idx =>
    refine iff_of_true (h.replace idx e) fun habsent => ?_
    rw [h.getIdx_eq_none_iff.mpr habsent] at hidx
    exact absurd hidx (by simp)
  | none =>
    rw [h.push_iff]
    exact ⟨fun hlast _ => hlast, fun hin => hin (h.getIdx_eq_none_iff.mp hidx)⟩

theorem LenCorrect.tryInsert_iff (h : g.LenCorrect) (e : E) :
    (g.tryInsert key e).2.LenCorrect ↔ g.InOrder key (.tryInsert e) := by
  unfold EditGuard.tryInsert
  cases hidx : g.getIdx key (key e) with
  | some idx =>
    refine iff_of_true h fun habsent => ?_
    rw [h.getIdx_eq_none_iff.mpr habsent] at hidx
    exact absurd hidx (by simp)
  | none =>
    rw [Option.isSome_none, if_neg Bool.false_ne_true, h.push_iff]
    exact ⟨fun hlast _ => hlast, fun hin => hin (h.getIdx_eq_none_iff.mp hidx)⟩

/-- Removal: everything from the removed element on counts as unsorted afterwards. -/
theorem LenCorrect.remove_iff (h : g.LenCorrect) (k : K) :
    (∀ g', (g.remove key k).map Prod.snd = .ok g' → g'.LenCorrect) ↔
      g.InOrder key (.remove k) := by
  have hU := lenCorrect_iff_unsorted_eq_nil.mp h
  have hslots : g.slots = g.sorted := by
    rw [← g.sorted_append_unsorted, hU, List.append_nil]
  cases hfind : g.slots.find? fun e => decide (key e = k) with
  | none =>
    have habsent : ∀ x ∈ g.slots, key x ≠ k := by simpa using List.find?_eq_none.mp hfind
    rw [remove_of_getIdx_none (h.getIdx_eq_none_iff.mpr habsent)]
    refine iff_of_true ?_ fun x hx => habsent x (List.dropLast_subset _ hx)
    rintro _ ⟨⟩
    exact h
  | some x =>
    obtain ⟨hx, A, B, heq, hA⟩ := List.find?_eq_some_iff_append.mp hfind
    have hk : key x = k := of_decide_eq_true hx
    have hA' : ∀ a ∈ A, key a ≠ k := fun a ha => by simpa using hA a ha
    rw [← hk] at hA' ⊢
    obtain ⟨g', hremove, -, hunsorted⟩ := remove_of_sorted_eq (hslots.symm.trans heq) hA'
    rw [hU, List.append_nil] at hunsorted
    have hcorrect : (∀ g', (g.remove key (key x)).map Prod.snd = .ok g' → g'.LenCorrect) ↔
        g'.LenCorrect := by
      rw [hremove]
      exact ⟨fun hall => hall g' rfl, by rintro hg' _ ⟨⟩; exact hg'⟩
    rw [hcorrect, lenCorrect_iff_unsorted_eq_nil, hunsorted]
    -- What follows the removed element is left behind the sorted ones.
    cases B with
    | nil =>
      refine iff_of_true rfl ?_
      change ∀ y ∈ g.slots.dropLast, key y ≠ key x
      rwa [heq, List.dropLast_concat]
    | cons b B =>
      refine iff_of_false (by simp) fun hin => ?_
      refine hin x ?_ rfl
      rw [heq, List.dropLast_append_cons, List.dropLast_cons_cons]
      exact List.mem_append_right _ List.mem_cons_self

/-- **One call** on a guard that tells its length. -/
theorem LenCorrect.onGuard_iff (h : g.LenCorrect) (c : GuardCall E K) :
    g.InOrder key c ↔ ∀ g', c.onGuard key g = .ok g' → g'.LenCorrect := by
  have hok : ∀ g₁ : EditGuard E,
      g₁.LenCorrect ↔ ∀ g', (.ok g₁ : Except Panic (EditGuard E)) = .ok g' → g'.LenCorrect :=
    fun g₁ => ⟨by rintro hg₁ _ ⟨⟩; exact hg₁, fun hall => hall g₁ rfl⟩
  cases c with
  | insert e => exact (h.insert_iff e).symm.trans (hok _)
  | tryInsert e => exact (h.tryInsert_iff e).symm.trans (hok _)
  | getOrInsert e =>
    refine (h.tryInsert_iff e).symm.trans ?_
    rw [← snd_getOrInsert]
    exact hok _
  | remove k => exact (h.remove_iff k).symm
  | clear => exact iff_of_true trivial ((hok _).mp (lenCorrect_iff.mpr rfl))

/-- **The length of a guard.**  Throughout a run of calls it is the number of elements exactly if
every call of the run leaves the elements in order. -/
theorem lenCorrect_of_run_iff (key : E → K) (m : FlatMap E) (calls : List (GuardCall E K)) :
    (∀ done, done <+: calls → ∀ g, done.foldlM (GuardCall.onGuard key) m.edit = .ok g →
      g.LenCorrect) ↔
      Meets (GuardCall.onGuard key) (InOrder key) m.edit calls := by
  have hinit : m.edit.LenCorrect := lenCorrect_edit m
  rw [meets_iff_of_keeps LenCorrect (fun g c hg => hg.onGuard_iff c) hinit]
  exact (meets_iff_forall_isPrefix hinit).symm

/-- **Guards that do not tell their length**: one that holds two elements, the second inserted in
front of the first, and one that is left with the second of two. -/
theorem not_lenCorrect_insert :
    (∃ g, [GuardCall.insert 2, .insert 1].foldlM (GuardCall.onGuard id)
        (FlatMap.new : FlatMap ℕ).edit = .ok g ∧ g.slots = [2, 1] ∧ g.len = 1 ∧ ¬ g.LenCorrect) ∧
      ∃ g, [GuardCall.insert 1, .insert 2, .remove 1].foldlM (GuardCall.onGuard id)
        (FlatMap.new : FlatMap ℕ).edit = .ok g ∧ g.slots = [2] ∧ g.isEmpty = true ∧
          ¬ g.LenCorrect := by
  refine ⟨⟨_, rfl, by decide, by decide, fun h => ?_⟩, ⟨_, rfl, by decide, by decide, fun h => ?_⟩⟩
  · exact absurd h.1 (by decide)
  · exact absurd h.1 (by decide)

end EditGuard

end Vinezombie
