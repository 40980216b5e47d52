import Vinezombie.Util.FlatMapEdits
import Vinezombie.Util.FlatMapRemove

/-!
# Guards that are forgotten

A guard of a flat map that is forgotten is not dropped, so the elements it holds are not sorted.
The map is then left with the vector as it is, and its length is what the guard took for the number
of sorted elements.  What every operation keeps of the guard makes that part strictly increasing at
any moment, as long as it was when the guard was made.

A map need not be strictly increasing.  A key that is hidden from the guard can be inserted twice,
and dropping the guard sorts the elements without removing any.

* `forget_of_foldlM`: what is left of a guard after any calls.
* `forgetSafe_iff`: for which maps a guard may be forgotten at any moment.
-/

namespace Vinezombie

open Library.KeyedList Library.Machine

variable {E K : Type} [LinearOrder K] {key : E → K}

namespace EditGuard

/-- `clear`. -/
def clear (_ : EditGuard E) : EditGuard E := ⟨[], 0, Nat.le_refl _⟩

/-- What `mem::forget` of the guard leaves: the vector, up to its own length. -/
def forget (g : EditGuard E) : FlatMap E := ⟨g.slots.take g.sortedUntil⟩

theorem wellFormed_clear (g : EditGuard E) : g.clear.WellFormed key :=
  ⟨strictSorted_nil, by simp [clear, sorted]⟩

theorem WellFormed.getOrInsert {g : EditGuard E} (h : g.WellFormed key) (e : E) :
    (g.getOrInsert key e).2.WellFormed key := by
  rw [snd_getOrInsert]
  exact h.tryInsert e

end EditGuard

/-- The calls that change a guard. -/
inductive GuardCall (E K : Type) where
  | insert (elem : E)
  | tryInsert (elem : E)
  | getOrInsert (elem : E)
  | remove (k : K)
  | clear

/-- The call on the guard, without what it returns. -/
def GuardCall.onGuard (key : E → K) (g : EditGuard E) : GuardCall E K → Except Panic (EditGuard E)
  | .insert elem => .ok (g.insert key elem).2
  | .tryInsert elem => .ok (g.tryInsert key elem).2
  | .getOrInsert elem => .ok (g.getOrInsert key elem).2
  | .remove k => (g.remove key k).map Prod.snd
  | .clear => .ok g.clear

/-- **One call** keeps the shape of the guard. -/
theorem GuardCall.wellFormed {g g' : EditGuard E} (h : g.WellFormed key) (c : GuardCall E K)
    (hc : c.onGuard key g = .ok g') : g'.WellFormed key := by
  cases c with
  | insert e =>
    rw [← Except.ok.inj hc]
    exact h.insert e
  | tryInsert e =>
    rw [← Except.ok.inj hc]
    exact h.tryInsert e
  | getOrInsert e =>
    rw [← Except.ok.inj hc]
    exact h.getOrInsert e
  | remove k => exact h.of_remove hc
  | clear =>
    rw [← Except.ok.inj hc]
    exact g.wellFormed_clear

namespace FlatMap

/-- What is left of a guard that is forgotten, after any calls that do not panic, is strictly
increasing, and its elements are among those of the guard. -/
def ForgetSafe (key : E → K) (m : FlatMap E) : Prop :=
  ∀ (calls : List (GuardCall E K)) (g : EditGuard E),
    calls.foldlM (GuardCall.onGuard key) m.edit = .ok g →
      StrictSorted key g.forget.vec ∧ ∀ e ∈ g.forget.vec, e ∈ g.slots

/-- **Any calls** on a guard of a strictly sorted map. -/
theorem forget_of_foldlM {m : FlatMap E} (hm : StrictSorted key m.vec)
    (calls : List (GuardCall E K)) {g : EditGuard E}
    (hrun : calls.foldlM (GuardCall.onGuard key) m.edit = .ok g) :
    StrictSorted key g.forget.vec ∧ ∀ e ∈ g.forget.vec, e ∈ g.slots := by
  have hinit : Reach (fun g => g = m.edit) (GuardCall.onGuard key) m.edit := .init rfl
  have hreach := hinit.foldlM hrun
  have hg : g.WellFormed key := by
    refine hreach.invariant (EditGuard.WellFormed key) ?_ fun s c s' hs hc => c.wellFormed hs hc
    rintro _ rfl
    exact EditGuard.wellFormed_edit hm
  exact ⟨hg.strictSorted, fun e he => List.mem_of_mem_take he⟩

/-- The guard may be forgotten before the first call. -/
theorem ForgetSafe.strictSorted {m : FlatMap E} (h : ForgetSafe key m) :
    StrictSorted key m.vec := by
  have hforget : (m.edit).forget.vec = m.vec := List.take_length
  have hfirst := (h [] m.edit rfl).1
  rwa [hforget] at hfirst

/-- **Forgotten guards.**  A guard of a map may be forgotten at any moment exactly when the keys of
the map increase strictly. -/
theorem forgetSafe_iff (key : E → K) (m : FlatMap E) :
    ForgetSafe key m ↔ StrictSorted key m.vec :=
  ⟨ForgetSafe.strictSorted, fun hm calls _ hrun => forget_of_foldlM hm calls hrun⟩

/-- The map that is left by a guard through which the key 1 was inserted twice, behind the key 2. -/
def insertedTwice : FlatMap (ℕ × ℕ) :=
  ((new : FlatMap (ℕ × ℕ)).session Prod.fst
    [.insert (2, 0), .insert (1, 0), .insert (1, 1)]).drop Prod.fst

/-- **A map whose guard may not be forgotten**: a key was inserted again while it was hidden from
an earlier guard. -/
theorem not_forgetSafe_insertedTwice :
    insertedTwice.vec.Perm [(2, 0), (1, 0), (1, 1)] ∧ ¬ ForgetSafe Prod.fst insertedTwice := by
  have hperm : insertedTwice.vec.Perm [(2, 0), (1, 0), (1, 1)] := EditGuard.drop_perm
  refine ⟨hperm, fun h => ?_⟩
  have hnodup := (hperm.map Prod.fst).nodup_iff.mp h.strictSorted.nodup_keys
  revert hnodup
  decide

end FlatMap

end Vinezombie
