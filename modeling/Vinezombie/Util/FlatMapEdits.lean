import Vinezombie.Library.Machine
import Vinezombie.Util.FlatMap

/-!
# Sessions of edits

A sequence of `insert`, `try_insert`, `get_or_insert` and `get` calls through one guard, compared
with the same calls on a finite map.  The map is a function from keys to elements, its calls are
what the guard is for (`Edit.onMap`), and both are machines fed one call after the other.

The two agree as long as the calls keep away from the keys of the unsorted elements.  A key that the
guard hides from its own lookup (`EditGuard.Hidden`) is taken to be absent, so that `insert` and the
others append a second element with it.  A key that is found beyond the vector
(`EditGuard.Beyond`) makes `insert`, `get_or_insert` and `get` reach for an element that the vector
does not have; `try_insert` leaves it alone.

* `Represents`: a guard with distinct keys that looks up what the map holds.
* `lockstep`: one call on each.
* `sessionCorrect_iff`: whole sessions, with the drop of the guard.
-/

namespace Vinezombie

open Library.KeyedList Library.Machine

variable {E K : Type} [LinearOrder K]

/-- A call through the guard that does not remove. -/
inductive Edit (E K : Type) where
  | insert (elem : E)
  | tryInsert (elem : E)
  | getOrInsert (elem : E)
  | get (k : K)

namespace Edit

variable (key : E → K)

/-- The call on the guard.  Of the two results of `get_or_insert` the second is kept: the argument,
if it was not inserted. -/
def onGuard (g : EditGuard E) : Edit E K → Except Panic (Option E) × EditGuard E
  | .insert elem => g.insert key elem
  | .tryInsert elem => (.ok (g.tryInsert key elem).1, (g.tryInsert key elem).2)
  | .getOrInsert elem => ((g.getOrInsert key elem).1.2, (g.getOrInsert key elem).2)
  | .get k => (g.get key k, g)

/-- An insertion that keeps the old element and then returns the new one. -/
def keepOld (m : K → Option E) (elem : E) : Option E × (K → Option E) :=
  if (m (key elem)).isSome then (some elem, m)
  else (none, Function.update m (key elem) (some elem))

/-- The call on a finite map, which returns. -/
def onMap (m : K → Option E) : Edit E K → Except Panic (Option E) × (K → Option E)
  | .insert elem => (.ok (m (key elem)), Function.update m (key elem) (some elem))
  | .tryInsert elem | .getOrInsert elem => (.ok (keepOld key m elem).1, (keepOld key m elem).2)
  | .get k => (.ok (m k), m)

/-- The call keeps away from the unsorted elements.  It is one that accesses an element and names no
key of theirs, or it is `try_insert` and does not name one that is hidden. -/
def AvoidsUnsorted (g : EditGuard E) : Edit E K → Prop
  | .tryInsert elem => ¬ g.Hidden key (key elem)
  | .insert elem | .getOrInsert elem => ∀ e ∈ g.unsorted, key e ≠ key elem
  | .get k => ∀ e ∈ g.unsorted, key e ≠ k

instance (g : EditGuard E) (c : Edit E K) : Decidable (c.AvoidsUnsorted key g) :=
  match c with
  | .tryInsert elem => inferInstanceAs (Decidable (¬ g.Hidden key (key elem)))
  | .insert elem => inferInstanceAs (Decidable (∀ e ∈ g.unsorted, key e ≠ key elem))
  | .getOrInsert elem => inferInstanceAs (Decidable (∀ e ∈ g.unsorted, key e ≠ key elem))
  | .get k => inferInstanceAs (Decidable (∀ e ∈ g.unsorted, key e ≠ k))

end Edit

namespace EditGuard

/-- The guard holds what the map holds, each key once. -/
structure Represents (key : E → K) (g : EditGuard E) (m : K → Option E) : Prop where
  wellFormed : g.WellFormed key
  nodup : (g.slots.map key).Nodup
  lookup_eq : lookup key g.slots = m

variable {key : E → K} {g : EditGuard E} {m : K → Option E}

theorem represents_edit {f : FlatMap E} (h : StrictSorted key f.vec) :
    f.edit.Represents key (lookup key f.vec) :=
  ⟨wellFormed_edit h, h.nodup_keys, rfl⟩

/-! ## One call -/

/-- Appending an element whose key is not held. -/
theorem Represents.push (h : g.Represents key m) {e : E} (he : m (key e) = none) :
    (g.push key e).2.Represents key (Function.update m (key e) (some e)) := by
  rw [← h.lookup_eq] at he ⊢
  have hne : ∀ a ∈ g.slots, key a ≠ key e := lookup_eq_none_iff.mp he
  refine ⟨h.wellFormed.push fun a ha => hne a (List.mem_of_mem_take ha), ?_, ?_⟩
  · rw [push_slots, List.map_append, List.map_singleton, List.nodup_append]
    refine ⟨h.nodup, List.nodup_singleton _, ?_⟩
    intro a ha b hb
    obtain ⟨a', ha', rfl⟩ := List.mem_map.mp ha
    rw [List.mem_singleton.mp hb]
    exact hne a' ha'
  · funext k
    exact lookup_append_singleton he k

/-- Replacing the element with a key that was found. -/
theorem Represents.replace (h : g.Represents key m) {e : E} {idx : ℕ}
    (hidx : g.getIdx key (key e) = some idx) :
    (g.replace idx e).Represents key (Function.update m (key e) (some e)) := by
  obtain ⟨hlt, hk⟩ := key_of_getIdx hidx
  refine ⟨h.wellFormed.replace hidx, by rw [replace_keys hidx]; exact h.nodup, ?_⟩
  funext k
  rw [← h.lookup_eq]
  exact lookup_set h.nodup hlt hk k

/-- What is found, in terms of the map. -/
theorem Represents.getIdx_eq_none_iff (h : g.Represents key m) {k : K}
    (hk : ¬ g.Hidden key k) : g.getIdx key k = none ↔ m k = none := by
  rw [← h.lookup_eq, ← Option.not_isSome_iff_eq_none, ← Option.not_isSome_iff_eq_none,
    getIdx_isSome_of_not_hidden hk]

theorem Represents.getElem?_of_getIdx (h : g.Represents key m) {k : K} {idx : ℕ}
    (hidx : g.getIdx key k = some idx) : g.slots[idx]? = m k := by
  obtain ⟨hlt, hk⟩ := key_of_getIdx hidx
  rw [← h.lookup_eq, List.getElem?_eq_getElem hlt, eq_comm, lookup_eq_some_iff h.nodup]
  exact ⟨List.getElem_mem hlt, hk⟩

/-- A key that an unsorted element has is held. -/
theorem Represents.isSome_of_unsorted (h : g.Represents key m) {k : K}
    (hk : ¬ ∀ e ∈ g.unsorted, key e ≠ k) : (m k).isSome := by
  rw [← h.lookup_eq, Option.isSome_iff_ne_none, Ne, lookup_eq_none_iff]
  exact fun hne => hk fun e he => hne e (mem_of_mem_unsorted he)

/-- What `insert` leaves. -/
theorem Represents.insert (h : g.Represents key m) {e : E} (hk : ¬ g.Hidden key (key e)) :
    (g.insert key e).2.Represents key (Function.update m (key e) (some e)) := by
  unfold EditGuard.insert
  cases hidx : g.getIdx key (key e) with
  | some idx => exact h.replace hidx
  | none => exact h.push ((h.getIdx_eq_none_iff hk).mp hidx)

/-- What `insert` returns. -/
theorem Represents.fst_insert (h : g.Represents key m) {e : E} (hk : ¬ g.Hidden key (key e))
    (hb : ¬ g.Beyond key (key e)) : (g.insert key e).1 = .ok (m (key e)) := by
  unfold EditGuard.insert
  cases hidx : g.getIdx key (key e) with
  | some idx => exact (getUnchecked_of_getIdx hidx hb).trans (by rw [h.getElem?_of_getIdx hidx])
  | none => exact congrArg Except.ok ((h.getIdx_eq_none_iff hk).mp hidx).symm

theorem Represents.tryInsert (h : g.Represents key m) {e : E} (hk : ¬ g.Hidden key (key e)) :
    (g.tryInsert key e).1 = (Edit.keepOld key m e).1 ∧
      (g.tryInsert key e).2.Represents key (Edit.keepOld key m e).2 := by
  unfold EditGuard.tryInsert Edit.keepOld
  rw [getIdx_isSome_of_not_hidden hk, h.lookup_eq]
  split
  · exact ⟨rfl, h⟩
  · rename_i hnone
    exact ⟨rfl, h.push (by simpa using hnone)⟩

/-- `get_or_insert` changes the guard as `try_insert` does. -/
theorem snd_getOrInsert (e : E) : (g.getOrInsert key e).2 = (g.tryInsert key e).2 := by
  unfold EditGuard.getOrInsert EditGuard.tryInsert
  cases g.getIdx key (key e) with
  | some idx => rfl
  | none => rfl

/-- It hands the argument back in the same cases, where it may access what it finds. -/
theorem fst_getOrInsert {e : E} (hb : ¬ g.Beyond key (key e)) :
    (g.getOrInsert key e).1.2 = .ok (g.tryInsert key e).1 := by
  unfold EditGuard.getOrInsert EditGuard.tryInsert
  cases hidx : g.getIdx key (key e) with
  | some idx => exact congrArg (Except.map _) (getUnchecked_of_getIdx hidx hb)
  | none => rfl

theorem tryInsert_of_hidden {e : E} (hk : g.Hidden key (key e)) :
    (g.tryInsert key e).1 = none := by
  rw [EditGuard.tryInsert, getIdx_of_hidden hk]
  rfl

theorem insert_of_hidden {e : E} (hk : g.Hidden key (key e)) : (g.insert key e).1 = .ok none := by
  rw [EditGuard.insert, getIdx_of_hidden hk]

theorem insert_of_beyond {e : E} (hk : g.Beyond key (key e)) :
    ∃ p, (g.insert key e).1 = .error p := by
  obtain ⟨idx, hidx, hacc⟩ := hk.getIdx
  exact ⟨_, by rw [EditGuard.insert, hidx]; exact hacc⟩

theorem getOrInsert_of_hidden {e : E} (hk : g.Hidden key (key e)) :
    (g.getOrInsert key e).1.2 = .ok none := by
  rw [fst_getOrInsert fun hb => hb.not_hidden hk, tryInsert_of_hidden hk]

theorem getOrInsert_of_beyond {e : E} (hk : g.Beyond key (key e)) :
    ∃ p, (g.getOrInsert key e).1.2 = .error p := by
  obtain ⟨idx, hidx, hacc⟩ := hk.getIdx
  exact ⟨_, by rw [EditGuard.getOrInsert, hidx]; exact congrArg (Except.map _) hacc⟩

theorem Represents.isSome_keepOld (h : g.Represents key m) {e : E}
    (hk : ¬ ∀ a ∈ g.unsorted, key a ≠ key e) : (Edit.keepOld key m e).1.isSome := by
  rw [Edit.keepOld, if_pos (h.isSome_of_unsorted hk)]
  rfl

/-- A key that no unsorted element has is neither hidden nor beyond the vector. -/
theorem not_hidden_of_forall {k : K} (h : ∀ e ∈ g.unsorted, key e ≠ k) : ¬ g.Hidden key k :=
  fun ⟨_, _, e, he, hk⟩ => h e he hk

theorem not_beyond_of_forall {k : K} (h : ∀ e ∈ g.unsorted, key e ≠ k) : ¬ g.Beyond key k :=
  fun ⟨_, e, he, hk⟩ => h e he hk

/-- A key that an unsorted element has is hidden or beyond the vector. -/
theorem WellFormed.hidden_or_beyond (h : g.WellFormed key) {k : K}
    (hk : ¬ ∀ e ∈ g.unsorted, key e ≠ k) : g.Hidden key k ∨ g.Beyond key k := by
  push Not at hk
  obtain ⟨e, he, rfl⟩ := hk
  have hne : ∀ a ∈ g.sorted, key a ≠ key e := fun a ha => h.disjoint a ha e he
  by_cases hgt : ∃ a ∈ g.sorted, key e < key a
  · exact .inl ⟨hne, hgt, e, he, rfl⟩
  · push Not at hgt
    exact .inr ⟨fun a ha => lt_of_le_of_ne (hgt a ha) (hne a ha), e, he, rfl⟩

/-- An answer that a finite map does not give: nothing for a key that it holds, or none at all. -/
theorem ne_ok_of_cases {a : Except Panic (Option E)} {b : Option E} (hb : b.isSome)
    (ha : a = .ok none ∨ ∃ p, a = .error p) : a ≠ .ok b := by
  rintro rfl
  rcases ha with ha | ⟨p, ha⟩
  · rw [Except.ok.inj ha] at hb
    exact absurd hb (by simp)
  · exact absurd ha (by simp)

/-- **One call.**  A call that keeps away from the unsorted elements is answered as the map answers
it and leaves the guard representing the map; any other is not answered so. -/
theorem lockstep (key : E → K) :
    Lockstep (Edit.onGuard key) (Edit.onMap key) (Represents key)
      (fun g c => c.AvoidsUnsorted key g) where
  agree := by
    intro g m c h hc
    cases c with
    | insert e =>
      exact ⟨h.fst_insert (not_hidden_of_forall hc) (not_beyond_of_forall hc),
        h.insert (not_hidden_of_forall hc)⟩
    | tryInsert e => exact ⟨congrArg Except.ok (h.tryInsert hc).1, (h.tryInsert hc).2⟩
    | getOrInsert e =>
      have hr := h.tryInsert (not_hidden_of_forall hc)
      rw [← snd_getOrInsert] at hr
      exact ⟨(fst_getOrInsert (not_beyond_of_forall hc)).trans (congrArg Except.ok hr.1), hr.2⟩
    | get k =>
      refine ⟨(get_of_not_hidden (not_hidden_of_forall hc) (not_beyond_of_forall hc)).trans ?_, h⟩
      exact congrArg Except.ok (congrFun h.lookup_eq k)
  differ := by
    intro g m c h hc
    cases c with
    | insert e =>
      refine ne_ok_of_cases (h.isSome_of_unsorted hc) ?_
      exact (h.wellFormed.hidden_or_beyond hc).imp insert_of_hidden insert_of_beyond
    | tryInsert e =>
      have hk : g.Hidden key (key e) := not_not.mp hc
      have hu : ¬ ∀ a ∈ g.unsorted, key a ≠ key e := fun hall => not_hidden_of_forall hall hk
      refine ne_ok_of_cases (h.isSome_keepOld hu) (.inl ?_)
      exact congrArg Except.ok (tryInsert_of_hidden hk)
    | getOrInsert e =>
      refine ne_ok_of_cases (h.isSome_keepOld hc) ?_
      exact (h.wellFormed.hidden_or_beyond hc).imp getOrInsert_of_hidden getOrInsert_of_beyond
    | get k =>
      refine ne_ok_of_cases (h.isSome_of_unsorted hc) ?_
      exact (h.wellFormed.hidden_or_beyond hc).imp get_of_hidden get_of_beyond

/-! ## Sessions -/

theorem Represents.drop (h : g.Represents key m) :
    StrictSorted key (g.drop key).vec ∧ lookup key (g.drop key).vec = m := by
  refine ⟨h.wellFormed.strictSorted_drop h.nodup, ?_⟩
  funext k
  rw [lookup_perm h.nodup drop_perm, h.lookup_eq]

end EditGuard

namespace FlatMap

/-- The state of the guard after a session of edits of `m`. -/
def session (key : E → K) (m : FlatMap E) (edits : List (Edit E K)) : EditGuard E :=
  final (Edit.onGuard key) m.edit edits

/-- What a session should be: every call is answered as on the finite map that `m` looks up, and the
guard, once dropped, leaves a map that is strictly sorted and looks up what the finite map holds in
the end. -/
structure SessionCorrect (key : E → K) (m : FlatMap E) (edits : List (Edit E K)) : Prop where
  answers : outputs (Edit.onGuard key) m.edit edits =
    outputs (Edit.onMap key) (lookup key m.vec) edits
  strictSorted : StrictSorted key ((m.session key edits).drop key).vec
  contents : lookup key ((m.session key edits).drop key).vec =
    final (Edit.onMap key) (lookup key m.vec) edits

/-- Every call of a session keeps away from the elements that are unsorted when it is made. -/
def AvoidsUnsorted (key : E → K) (m : FlatMap E) (edits : List (Edit E K)) : Prop :=
  Throughout (Edit.onGuard key) (fun g c => c.AvoidsUnsorted key g) m.edit edits

/-- **A session is correct exactly when its calls keep away from the unsorted elements.** -/
theorem sessionCorrect_iff (key : E → K) (m : FlatMap E) (hm : StrictSorted key m.vec)
    (edits : List (Edit E K)) : m.SessionCorrect key edits ↔ m.AvoidsUnsorted key edits := by
  have hR := EditGuard.represents_edit hm
  constructor
  · intro h
    exact ((EditGuard.lockstep key).outputs_eq_iff edits hR).mp h.answers
  · intro h
    have hfinal := ((EditGuard.lockstep key).final edits hR h).drop
    exact ⟨((EditGuard.lockstep key).outputs_eq_iff edits hR).mpr h, hfinal.1, hfinal.2⟩

/-- A session with a key out of order, which is named again by `try_insert` where it is not hidden
and by no other call. -/
theorem sessionCorrect_tryInsert :
    StrictSorted Prod.fst (new : FlatMap (ℕ × ℕ)).vec ∧
      (new : FlatMap (ℕ × ℕ)).SessionCorrect Prod.fst
        [.insert (2, 0), .insert (1, 0), .insert (3, 0), .tryInsert (3, 1), .get 2] :=
  ⟨strictSorted_nil, (sessionCorrect_iff Prod.fst new strictSorted_nil _).mpr
    ⟨by decide, by decide, by decide, by decide, by decide, trivial⟩⟩

/-- **Sessions that are not correct.**  The second key is below the first.  Inserted again it is not
found; a third key that is above both is found beyond the vector when it is inserted again. -/
theorem not_sessionCorrect_decreasing :
    StrictSorted Prod.fst (new : FlatMap (ℕ × ℕ)).vec ∧
      ¬ (new : FlatMap (ℕ × ℕ)).SessionCorrect Prod.fst
        [.insert (2, 0), .insert (1, 0), .insert (1, 1)] ∧
      ¬ (new : FlatMap (ℕ × ℕ)).SessionCorrect Prod.fst
        [.insert (2, 0), .insert (1, 0), .insert (3, 0), .insert (3, 1)] := by
  refine ⟨strictSorted_nil, fun h => ?_, fun h => ?_⟩
  · have hanswers := h.answers
    revert hanswers
    decide
  · have hanswers := h.answers
    revert hanswers
    decide

end FlatMap

end Vinezombie
