import Vinezombie.Strings.Newtypes
import Vinezombie.Util.FlatMapRemove

/-!
# Maps of names

`NameMap` of `names/types.rs`: a `FlatMap` of pairs of a name with its value, each with extra data,
sorted by name.  It is edited in sessions of calls through one guard.

A session of insertions with distinct keys never meets a hidden key, and leaves the map strictly
sorted; `Session` is its invariant.  A session of removals with increasing keys is a removal as long
as at most one of the keys is there; the second one that is there is found behind the sorted
elements, and `swap_remove` panics.

* `Session.foldl`, `Session.strictSorted_drop`: a session of insertions, and what it leaves.
* `removeAll_edit`, `removeAll_edit_error`: removals, when they are and when they are not.
* `outputs_insertOrUpdate`: the accesses of a session of updates.
* `getUnion_foldl`: what a session of insertions that keep old values leaves.
-/

namespace Vinezombie

open Library.KeyedList Library.Machine

namespace EditGuard

variable {E K : Type} [LinearOrder K] {key : E → K} {g : EditGuard E}

/-! ## Insertions with distinct keys -/

/-- A guard through which elements with the keys `ks` are still to be inserted. -/
structure Session (key : E → K) (g : EditGuard E) (ks : List K) : Prop where
  wellFormed : g.WellFormed key
  nodup : (g.slots.map key).Nodup
  fresh : ∀ e ∈ g.unsorted, key e ∉ ks

namespace Session

variable {ks : List K}

theorem edit {m : FlatMap E} (h : StrictSorted key m.vec) (ks : List K) :
    Session key m.edit ks where
  wellFormed := wellFormed_edit h
  nodup := h.nodup_keys
  fresh := by simp [unsorted_edit]

theorem tail {k : K} (h : Session key g (k :: ks)) : Session key g ks :=
  ⟨h.wellFormed, h.nodup, fun e he => fun hk => h.fresh e he (List.mem_cons_of_mem _ hk)⟩

/-- A key that is still to come is not hidden. -/
theorem not_hidden {k : K} (h : Session key g (k :: ks)) : ¬ g.Hidden key k := by
  rintro ⟨-, -, e, he, hk⟩
  exact h.fresh e he (hk ▸ List.mem_cons_self)

theorem push {e : E} (h : Session key g (key e :: ks)) (hks : key e ∉ ks)
    (hidx : g.getIdx key (key e) = none) : Session key (g.push key e).2 ks where
  wellFormed := h.wellFormed.push (key_ne_of_getIdx_none hidx)
  nodup := by
    rw [getIdx_of_not_hidden h.not_hidden] at hidx
    have habs : ∀ a ∈ g.slots, key a ≠ key e := by simpa using List.findIdx?_eq_none_iff.mp hidx
    rw [push_slots, List.map_append, List.nodup_append]
    refine ⟨h.nodup, List.nodup_singleton _, ?_⟩
    intro a ha b hb
    obtain ⟨a', ha', rfl⟩ := List.mem_map.mp ha
    rw [List.map_singleton, List.mem_singleton] at hb
    rw [hb]
    exact habs a' ha'
  fresh := by
    rcases push_cases key (g := g) e with ⟨-, -, -, hunsorted⟩ | ⟨-, hunsorted⟩
    · simp [hunsorted]
    · rw [hunsorted]
      intro a ha
      rcases List.mem_append.mp ha with ha | ha
      · exact h.tail.fresh a ha
      · rw [List.mem_singleton.mp ha]
        exact hks

/-- The session depends on the keys only. -/
theorem of_keys {g' : EditGuard E} (h : Session key g ks)
    (hkeys : g'.slots.map key = g.slots.map key) (hsu : g'.sortedUntil = g.sortedUntil) :
    Session key g' ks where
  wellFormed := h.wellFormed.of_keys hkeys hsu
  nodup := by rw [hkeys]; exact h.nodup
  fresh := by
    intro e he
    have hmem : key e ∈ g.unsorted.map key := by
      rw [← (map_parts_of_keys hkeys hsu).2]
      exact List.mem_map_of_mem he
    obtain ⟨e', he', hk⟩ := List.mem_map.mp hmem
    rw [← hk]
    exact h.fresh e' he'

theorem tryInsert {e : E} (h : Session key g (key e :: ks)) (hks : key e ∉ ks) :
    Session key (g.tryInsert key e).2 ks := by
  unfold EditGuard.tryInsert
  split
  · exact h.tail
  · rename_i hidx
    exact h.push hks (by simpa using hidx)

/-- **A session of insertions**, each of which takes its key off the keys that are to come. -/
theorem foldl {ι : Type} {name : ι → K} {f : EditGuard E → ι → EditGuard E}
    (hf : ∀ g i ks, Session key g (name i :: ks) → name i ∉ ks → Session key (f g i) ks)
    {is : List ι} (hnodup : (is.map name).Nodup) (h : Session key g (is.map name)) :
    Session key (is.foldl f g) [] := by
  induction is generalizing g with
  | nil => exact h
  | cons i is ih =>
    rw [List.map_cons, List.nodup_cons] at hnodup
    exact ih hnodup.2 (hf g i (is.map name) h hnodup.1)

/-- **What a session leaves** is strictly sorted. -/
theorem strictSorted_drop (h : Session key g ks) : StrictSorted key (g.drop key).vec :=
  h.wellFormed.strictSorted_drop h.nodup

end Session

/-! ## Removals with increasing keys -/

/-- Removals through one guard. -/
def removeAll (key : E → K) (g : EditGuard E) (ks : List K) : Except Panic (EditGuard E) :=
  ks.foldlM (fun g k => (g.remove key k).map Prod.snd) g

theorem removeAll_cons_of_absent {k : K} (h : ∀ e ∈ g.slots, key e ≠ k) (ks : List K) :
    removeAll key g (k :: ks) = removeAll key g ks := by
  have hidx : g.getIdx key k = none := by
    rw [getIdx_eq]
    split
    · rfl
    · exact List.findIdx?_eq_none_iff.mpr (by simpa using h)
  rw [removeAll, List.foldlM_cons, remove_of_getIdx_none hidx]
  rfl

theorem removeAll_cons_of_ok {k : K} {r : Option E} {g' : EditGuard E}
    (h : g.remove key k = .ok (r, g')) (ks : List K) :
    removeAll key g (k :: ks) = removeAll key g' ks := by
  rw [removeAll, List.foldlM_cons, h]
  rfl

theorem removeAll_cons_of_error {k : K} {p : Panic} (h : g.remove key k = .error p) (ks : List K) :
    removeAll key g (k :: ks) = .error p := by
  rw [removeAll, List.foldlM_cons, h]
  rfl

/-- Keys that are not there are removed without effect. -/
theorem removeAll_of_absent {ks : List K} (h : ∀ k ∈ ks, ∀ e ∈ g.slots, key e ≠ k) :
    removeAll key g ks = .ok g := by
  induction ks with
  | nil => rfl
  | cons k ks ih =>
    rw [removeAll_cons_of_absent (h k List.mem_cons_self)]
    exact ih fun k' hk' => h k' (List.mem_cons_of_mem _ hk')

/-- The first removal: what is left, and that the elements which stay sorted are below it. -/
theorem remove_of_unsorted_nil (h : g.WellFormed key) (hU : g.unsorted = []) {x : E}
    (hx : x ∈ g.slots) :
    ∃ g', g.remove key (key x) = .ok (some x, g') ∧
      g'.slots.Perm (g.slots.filter fun e => decide (key e ≠ key x)) ∧
      ∀ a ∈ g'.sorted, key a < key x := by
  have hslots : g.slots = g.sorted := by
    rw [← g.sorted_append_unsorted, hU, List.append_nil]
  obtain ⟨A, B, hs, hA, hB⟩ := exists_sorted_eq h (hslots ▸ hx)
  obtain ⟨g', hr, hsorted, -⟩ := remove_of_sorted_eq hs hA
  obtain ⟨g₁, hr₁, hperm, -⟩ := removeCorrect_of_unsorted_nil h hU (key x)
  rw [hr, Except.ok.injEq, Prod.mk.injEq] at hr₁
  obtain ⟨-, rfl⟩ := hr₁
  refine ⟨g', hr, hperm, fun a ha => ?_⟩
  have hsort := h.strictSorted
  rw [hs, StrictSorted, List.pairwise_append] at hsort
  rw [hsorted] at ha
  exact hsort.2.2 a ha x List.mem_cons_self

/-- Above the sorted elements nothing can be removed. -/
theorem removeAll_error_of_mem {ks : List K} (hlt : ∀ k ∈ ks, ∀ a ∈ g.sorted, key a < k)
    (hmem : ∃ k ∈ ks, ∃ e ∈ g.slots, key e = k) : ∃ p, removeAll key g ks = .error p := by
  induction ks with
  | nil =>
    obtain ⟨k, hk, -⟩ := hmem
    exact absurd hk (by simp)
  | cons k ks ih =>
    by_cases habs : ∀ e ∈ g.slots, key e ≠ k
    · rw [removeAll_cons_of_absent habs]
      refine ih (fun k' hk' => hlt k' (List.mem_cons_of_mem _ hk')) ?_
      obtain ⟨k', hk', e, he, hek⟩ := hmem
      rcases List.mem_cons.mp hk' with rfl | hk'
      · exact absurd hek (habs e he)
      · exact ⟨k', hk', e, he, hek⟩
    · have hsorted : ∀ a ∈ g.sorted, key a < k := hlt k List.mem_cons_self
      have hnot : ¬ g.Hidden key k := by
        rintro ⟨-, ⟨a, ha, hka⟩, -⟩
        exact absurd (hsorted a ha) (not_lt.mpr hka.le)
      cases hidx : g.getIdx key k with
      | none =>
        rw [getIdx_of_not_hidden hnot] at hidx
        exact absurd (by simpa using List.findIdx?_eq_none_iff.mp hidx) habs
      | some idx =>
        obtain ⟨hlen, hk⟩ := key_of_getIdx hidx
        have hle : g.sortedUntil ≤ idx := by
          by_contra hlt'
          have hin : g.slots[idx] ∈ g.sorted :=
            List.mem_take_iff_getElem.mpr ⟨idx, by omega, rfl⟩
          exact absurd hk (hsorted _ hin).ne
        exact ⟨_, removeAll_cons_of_error (remove_of_le_getIdx hidx hle) ks⟩

variable {m : FlatMap E}

/-- A key that some element of the map has. -/
def Holds (key : E → K) (m : FlatMap E) (k : K) : Prop := ∃ e ∈ m.vec, key e = k

/-- A single removal leaves the elements with other keys, in their order. -/
theorem drop_of_remove (hm : StrictSorted key m.vec) {k : K} {r : Option E}
    (hr : m.edit.remove key k = .ok (r, g))
    (hperm : g.slots.Perm (m.vec.filter fun e => decide (key e ≠ k))) :
    (g.drop key).vec = m.vec.filter fun e => decide (key e ≠ k) := by
  have hsort : StrictSorted key (m.vec.filter fun e => decide (key e ≠ k)) :=
    List.Pairwise.filter _ hm
  have hnodup : (g.slots.map key).Nodup := (hperm.map key).nodup_iff.mpr hsort.nodup_keys
  exact List.Perm.eq_of_pairwise (fun a b _ _ hab hba => absurd hab (not_lt.mpr hba.le))
    (((wellFormed_edit hm).remove hr).strictSorted_drop hnodup) hsort (drop_perm.trans hperm)

/-- **Removals, when they are.**  If at most one of the keys is there, the elements with the other
keys are what is left. -/
theorem removeAll_edit (hm : StrictSorted key m.vec) {ks : List K} (hks : ks.Pairwise (· < ·))
    (hone : ∀ k ∈ ks, ∀ k' ∈ ks, Holds key m k → Holds key m k' → k = k') :
    ∃ g, removeAll key m.edit ks = .ok g ∧
      (g.drop key).vec = m.vec.filter fun e => decide (key e ∉ ks) := by
  induction ks with
  | nil =>
    refine ⟨m.edit, rfl, ?_⟩
    simp [EditGuard.drop, FlatMap.edit, realLen]
  | cons k ks ih =>
    obtain ⟨hk, hks'⟩ := List.pairwise_cons.mp hks
    by_cases habs : ∀ e ∈ m.vec, key e ≠ k
    · obtain ⟨g, hg, hdrop⟩ := ih hks' fun k₁ h₁ k₂ h₂ =>
        hone k₁ (List.mem_cons_of_mem _ h₁) k₂ (List.mem_cons_of_mem _ h₂)
      refine ⟨g, by rw [removeAll_cons_of_absent habs, hg], ?_⟩
      rw [hdrop]
      refine List.filter_congr fun e he => ?_
      simp [habs e he]
    · push Not at habs
      obtain ⟨x, hx, rfl⟩ := habs
      obtain ⟨g, hr, hperm, -⟩ :=
        remove_of_unsorted_nil (wellFormed_edit hm) (unsorted_edit m) hx
      -- no other key is there, so this is the only removal
      have hothers : ∀ k ∈ ks, ∀ e ∈ m.vec, key e ≠ k := fun k' hk' e he hek =>
        (hk k' hk').ne (hone _ List.mem_cons_self _ (List.mem_cons_of_mem _ hk') ⟨x, hx, rfl⟩
          ⟨e, he, hek⟩)
      have hmem : ∀ e ∈ g.slots, e ∈ m.vec := fun e he =>
        (List.mem_filter.mp (hperm.mem_iff.mp he)).1
      refine ⟨g, ?_, ?_⟩
      · rw [removeAll_cons_of_ok hr]
        exact removeAll_of_absent fun k' hk' e he => hothers k' hk' e (hmem e he)
      · rw [drop_of_remove hm hr hperm]
        refine List.filter_congr fun e he => ?_
        have hnot : key e ∉ ks := fun hin => hothers _ hin e he rfl
        simp [hnot]

/-- **Removals, when they are not.**  The second key that is there makes `swap_remove` panic. -/
theorem removeAll_edit_error (hm : StrictSorted key m.vec) {ks : List K}
    (hks : ks.Pairwise (· < ·))
    (htwo : ∃ k ∈ ks, ∃ k' ∈ ks, Holds key m k ∧ Holds key m k' ∧ k ≠ k') :
    ∃ p, removeAll key m.edit ks = .error p := by
  induction ks with
  | nil =>
    obtain ⟨k, hk, -⟩ := htwo
    exact absurd hk (by simp)
  | cons k ks ih =>
    obtain ⟨hk, hks'⟩ := List.pairwise_cons.mp hks
    by_cases habs : ∀ e ∈ m.vec, key e ≠ k
    · rw [removeAll_cons_of_absent habs]
      refine ih hks' ?_
      obtain ⟨k₁, h₁, k₂, h₂, ⟨e₁, he₁, hek₁⟩, ⟨e₂, he₂, hek₂⟩, hne⟩ := htwo
      have hk₁ : k₁ ∈ ks := (List.mem_cons.mp h₁).resolve_left fun h => habs e₁ he₁ (hek₁.trans h)
      have hk₂ : k₂ ∈ ks := (List.mem_cons.mp h₂).resolve_left fun h => habs e₂ he₂ (hek₂.trans h)
      exact ⟨k₁, hk₁, k₂, hk₂, ⟨e₁, he₁, hek₁⟩, ⟨e₂, he₂, hek₂⟩, hne⟩
    · push Not at habs
      obtain ⟨x, hx, rfl⟩ := habs
      have hwf := wellFormed_edit hm
      obtain ⟨g, hr, hperm, hbelow⟩ := remove_of_unsorted_nil hwf (unsorted_edit m) hx
      rw [removeAll_cons_of_ok hr]
      refine removeAll_error_of_mem (fun k' hk' a ha => (hbelow a ha).trans (hk k' hk')) ?_
      obtain ⟨k₁, h₁, k₂, h₂, ⟨e₁, he₁, hek₁⟩, ⟨e₂, he₂, hek₂⟩, hne⟩ := htwo
      -- of two different keys one is not the first
      have hother : ∃ k' ∈ ks, ∃ e ∈ m.vec, key e = k' := by
        rcases List.mem_cons.mp h₁ with h₁ | h₁
        · rcases List.mem_cons.mp h₂ with h₂ | h₂
          · exact absurd (h₁.trans h₂.symm) hne
          · exact ⟨k₂, h₂, e₂, he₂, hek₂⟩
        · exact ⟨k₁, h₁, e₁, he₁, hek₁⟩
      obtain ⟨k', hk', e, he, hek⟩ := hother
      refine ⟨k', hk', e, hperm.mem_iff.mpr (List.mem_filter.mpr ⟨he, ?_⟩), hek⟩
      rw [hek]
      simpa using (hk k' hk').ne'

end EditGuard

/-! ## Maps of names -/

/-- `NameMap<Cap, V>` and `NameMap<ISupport, V>`: a name, its value, and extra data. -/
abbrev NameMap (V : Type) := FlatMap ((Key × Word) × V)

namespace NameMap

variable {V : Type}

/-- `NameExtractor::extract_key`. -/
def tag (elem : (Key × Word) × V) : Key := elem.1.1

/-- The keys, in order. -/
def keys (m : NameMap V) : List Key := m.vec.map tag

/-- `get_union_raw`. -/
def getUnion (m : NameMap V) (k : Key) : Option (Key × Word) := (m.get tag k).map Prod.fst

/-- `get_parsed`, with the `from_union` of the name. -/
def getParsed {α : Type} (m : NameMap V) (k : Key) (fromUnion : Key × Word → α) : Option α :=
  (m.get tag k).map fun elem => fromUnion elem.1

/-- `eref.1 = extra`, where `eref` is the reference to a slot. -/
def setExtra (g : EditGuard ((Key × Word) × V)) (slot : ℕ) (extra : V) :
    EditGuard ((Key × Word) × V) :=
  { g with
    slots := g.slots.modify slot fun e => (e.1, extra)
    sortedUntil_le := by rw [List.length_modify]; exact g.sortedUntil_le }

/-- `NameMapEditGuard::insert_or_update`. -/
def insertOrUpdate (g : EditGuard ((Key × Word) × V)) (elem : Key × Word) (extra : V) :
    Except Panic (Option (Key × Word)) × EditGuard ((Key × Word) × V) :=
  match g.getOrInsert tag (elem, extra) with
  | ((idx, .ok (some (elem, extra))), g) => (.ok (some elem), setExtra g idx extra)
  | ((_, .ok none), g) => (.ok none, g)
  | ((idx, .error p), g) => (.error p, setExtra g idx extra)

theorem map_fst_modify (extra : V) (l : List ((Key × Word) × V)) (idx : ℕ) :
    (l.modify idx fun e => (e.1, extra)).map Prod.fst = l.map Prod.fst := by
  induction l generalizing idx with
  | nil => rw [List.modify_nil]
  | cons e l ih =>
    cases idx with
    | zero => rw [List.modify_zero_cons, List.map_cons, List.map_cons]
    | succ idx => rw [List.modify_succ_cons, List.map_cons, List.map_cons, ih idx]

theorem map_tag_modify (extra : V) (l : List ((Key × Word) × V)) (idx : ℕ) :
    (l.modify idx fun e => (e.1, extra)).map tag = l.map tag := by
  have htag : (tag : (Key × Word) × V → Key) = Prod.fst ∘ Prod.fst := rfl
  rw [htag, ← List.map_map, map_fst_modify, List.map_map]

/-- What `insert_or_update` leaves. -/
theorem snd_insertOrUpdate (g : EditGuard ((Key × Word) × V)) (elem : Key × Word) (extra : V) :
    (insertOrUpdate g elem extra).2 =
      match g.getIdx tag (tag (elem, extra)) with
      | some idx => setExtra g idx extra
      | none => (g.push tag (elem, extra)).2 := by
  unfold insertOrUpdate EditGuard.getOrInsert
  cases g.getIdx tag (tag (elem, extra)) with
  | none => rfl
  | some idx =>
    dsimp only
    cases g.getUnchecked idx with
    | ok old => rfl
    | error p => rfl

theorem session_insertOrUpdate {g : EditGuard ((Key × Word) × V)} {elem : Key × Word}
    {ks : List Key} (h : g.Session tag (elem.1 :: ks)) (hks : elem.1 ∉ ks) (extra : V) :
    (insertOrUpdate g elem extra).2.Session tag ks := by
  rw [snd_insertOrUpdate]
  cases hidx : g.getIdx tag (tag (elem, extra)) with
  | none => exact h.push hks hidx
  | some idx => exact h.tail.of_keys (map_tag_modify extra _ idx) rfl

/-- The names with their values that a guard holds. -/
def unions (g : EditGuard ((Key × Word) × V)) : List (Key × Word) := g.slots.map Prod.fst

theorem unions_push (g : EditGuard ((Key × Word) × V)) (elem : Key × Word) (extra : V) :
    unions (g.push tag (elem, extra)).2 = unions g ++ [elem] := by
  rw [unions, EditGuard.push_slots, List.map_append]
  rfl

theorem lookup_map_fst (l : List ((Key × Word) × V)) (k : Key) :
    lookup Prod.fst (l.map Prod.fst) k = (lookup tag l k).map Prod.fst := by
  rw [lookup, List.find?_map]
  rfl

theorem getUnion_eq (m : NameMap V) (k : Key) :
    m.getUnion k = lookup Prod.fst (m.vec.map Prod.fst) k := by
  rw [getUnion, FlatMap.get_eq_lookup, lookup_map_fst]

/-- A call through the guard that inserts a name with its value, and keeps the value of one that is
there. -/
structure Keeps (f : EditGuard ((Key × Word) × V) → Key × Word → EditGuard ((Key × Word) × V)) :
    Prop where
  session : ∀ g elem ks, g.Session tag (elem.1 :: ks) → elem.1 ∉ ks → (f g elem).Session tag ks
  unions_eq : ∀ g elem, unions (f g elem) =
    if (g.getIdx tag elem.1).isSome then unions g else unions g ++ [elem]

theorem keeps_tryInsert (extra : V) :
    Keeps fun g elem => (g.tryInsert tag (elem, extra)).2 where
  session := fun g elem ks h hks => h.tryInsert (e := (elem, extra)) hks
  unions_eq := by
    intro g elem
    unfold EditGuard.tryInsert
    cases hidx : g.getIdx tag (tag (elem, extra)) with
    | none =>
      have hnone : g.getIdx tag elem.1 = none := hidx
      rw [hnone, if_neg (by simp)]
      exact unions_push g elem extra
    | some idx =>
      have hsome : g.getIdx tag elem.1 = some idx := hidx
      rw [hsome, Option.isSome_some, if_pos rfl]
      rfl

theorem keeps_insertOrUpdate (extra : V) :
    Keeps fun g elem => (insertOrUpdate g elem extra).2 where
  session := fun g elem ks h hks => session_insertOrUpdate h hks extra
  unions_eq := by
    intro g elem
    rw [snd_insertOrUpdate]
    cases hidx : g.getIdx tag (tag (elem, extra)) with
    | none =>
      have hnone : g.getIdx tag elem.1 = none := hidx
      rw [hnone, if_neg (by simp)]
      exact unions_push g elem extra
    | some idx =>
      have hsome : g.getIdx tag elem.1 = some idx := hidx
      rw [hsome, Option.isSome_some, if_pos rfl]
      exact map_fst_modify extra g.slots idx

variable {f : EditGuard ((Key × Word) × V) → Key × Word → EditGuard ((Key × Word) × V)}

/-- One insertion. -/
theorem Keeps.lookup_unions (hf : Keeps f) {g : EditGuard ((Key × Word) × V)} {elem : Key × Word}
    {ks : List Key} (h : g.Session tag (elem.1 :: ks)) (k : Key) :
    lookup Prod.fst (unions (f g elem)) k =
      (lookup Prod.fst (unions g) k).or (lookup Prod.fst [elem] k) := by
  have hfound : (g.getIdx tag elem.1).isSome = (lookup Prod.fst (unions g) elem.1).isSome := by
    rw [EditGuard.getIdx_isSome_of_not_hidden h.not_hidden, unions, lookup_map_fst,
      Option.isSome_map]
  rw [hf.unions_eq, hfound]
  split
  · rename_i hsome
    obtain ⟨old, hold⟩ := Option.isSome_iff_exists.mp hsome
    by_cases hk : elem.1 = k
    · rw [← hk, hold]
      rfl
    · rw [lookup_cons, if_neg hk]
      exact Option.or_none.symm
  · exact lookup_append _ _ _

/-- **Insertions of names that differ**, one after the other. -/
theorem Keeps.lookup_foldl (hf : Keeps f) {elems : List (Key × Word)}
    (hnodup : (elems.map Prod.fst).Nodup) {g : EditGuard ((Key × Word) × V)}
    (h : g.Session tag (elems.map Prod.fst)) (k : Key) :
    lookup Prod.fst (unions (elems.foldl f g)) k =
      (lookup Prod.fst (unions g) k).or (lookup Prod.fst elems k) := by
  induction elems generalizing g with
  | nil => exact Option.or_none.symm
  | cons elem elems ih =>
    obtain ⟨helem, hnodup'⟩ := List.nodup_cons.mp hnodup
    have hcons : lookup Prod.fst (elem :: elems) k =
        (lookup Prod.fst [elem] k).or (lookup Prod.fst elems k) := lookup_append [elem] elems k
    rw [List.foldl_cons, ih hnodup' (hf.session g elem _ h helem), hf.lookup_unions h, hcons,
      Option.or_assoc]

theorem Keeps.strictSorted_foldl (hf : Keeps f) {m : NameMap V} (hm : StrictSorted tag m.vec)
    {elems : List (Key × Word)} (hnodup : (elems.map Prod.fst).Nodup) :
    StrictSorted tag ((elems.foldl f m.edit).drop tag).vec :=
  (EditGuard.Session.foldl hf.session hnodup (.edit hm _)).strictSorted_drop

/-- **What a session of insertions leaves**: a value that was there, or else the one that was
inserted. -/
theorem Keeps.getUnion_foldl (hf : Keeps f) {m : NameMap V} (hm : StrictSorted tag m.vec)
    {elems : List (Key × Word)} (hnodup : (elems.map Prod.fst).Nodup) (k : Key) :
    NameMap.getUnion ((elems.foldl f m.edit).drop tag) k =
      (m.getUnion k).or (lookup Prod.fst elems k) := by
  have hsession := EditGuard.Session.foldl hf.session hnodup (.edit hm _)
  have hlookup : lookup tag ((elems.foldl f m.edit).drop tag).vec k =
      lookup tag (elems.foldl f m.edit).slots k :=
    lookup_perm hsession.nodup EditGuard.drop_perm k
  have hfold := hf.lookup_foldl hnodup (EditGuard.Session.edit hm _) k
  rw [getUnion_eq, lookup_map_fst, hlookup, ← lookup_map_fst, getUnion_eq]
  exact hfold

end NameMap

end Vinezombie
