import Vinezombie.Library.KeyedList
import Vinezombie.Library.Scan

/-!
# Flat maps and their edit guard

`util/flatmap.rs`.  A `FlatMap` is a vector that is kept sorted by key.  It is edited through a
guard which appends new elements after the sorted ones and sorts the vector when it is dropped.

The guard of the source holds the vector with its length set to the number of elements that are
known to be sorted, and the number of elements it really has in `real_len`.  Here `slots` are the
`real_len` elements and `sortedUntil` is the vector's own length.  `as_slice` makes a slice of all
the slots; every other access goes through the vector, and has to stay below `sortedUntil`.
`swap_remove` checks that and panics.  `get_unchecked` does not: an index from there on makes the
call undefined, and a build with debug assertions aborts in it.  That is an error here too; the
state that goes with it is the one of a build that finds the slot in memory and goes on.

Keys are extracted by a function `key`, the `KeyExtractor` of the source.  Nothing says that a
`FlatMap` is sorted: that is an invariant which the guard may or may not restore, and
`KeyedList.StrictSorted` states it.

* `isBinarySearch_binarySearchBy`, `getImplBy_eq`: of the searches that the documentation of the
  standard library allows, each finds the same where keys increase strictly.
* `EditGuard.getIdx_eq`: the lookup of the guard finds what a scan of all elements would, except for
  the keys that are `Hidden`.
* `EditGuard.le_getIdx_iff`: the index it finds is beyond the vector for the keys that are `Beyond`.
* `EditGuard.WellFormed`: what every operation of the guard keeps.
* `EditGuard.push_slots`, `EditGuard.drop_perm`: what is written, and what is left after the guard.
-/

namespace Vinezombie

open Library.KeyedList Library.Scan

/-- What a call of `Vec` ends in that is passed an index the vector does not have.  `swap_remove`
panics.  `get_unchecked` and `get_unchecked_mut` are undefined there, and abort where debug
assertions are on. -/
inductive Panic where
  | swapRemove (index len : ℕ)
  | getUnchecked (index len : ℕ)
  deriving DecidableEq, Repr

/-- `FlatMap`, with the vector it wraps. -/
@[ext] structure FlatMap (E : Type) where
  vec : List E
  deriving DecidableEq

/-- `FlatMapEditGuard`. -/
structure EditGuard (E : Type) where
  /-- The elements, as `as_slice` returns them.  Their number is `real_len`. -/
  slots : List E
  /-- `src.len()`. -/
  sortedUntil : ℕ
  sortedUntil_le : sortedUntil ≤ slots.length

variable {E K : Type} [LinearOrder K] (key : E → K)

/-! ## Lookup -/

/-- What the documentation of `slice::binary_search_by` says of a search by the order of the keys in
a slice that is sorted so.  It returns the index of an element with the key, any of them if there
are several, or else the index at which one could be inserted. -/
structure IsBinarySearch (search : List E → K → Except ℕ ℕ) : Prop where
  found : ∀ {l k idx}, Sorted key l → search l k = .ok idx →
    ∃ hlt : idx < l.length, key l[idx] = k
  absent : ∀ {l k v}, Sorted key l → search l k = .error v →
    (∀ e ∈ l, key e ≠ k) ∧ v = (l.takeWhile fun e => decide (key e < k)).length

/-- `slice::binary_search_by`, as the search that returns the first of several elements. -/
def binarySearchBy (sorted : List E) (k : K) : Except ℕ ℕ :=
  match sorted.findIdx? fun e => decide (key e = k) with
  | some idx => .ok idx
  | none => .error (sorted.takeWhile fun e => decide (key e < k)).length

/-- `get_impl`, with the search that the standard library makes. -/
def getImplBy (search : List E → K → Except ℕ ℕ) (pairs : List E) (sortedUntil : ℕ) (k : K) :
    Option ℕ :=
  match search (pairs.take sortedUntil) k with
  | .ok idx => some idx
  | .error v =>
    if v < sortedUntil then none
    else ((pairs.drop sortedUntil).findIdx? fun e => decide (key e = k)).map (· + sortedUntil)

/-- `get_impl`. -/
def getImpl (pairs : List E) (sortedUntil : ℕ) (k : K) : Option ℕ :=
  getImplBy key (binarySearchBy key) pairs sortedUntil k

section

variable {key} {l : List E} {k : K}

theorem binarySearchBy_eq_ok {idx : ℕ} (h : binarySearchBy key l k = .ok idx) :
    ∃ hlt : idx < l.length, key l[idx] = k := by
  unfold binarySearchBy at h
  split at h
  · rename_i i hi
    obtain ⟨hlt, hkey, -⟩ := List.findIdx?_eq_some_iff_getElem.mp hi
    obtain rfl : i = idx := Except.ok.inj h
    exact ⟨hlt, of_decide_eq_true hkey⟩
  · exact absurd h (by simp)

theorem binarySearchBy_eq_error {v : ℕ} (h : binarySearchBy key l k = .error v) :
    (∀ e ∈ l, key e ≠ k) ∧ v = (l.takeWhile fun e => decide (key e < k)).length := by
  unfold binarySearchBy at h
  split at h
  · exact absurd h (by simp)
  · rename_i hnone
    exact ⟨by simpa using List.findIdx?_eq_none_iff.mp hnone, (Except.error.inj h).symm⟩

theorem isBinarySearch_binarySearchBy : IsBinarySearch key (binarySearchBy key) :=
  ⟨fun _ => binarySearchBy_eq_ok, fun _ => binarySearchBy_eq_error⟩

/-- **Two searches of keys that increase strictly** return the same. -/
theorem IsBinarySearch.eq {search search' : List E → K → Except ℕ ℕ}
    (hs : IsBinarySearch key search) (hs' : IsBinarySearch key search')
    (hl : StrictSorted key l) (k : K) : search l k = search' l k := by
  have hsorted : Sorted key l := hl.sorted
  cases h : search l k with
  | ok idx =>
    obtain ⟨hlt, hk⟩ := hs.found hsorted h
    cases h' : search' l k with
    | ok idx' =>
      obtain ⟨hlt', hk'⟩ := hs'.found hsorted h'
      rw [hl.getElem_inj hlt hlt' (hk.trans hk'.symm)]
    | error v => exact absurd hk ((hs'.absent hsorted h').1 _ (List.getElem_mem hlt))
  | error v =>
    obtain ⟨hne, hv⟩ := hs.absent hsorted h
    cases h' : search' l k with
    | ok idx' =>
      obtain ⟨hlt', hk'⟩ := hs'.found hsorted h'
      exact absurd hk' (hne _ (List.getElem_mem hlt'))
    | error v' => rw [hv, (hs'.absent hsorted h').2]

/-- **Whichever search the standard library makes**, what is looked up is the same where the keys of
the sorted part increase strictly. -/
theorem getImplBy_eq {search : List E → K → Except ℕ ℕ} (hs : IsBinarySearch key search)
    {sortedUntil : ℕ} (hl : StrictSorted key (l.take sortedUntil)) (k : K) :
    getImplBy key search l sortedUntil k = getImpl key l sortedUntil k := by
  rw [getImpl, getImplBy, getImplBy, hs.eq isBinarySearch_binarySearchBy hl k]

end

/-! ## The map -/

namespace FlatMap

/-- The loop of `do_dedup` with the element under its first pointer: an element with the same key
takes its place, any other is placed after it. -/
def dedupLoop (kept : E) : List E → List E
  | [] => [kept]
  | e :: rest => if key kept ≠ key e then kept :: dedupLoop e rest else dedupLoop e rest

/-- `do_dedup`: of neighbours with the same key, the first. -/
def doDedup : List E → List E
  | [] => []
  | e :: rest => dedupLoop key e rest

/-- `new`. -/
def new : FlatMap E := ⟨[]⟩

/-- `singleton`. -/
def singleton (elem : E) : FlatMap E := ⟨[elem]⟩

/-- `from_vec`. -/
def fromVec (vec : List E) : FlatMap E := ⟨doDedup key (sortByKey key vec)⟩

/-- Elements with strictly increasing keys are all kept. -/
theorem dedupLoop_of_strictSorted {key : E → K} {kept : E} {rest : List E}
    (h : StrictSorted key (kept :: rest)) : dedupLoop key kept rest = kept :: rest := by
  induction rest generalizing kept with
  | nil => rfl
  | cons e rest ih =>
    obtain ⟨hlt, htail⟩ := List.pairwise_cons.mp h
    rw [dedupLoop, if_pos (hlt e List.mem_cons_self).ne, ih htail]

theorem fromVec_of_strictSorted {key : E → K} {vec : List E} (h : StrictSorted key vec) :
    fromVec key vec = ⟨vec⟩ := by
  rw [fromVec, sortByKey_of_strictSorted h]
  cases vec with
  | nil => rfl
  | cons e rest => rw [doDedup, dedupLoop_of_strictSorted h]

/-- `is_empty`. -/
def isEmpty (m : FlatMap E) : Bool := m.vec.isEmpty

/-- `len`. -/
def len (m : FlatMap E) : ℕ := m.vec.length

/-- `edit`. -/
def edit (m : FlatMap E) : EditGuard E := ⟨m.vec, m.vec.length, Nat.le_refl _⟩

/-- `get`, with the search that the standard library makes.  What `get_impl` finds in a vector that
has no unsorted part is an index of the vector, so that `get_unchecked` may be called with it. -/
def getBy (search : List E → K → Except ℕ ℕ) (m : FlatMap E) (k : K) : Option E :=
  (getImplBy key search m.vec m.vec.length k).bind fun idx => m.vec[idx]?

/-- `get`. -/
def get (m : FlatMap E) (k : K) : Option E := m.getBy key (binarySearchBy key) k

end FlatMap

/-! ## The guard -/

namespace EditGuard

variable (g : EditGuard E)

/-- The length of the vector. -/
def realLen : ℕ := g.slots.length

/-- The elements that are known to be sorted. -/
def sorted : List E := g.slots.take g.sortedUntil

/-- The elements that were appended out of order, or moved. -/
def unsorted : List E := g.slots.drop g.sortedUntil

/-- The index that the guard finds for a key. -/
def getIdx (k : K) : Option ℕ := getImpl key g.slots g.sortedUntil k

/-- `src.get_unchecked(idx)` and `src.get_unchecked_mut(idx)`, with the element that is there. -/
def getUnchecked (idx : ℕ) : Except Panic (Option E) :=
  if idx < g.sortedUntil then .ok g.slots[idx]? else .error (.getUnchecked idx g.sortedUntil)

/-- `get`. -/
def get (k : K) : Except Panic (Option E) :=
  match g.getIdx key k with
  | some idx => g.getUnchecked idx
  | none => .ok none

/-- The test that `push` makes before it appends. -/
def isSorted (elem : E) : Bool :=
  g.sortedUntil == g.realLen &&
    match g.slots.getLast? with
    | none => true
    | some last => decide (key last < key elem)

/-- `push`.  The reference it returns is given by the index of its slot, which the source computes
from the length after the element was appended. -/
def push (elem : E) : ℕ × EditGuard E :=
  (g.realLen + 1,
    { slots := g.slots ++ [elem]
      sortedUntil := g.sortedUntil + if g.isSorted key elem then 1 else 0
      sortedUntil_le := by
        have := g.sortedUntil_le
        rw [List.length_append, List.length_singleton]
        split <;> omega })

/-- `std::mem::replace` of the element in a slot. -/
def replace (idx : ℕ) (elem : E) : EditGuard E :=
  { g with
    slots := g.slots.set idx elem
    sortedUntil_le := by rw [List.length_set]; exact g.sortedUntil_le }

/-- `insert`: what it returns, and the guard that it leaves. -/
def insert (elem : E) : Except Panic (Option E) × EditGuard E :=
  match g.getIdx key (key elem) with
  | some idx => (g.getUnchecked idx, g.replace idx elem)
  | none => (.ok none, (g.push key elem).2)

/-- `try_insert`, which does not access the element that it finds. -/
def tryInsert (elem : E) : Option E × EditGuard E :=
  if (g.getIdx key (key elem)).isSome then (some elem, g)
  else (none, (g.push key elem).2)

/-- `get_or_insert`.  Of what is returned the first component is the slot of the reference. -/
def getOrInsert (elem : E) : (ℕ × Except Panic (Option E)) × EditGuard E :=
  match g.getIdx key (key elem) with
  | some idx => ((idx, (g.getUnchecked idx).map fun _ => some elem), g)
  | none => (((g.push key elem).1, .ok none), (g.push key elem).2)

/-- `Vec::swap_remove` on a vector of length `sortedUntil`: the element before that length takes the
place of the removed one.  The slots from there on are not touched. -/
def swapRemove (idx : ℕ) : Except Panic (Option E × List E) :=
  if idx < g.sortedUntil then
    .ok (g.slots[idx]?,
      match g.slots[g.sortedUntil - 1]? with
      | some last => g.slots.set idx last
      | none => g.slots)
  else .error (.swapRemove idx g.sortedUntil)

theorem length_of_swapRemove {idx : ℕ} {r : Option E} {slots : List E}
    (h : g.swapRemove idx = .ok (r, slots)) :
    idx < g.sortedUntil ∧ slots.length = g.slots.length := by
  unfold swapRemove at h
  split at h
  · rename_i hlt
    simp only [Except.ok.injEq, Prod.mk.injEq] at h
    refine ⟨hlt, ?_⟩
    rw [← h.2]
    split
    · exact List.length_set
    · rfl
  · exact absurd h (by simp)

/-- `remove`. -/
def remove (k : K) : Except Panic (Option E × EditGuard E) :=
  match g.getIdx key k with
  | none => .ok (none, g)
  | some idx =>
    match h : g.swapRemove idx with
    | .error p => .error p
    | .ok (retval, slots) =>
      .ok (retval,
        { slots := slots.take (g.realLen - 1)
          sortedUntil := idx
          sortedUntil_le := by
            have h1 := g.length_of_swapRemove h
            have h2 := g.sortedUntil_le
            rw [List.length_take, realLen]
            omega })

/-- Dropping the guard. -/
def drop : FlatMap E :=
  if g.sortedUntil < g.realLen then ⟨sortByKey key g.slots⟩ else ⟨g.slots⟩

/-! ## What the lookup finds -/

theorem sorted_append_unsorted : g.sorted ++ g.unsorted = g.slots :=
  List.take_append_drop _ _

theorem length_sorted : g.sorted.length = g.sortedUntil :=
  (List.length_take ..).trans (Nat.min_eq_left g.sortedUntil_le)

/-- A key that is held among the unsorted elements only, below a key of a sorted one.  The binary
search for it ends before the last sorted element, and the source then does not look further. -/
def Hidden (k : K) : Prop :=
  (∀ e ∈ g.sorted, key e ≠ k) ∧ (∃ e ∈ g.sorted, k < key e) ∧ ∃ e ∈ g.unsorted, key e = k

instance (k : K) : Decidable (g.Hidden key k) :=
  inferInstanceAs (Decidable ((∀ e ∈ g.sorted, _) ∧ (∃ e ∈ g.sorted, _) ∧ ∃ e ∈ g.unsorted, _))

/-- A key that is held among the unsorted elements, above the keys of all sorted ones.  It is found,
at an index that the vector does not have. -/
def Beyond (k : K) : Prop := (∀ e ∈ g.sorted, key e < k) ∧ ∃ e ∈ g.unsorted, key e = k

variable {key g}

/-- **What the lookup finds.**  It is the first element with the key, unless the key is hidden. -/
theorem getIdx_eq (k : K) :
    g.getIdx key k =
      if g.Hidden key k then none else g.slots.findIdx? fun e => decide (key e = k) := by
  have hslots : (g.slots.findIdx? fun e => decide (key e = k)) =
      (g.sorted.findIdx? fun e => decide (key e = k)).or
        ((g.unsorted.findIdx? fun e => decide (key e = k)).map (· + g.sortedUntil)) := by
    conv_lhs => rw [← g.sorted_append_unsorted, List.findIdx?_append, length_sorted]
  have himpl : g.getIdx key k =
      match binarySearchBy key g.sorted k with
      | .ok idx => some idx
      | .error v =>
        if v < g.sortedUntil then none
        else (g.unsorted.findIdx? fun e => decide (key e = k)).map (· + g.sortedUntil) := rfl
  rw [himpl, hslots, binarySearchBy]
  cases hs : g.sorted.findIdx? fun e => decide (key e = k) with
  | some idx =>
    obtain ⟨hlt, hidx, -⟩ := List.findIdx?_eq_some_iff_getElem.mp hs
    have hnot : ¬ g.Hidden key k := fun hh => hh.1 _ (List.getElem_mem hlt) (by simpa using hidx)
    simp [hnot]
  | none =>
    have hne : ∀ e ∈ g.sorted, key e ≠ k := by simpa using List.findIdx?_eq_none_iff.mp hs
    have hstop : (g.sorted.takeWhile fun e => decide (key e < k)).length < g.sortedUntil ↔
        ∃ e ∈ g.sorted, k < key e := by
      rw [← g.length_sorted, length_takeWhile_lt_iff]
      refine exists_congr fun e => and_congr_right fun he => ?_
      rw [decide_eq_false_iff_not, not_lt, le_iff_lt_or_eq, or_iff_left (hne e he).symm]
    simp only [Option.none_or]
    by_cases hgt : ∃ e ∈ g.sorted, k < key e
    · rw [if_pos (hstop.mpr hgt)]
      by_cases hu : ∃ e ∈ g.unsorted, key e = k
      · rw [if_pos ⟨hne, hgt, hu⟩]
      · rw [if_neg fun hh => hu hh.2.2, List.findIdx?_eq_none_iff.mpr (by simpa using hu),
          Option.map_none]
    · rw [if_neg fun hh => hgt (hstop.mp hh), if_neg fun hh => hgt hh.2.1]

theorem getIdx_of_hidden {k : K} (h : g.Hidden key k) : g.getIdx key k = none := by
  rw [getIdx_eq, if_pos h]

theorem getIdx_of_not_hidden {k : K} (h : ¬ g.Hidden key k) :
    g.getIdx key k = g.slots.findIdx? fun e => decide (key e = k) := by
  rw [getIdx_eq, if_neg h]

/-- A key that is found is the key of the element in the slot that was found. -/
theorem key_of_getIdx {k : K} {idx : ℕ} (h : g.getIdx key k = some idx) :
    ∃ hlt : idx < g.slots.length, key g.slots[idx] = k := by
  rw [getIdx_eq] at h
  split at h
  · exact absurd h (by simp)
  · obtain ⟨hlt, hidx, -⟩ := List.findIdx?_eq_some_iff_getElem.mp h
    exact ⟨hlt, by simpa using hidx⟩

/-- **The keys that are found beyond the vector.** -/
theorem le_getIdx_iff {k : K} {idx : ℕ} (h : g.getIdx key k = some idx) :
    g.sortedUntil ≤ idx ↔ g.Beyond key k := by
  have hnot : ¬ g.Hidden key k := fun hh => by
    rw [getIdx_of_hidden hh] at h
    exact absurd h (by simp)
  rw [getIdx_of_not_hidden hnot] at h
  obtain ⟨hlt, hidx, hbefore⟩ := List.findIdx?_eq_some_iff_getElem.mp h
  have hkey : key g.slots[idx] = k := of_decide_eq_true hidx
  constructor
  · intro hle
    have hne : ∀ e ∈ g.sorted, key e ≠ k := by
      intro e he hek
      obtain ⟨j, hj, rfl⟩ := List.mem_take_iff_getElem.mp he
      exact absurd (decide_eq_true hek) (hbefore j (by omega))
    have hu : ∃ e ∈ g.unsorted, key e = k :=
      ⟨_, List.mem_drop_iff_getElem.mpr ⟨idx - g.sortedUntil, by omega, rfl⟩, by
        simpa only [Nat.add_sub_cancel' hle] using hkey⟩
    refine ⟨fun e he => lt_of_not_ge fun hge => ?_, hu⟩
    exact hnot ⟨hne, ⟨e, he, lt_of_le_of_ne hge (hne e he).symm⟩, hu⟩
  · rintro ⟨hbelow, -⟩
    by_contra hgt
    have hmem : g.slots[idx] ∈ g.sorted := List.mem_take_iff_getElem.mpr ⟨idx, by omega, rfl⟩
    exact absurd hkey (hbelow _ hmem).ne

theorem Beyond.not_hidden {k : K} (h : g.Beyond key k) : ¬ g.Hidden key k := by
  rintro ⟨-, ⟨e, he, hlt⟩, -⟩
  exact absurd (h.1 e he) (not_lt.mpr hlt.le)

/-- An access behind the lookup of a key fails for the keys beyond the vector. -/
theorem getUnchecked_of_getIdx {k : K} {idx : ℕ} (h : g.getIdx key k = some idx)
    (hk : ¬ g.Beyond key k) : g.getUnchecked idx = .ok g.slots[idx]? := by
  rw [getUnchecked, if_pos (not_le.mp (mt (le_getIdx_iff h).mp hk))]

theorem Beyond.getIdx {k : K} (h : g.Beyond key k) :
    ∃ idx, g.getIdx key k = some idx ∧
      g.getUnchecked idx = .error (.getUnchecked idx g.sortedUntil) := by
  cases hidx : g.getIdx key k with
  | none =>
    obtain ⟨e, he, hk⟩ := h.2
    rw [getIdx_of_not_hidden h.not_hidden] at hidx
    have hne := List.findIdx?_eq_none_iff.mp hidx e (List.mem_of_mem_drop he)
    exact absurd hk (of_decide_eq_false hne)
  | some idx => exact ⟨idx, rfl, if_neg (not_lt.mpr ((le_getIdx_iff hidx).mpr h))⟩

/-- A key that is not found is not among the sorted elements. -/
theorem key_ne_of_getIdx_none {k : K} (h : g.getIdx key k = none) : ∀ e ∈ g.sorted, key e ≠ k := by
  rw [getIdx_eq] at h
  split at h
  · rename_i hh
    exact hh.1
  · intro e he
    have hmem : e ∈ g.slots := List.mem_of_mem_take he
    simpa using List.findIdx?_eq_none_iff.mp h e hmem

/-- What a lookup leads to, for a key that is not hidden. -/
theorem lookup_eq_bind_getIdx {k : K} (h : ¬ g.Hidden key k) :
    lookup key g.slots k = (g.getIdx key k).bind fun idx => g.slots[idx]? := by
  rw [getIdx_of_not_hidden h, lookup, List.find?_eq_bind_findIdx?_getElem?]

theorem get_of_not_hidden {k : K} (h : ¬ g.Hidden key k) (hb : ¬ g.Beyond key k) :
    g.get key k = .ok (lookup key g.slots k) := by
  rw [get, lookup_eq_bind_getIdx h]
  cases hidx : g.getIdx key k with
  | none => rfl
  | some idx => exact getUnchecked_of_getIdx hidx hb

theorem get_of_hidden {k : K} (h : g.Hidden key k) : g.get key k = .ok none := by
  rw [get, getIdx_of_hidden h]

theorem get_of_beyond {k : K} (h : g.Beyond key k) : ∃ p, g.get key k = .error p := by
  obtain ⟨idx, hidx, hacc⟩ := h.getIdx
  exact ⟨_, by rw [get, hidx]; exact hacc⟩

theorem mem_of_mem_unsorted {e : E} (h : e ∈ g.unsorted) : e ∈ g.slots :=
  List.mem_of_mem_drop h

/-- What is found is what is there, for a key that is not hidden. -/
theorem getIdx_isSome_of_not_hidden {k : K} (h : ¬ g.Hidden key k) :
    (g.getIdx key k).isSome = (lookup key g.slots k).isSome := by
  rw [getIdx_of_not_hidden h, lookup, List.findIdx?_isSome, Bool.eq_iff_iff, List.find?_isSome,
    List.any_eq_true]

/-! ## What the operations keep -/

/-- The shape of every state of the guard. -/
structure WellFormed (key : E → K) (g : EditGuard E) : Prop where
  strictSorted : StrictSorted key g.sorted
  disjoint : ∀ a ∈ g.sorted, ∀ b ∈ g.unsorted, key a ≠ key b

theorem sorted_edit (m : FlatMap E) : m.edit.sorted = m.vec :=
  List.take_length

theorem unsorted_edit (m : FlatMap E) : m.edit.unsorted = [] :=
  List.drop_length

/-- Nothing is hidden from a new guard. -/
theorem not_hidden_edit (m : FlatMap E) (k : K) : ¬ m.edit.Hidden key k := by
  rintro ⟨-, -, e, he, -⟩
  rw [unsorted_edit] at he
  exact absurd he (by simp)

theorem wellFormed_edit {m : FlatMap E} (h : StrictSorted key m.vec) : m.edit.WellFormed key where
  strictSorted := by rwa [sorted_edit]
  disjoint := by simp [unsorted_edit]

theorem push_slots (e : E) : (g.push key e).2.slots = g.slots ++ [e] := rfl

variable (key) in
/-- The two ways an element is appended: as the next sorted one, or as an unsorted one. -/
theorem push_cases (e : E) :
    (g.unsorted = [] ∧ (∀ last, g.sorted.getLast? = some last → key last < key e) ∧
      (g.push key e).2.sorted = g.sorted ++ [e] ∧ (g.push key e).2.unsorted = []) ∨
    ((g.push key e).2.sorted = g.sorted ∧ (g.push key e).2.unsorted = g.unsorted ++ [e]) := by
  have hle := g.sortedUntil_le
  by_cases hs : g.isSorted key e = true
  · left
    have hsu : (g.push key e).2.sortedUntil = g.sortedUntil + 1 := by simp [push, hs]
    obtain ⟨hlen, hlast⟩ := Bool.and_eq_true_iff.mp hs
    have hlen' : g.sortedUntil = g.slots.length := by simpa [realLen] using hlen
    have hsorted : g.sorted = g.slots := by rw [sorted, hlen', List.take_length]
    refine ⟨by rw [unsorted, hlen', List.drop_length], ?_, ?_, ?_⟩
    · intro last hl
      rw [hsorted] at hl
      rw [hl] at hlast
      simpa using hlast
    · rw [sorted, hsu, push_slots, hsorted, List.take_of_length_le (by simp [hlen'])]
    · rw [unsorted, hsu, push_slots, List.drop_of_length_le (by simp [hlen'])]
  · right
    have hsu : (g.push key e).2.sortedUntil = g.sortedUntil := by simp [push, hs]
    constructor
    · rw [sorted, hsu, push_slots, List.take_append_of_le_length hle, sorted]
    · rw [unsorted, hsu, push_slots, List.drop_append_of_le_length hle, unsorted]

theorem WellFormed.push (h : g.WellFormed key) {e : E} (he : ∀ a ∈ g.sorted, key a ≠ key e) :
    (g.push key e).2.WellFormed key := by
  rcases push_cases key (g := g) e with ⟨-, hlast, hsorted, hunsorted⟩ | ⟨hsorted, hunsorted⟩
  · refine ⟨?_, by simp [hunsorted]⟩
    rw [hsorted]
    exact h.strictSorted.append_singleton fun a ha =>
      h.strictSorted.sorted.key_lt_of_getLast hlast ha
  · refine ⟨by rw [hsorted]; exact h.strictSorted, ?_⟩
    rw [hsorted, hunsorted]
    intro a ha b hb
    rcases List.mem_append.mp hb with hb | hb
    · exact h.disjoint a ha b hb
    · rw [List.mem_singleton.mp hb]
      exact he a ha

omit [LinearOrder K] in
/-- The keys of the two parts. -/
theorem map_parts_of_keys {g' : EditGuard E} (hkeys : g'.slots.map key = g.slots.map key)
    (hsu : g'.sortedUntil = g.sortedUntil) :
    g'.sorted.map key = g.sorted.map key ∧ g'.unsorted.map key = g.unsorted.map key := by
  constructor
  · rw [sorted, sorted, List.map_take, List.map_take, hkeys, hsu]
  · rw [unsorted, unsorted, List.map_drop, List.map_drop, hkeys, hsu]

/-- The shape of a state depends on the keys only. -/
theorem WellFormed.of_keys {g' : EditGuard E} (h : g.WellFormed key)
    (hkeys : g'.slots.map key = g.slots.map key) (hsu : g'.sortedUntil = g.sortedUntil) :
    g'.WellFormed key := by
  obtain ⟨hs, hu⟩ := map_parts_of_keys hkeys hsu
  constructor
  · refine List.pairwise_map.mp ?_
    rw [hs]
    exact List.pairwise_map.mpr h.strictSorted
  · intro a ha b hb
    obtain ⟨a', ha', hka⟩ := List.mem_map.mp (hs ▸ List.mem_map_of_mem ha)
    obtain ⟨b', hb', hkb⟩ := List.mem_map.mp (hu ▸ List.mem_map_of_mem hb)
    rw [← hka, ← hkb]
    exact h.disjoint a' ha' b' hb'

theorem replace_keys {e : E} {idx : ℕ} (h : g.getIdx key (key e) = some idx) :
    (g.replace idx e).slots.map key = g.slots.map key := by
  obtain ⟨hlt, hk⟩ := key_of_getIdx h
  exact map_set_of_key_eq hlt hk

theorem WellFormed.replace (h : g.WellFormed key) {e : E} {idx : ℕ}
    (hidx : g.getIdx key (key e) = some idx) : (g.replace idx e).WellFormed key :=
  h.of_keys (replace_keys hidx) rfl

theorem WellFormed.insert (h : g.WellFormed key) (e : E) : (g.insert key e).2.WellFormed key := by
  unfold EditGuard.insert
  split
  · rename_i idx hidx
    exact h.replace hidx
  · rename_i hidx
    exact h.push (key_ne_of_getIdx_none hidx)

theorem WellFormed.tryInsert (h : g.WellFormed key) (e : E) :
    (g.tryInsert key e).2.WellFormed key := by
  unfold EditGuard.tryInsert
  split
  · exact h
  · rename_i hidx
    exact h.push (key_ne_of_getIdx_none (by simpa using hidx))

/-! ## Dropping the guard -/

theorem drop_perm : (g.drop key).vec.Perm g.slots := by
  unfold EditGuard.drop
  split
  · exact sortByKey_perm _
  · exact List.Perm.refl _

/-- Dropping a guard leaves the keys sorted, if those of the sorted elements are. -/
theorem sorted_drop (h : Sorted key g.sorted) : Sorted key (g.drop key).vec := by
  unfold EditGuard.drop
  split
  · exact sorted_sortByKey _
  · rename_i hlt
    have hsorted : g.sorted = g.slots := List.take_of_length_le (not_lt.mp hlt)
    rwa [hsorted] at h

/-- Dropping a guard with distinct keys leaves them strictly sorted. -/
theorem WellFormed.strictSorted_drop (h : g.WellFormed key) (hn : (g.slots.map key).Nodup) :
    StrictSorted key (g.drop key).vec := by
  unfold EditGuard.drop
  split
  · exact strictSorted_sortByKey hn
  · rename_i hlt
    have hsorted : g.sorted = g.slots := List.take_of_length_le (not_lt.mp hlt)
    exact hsorted ▸ h.strictSorted

end EditGuard

/-- Whichever search the standard library makes, it finds the same in a map whose keys increase
strictly. -/
theorem FlatMap.getBy_eq_get {key : E → K} {search : List E → K → Except ℕ ℕ} {m : FlatMap E}
    (hs : IsBinarySearch key search) (hm : StrictSorted key m.vec) (k : K) :
    m.getBy key search k = m.get key k := by
  have hl : StrictSorted key (m.vec.take m.vec.length) := by rwa [List.take_length]
  rw [FlatMap.get, FlatMap.getBy, FlatMap.getBy, getImplBy_eq hs hl]
  rfl

/-- A map has no unsorted elements, so that what is found in it is what is there. -/
theorem FlatMap.get_eq_lookup (m : FlatMap E) (k : K) : m.get key k = lookup key m.vec k :=
  (EditGuard.lookup_eq_bind_getIdx (EditGuard.not_hidden_edit m k)).symm

end Vinezombie
