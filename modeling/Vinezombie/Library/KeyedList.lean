import Mathlib.Data.List.Nodup
import Mathlib.Data.List.Sort
import Mathlib.Order.Basic

/-!
# Lists of keyed elements

Lists whose elements carry a key of a linear order, read as finite maps from keys to elements.
`lookup` reads a list so; `StrictSorted` is the normal form in which a list is determined by what it
looks up.

* `lookup_eq_some_iff`: in a list with distinct keys, looking up is membership.
* `lookup_perm`: with distinct keys, the order of the elements does not matter.
* `sortByKey`: a stable sort, which makes a list with distinct keys strictly sorted, and
  `lookupLast_sortByKey`, that it does not change which element with a key is the last.
* `lookup_append_singleton`, `lookup_set`: the two ways a list is updated.
-/

namespace Library.KeyedList

variable {E K : Type*} [LinearOrder K] (key : E → K)

/-- Strictly increasing keys. -/
def StrictSorted (l : List E) : Prop :=
  l.Pairwise fun a b => key a < key b

/-- Keys that increase or stay. -/
def Sorted (l : List E) : Prop :=
  l.Pairwise fun a b => key a ≤ key b

/-- The first element with a given key. -/
def lookup (l : List E) (k : K) : Option E :=
  l.find? fun e => decide (key e = k)

/-- The last element with a given key. -/
def lookupLast (l : List E) (k : K) : Option E :=
  (l.filter fun e => decide (key e = k)).getLast?

/-- Sort by key; elements with equal keys keep their order. -/
def sortByKey (l : List E) : List E :=
  l.mergeSort fun a b => decide (key a ≤ key b)

variable {key} {l l' : List E} {k : K} {e e' : E}

theorem StrictSorted.nodup_keys (h : StrictSorted key l) : (l.map key).Nodup :=
  List.pairwise_map.mpr (h.imp fun hlt => hlt.ne)

theorem strictSorted_nil : StrictSorted key ([] : List E) :=
  List.Pairwise.nil

theorem StrictSorted.sorted (h : StrictSorted key l) : Sorted key l :=
  h.imp fun hlt => hlt.le

/-- A key is at one index only. -/
theorem StrictSorted.getElem_inj (h : StrictSorted key l) {i j : ℕ} (hi : i < l.length)
    (hj : j < l.length) (hk : key l[i] = key l[j]) : i = j := by
  have hpair := List.pairwise_iff_getElem.mp h
  rcases lt_trichotomy i j with hij | hij | hij
  · exact absurd hk (hpair i j hi hj hij).ne
  · exact hij
  · exact absurd hk.symm (hpair j i hj hi hij).ne

/-! ## Lookup -/

theorem key_of_lookup (h : lookup key l k = some e) : key e = k := by
  simpa using List.find?_some h

theorem mem_of_lookup (h : lookup key l k = some e) : e ∈ l :=
  List.mem_of_find?_eq_some h

theorem lookup_eq_none_iff : lookup key l k = none ↔ ∀ e ∈ l, key e ≠ k := by
  simp [lookup]

theorem lookup_cons (a : E) (l : List E) (k : K) :
    lookup key (a :: l) k = if key a = k then some a else lookup key l k := by
  rw [lookup, List.find?_cons]
  by_cases h : key a = k
  · simp [h]
  · simp [h, lookup]

theorem lookup_append (l l' : List E) (k : K) :
    lookup key (l ++ l') k = (lookup key l k).or (lookup key l' k) :=
  List.find?_append

/-- What is looked up after keys were taken out. -/
theorem lookup_filter_notMem (l : List E) (ks : List K) (k : K) :
    lookup key (l.filter fun e => decide (key e ∉ ks)) k =
      if k ∈ ks then none else lookup key l k := by
  induction l with
  | nil => simp [lookup]
  | cons a l ih =>
    rw [List.filter_cons, lookup_cons]
    by_cases ha : key a ∈ ks
    · rw [if_neg (by simpa using ha), ih]
      by_cases hk : k ∈ ks
      · rw [if_pos hk, if_pos hk]
      · have hne : key a ≠ k := fun hak => hk (hak ▸ ha)
        rw [if_neg hk, if_neg hk, if_neg hne]
    · rw [if_pos (by simpa using ha), lookup_cons, ih]
      by_cases hak : key a = k
      · rw [if_pos hak, if_pos hak, if_neg (hak ▸ ha)]
      · rw [if_neg hak, if_neg hak]

omit [LinearOrder K] in
/-- Two elements of a list with distinct keys that have one key are equal. -/
theorem eq_of_key_eq (h : (l.map key).Nodup) (he : e ∈ l) (he' : e' ∈ l) (hk : key e = key e') :
    e = e' :=
  List.inj_on_of_nodup_map h he he' hk

/-- **Looking up is membership.** -/
theorem lookup_eq_some_iff (h : (l.map key).Nodup) :
    lookup key l k = some e ↔ e ∈ l ∧ key e = k := by
  constructor
  · intro hl
    exact ⟨mem_of_lookup hl, key_of_lookup hl⟩
  · rintro ⟨he, hk⟩
    cases hl : lookup key l k with
    | none => exact absurd hk (lookup_eq_none_iff.mp hl e he)
    | some e' =>
      rw [eq_of_key_eq h (mem_of_lookup hl) he (by rw [key_of_lookup hl, hk])]

/-- **The order of the elements does not matter.** -/
theorem lookup_perm (h : (l.map key).Nodup) (hp : l'.Perm l) (k : K) :
    lookup key l' k = lookup key l k := by
  have h' : (l'.map key).Nodup := (hp.map key).nodup_iff.mpr h
  ext e
  rw [lookup_eq_some_iff h, lookup_eq_some_iff h', hp.mem_iff]

theorem lookup_append_singleton (hk : lookup key l (key e) = none) (k : K) :
    lookup key (l ++ [e]) k = Function.update (lookup key l) (key e) (some e) k := by
  rw [lookup_append, lookup_cons]
  by_cases h : key e = k
  · subst h
    rw [Function.update_self, hk, if_pos rfl]
    rfl
  · rw [Function.update_of_ne (Ne.symm h), if_neg h]
    exact Option.or_none

omit [LinearOrder K] in
/-- Replacing an element by one with its key leaves the keys as they are. -/
theorem map_set_of_key_eq {i : ℕ} (hi : i < l.length) (hk : key l[i] = key e) :
    (l.set i e).map key = l.map key := by
  rw [List.map_set, ← hk]
  exact List.ext_getElem (by simp) fun j h1 h2 => by
    rw [List.getElem_set]
    split
    · rename_i hij
      subst hij
      simp
    · rfl

theorem lookup_set (h : (l.map key).Nodup) {i : ℕ} (hi : i < l.length) (hk : key l[i] = key e)
    (k : K) :
    lookup key (l.set i e) k = Function.update (lookup key l) (key e) (some e) k := by
  have h' : ((l.set i e).map key).Nodup := by rwa [map_set_of_key_eq hi hk]
  by_cases hke : k = key e
  · subst hke
    rw [Function.update_self, lookup_eq_some_iff h']
    exact ⟨List.mem_set hi e, rfl⟩
  · rw [Function.update_of_ne hke]
    ext a
    rw [lookup_eq_some_iff h, lookup_eq_some_iff h']
    refine and_congr_left fun hak => ?_
    constructor
    · intro ha
      rcases List.mem_or_eq_of_mem_set ha with ha | rfl
      · exact ha
      · exact absurd hak.symm hke
    · intro ha
      obtain ⟨j, hj, rfl⟩ := List.getElem_of_mem ha
      have hij : i ≠ j := by
        rintro rfl
        exact hke (hak.symm.trans hk)
      have hj' : j < (l.set i e).length := by simpa using hj
      have hget : (l.set i e)[j] = l[j] := List.getElem_set_ne hij hj'
      rw [← hget]
      exact List.getElem_mem hj'

theorem lookupLast_cons (a : E) (l : List E) (k : K) :
    lookupLast key (a :: l) k = (lookupLast key l k).or (if key a = k then some a else none) := by
  unfold lookupLast
  by_cases h : key a = k
  · rw [List.filter_cons_of_pos (by simpa using h), List.getLast?_cons, if_pos h]
    cases (l.filter fun e => decide (key e = k)).getLast? with
    | none => rfl
    | some last => rfl
  · rw [List.filter_cons_of_neg (by simpa using h), if_neg h, Option.or_none]

theorem lookupLast_append (l l' : List E) (k : K) :
    lookupLast key (l ++ l') k = (lookupLast key l' k).or (lookupLast key l k) := by
  rw [lookupLast, List.filter_append, List.getLast?_append, lookupLast, lookupLast]

theorem lookupLast_eq_none_iff : lookupLast key l k = none ↔ ∀ e ∈ l, key e ≠ k := by
  simp [lookupLast]

/-! ## Sorting -/

theorem sortByKey_perm (l : List E) : (sortByKey key l).Perm l :=
  List.mergeSort_perm l _

theorem sorted_sortByKey (l : List E) : Sorted key (sortByKey key l) := by
  have h : (sortByKey key l).Pairwise fun a b => decide (key a ≤ key b) = true :=
    List.pairwise_mergeSort
      (fun a b c hab hbc => by simpa using le_trans (by simpa using hab) (by simpa using hbc))
      (fun a b => by simpa using le_total (key a) (key b)) l
  exact h.imp fun hab => by simpa using hab

/-- **The sort is stable**: the elements with one key keep their order. -/
theorem filter_sortByKey (l : List E) (k : K) :
    ((sortByKey key l).filter fun e => decide (key e = k)) =
      l.filter fun e => decide (key e = k) := by
  set p : E → Bool := fun e => decide (key e = k) with hp
  have hle : (l.filter p).Pairwise fun a b => decide (key a ≤ key b) = true := by
    refine List.pairwise_of_forall_mem_list fun a ha b hb => ?_
    have hak : key a = k := by simpa [hp] using (List.mem_filter.mp ha).2
    have hbk : key b = k := by simpa [hp] using (List.mem_filter.mp hb).2
    simp [hak, hbk]
  have hsub : (l.filter p).Sublist (sortByKey key l) :=
    List.sublist_mergeSort
      (fun a b c hab hbc => by simpa using le_trans (by simpa using hab) (by simpa using hbc))
      (fun a b => by simpa using le_total (key a) (key b)) hle List.filter_sublist
  have hfilter : (l.filter p).Sublist ((sortByKey key l).filter p) := by
    have h := hsub.filter p
    simpa only [List.filter_filter, Bool.and_self] using h
  exact (hfilter.eq_of_length (((sortByKey_perm l).filter p).length_eq.symm)).symm

theorem lookupLast_sortByKey (l : List E) (k : K) :
    lookupLast key (sortByKey key l) k = lookupLast key l k := by
  rw [lookupLast, filter_sortByKey, lookupLast]

theorem sortByKey_of_strictSorted (h : StrictSorted key l) : sortByKey key l = l :=
  List.mergeSort_of_pairwise (h.imp fun hab => by simpa using hab.le)

/-- **Distinct keys are sorted strictly.** -/
theorem strictSorted_sortByKey (h : (l.map key).Nodup) : StrictSorted key (sortByKey key l) := by
  have hnodup : ((sortByKey key l).map key).Nodup :=
    ((sortByKey_perm l).map key).nodup_iff.mpr h
  exact (sorted_sortByKey l).imp₂ (fun a b hle hne => lt_of_le_of_ne hle hne)
    (List.pairwise_map.mp hnodup)

theorem StrictSorted.append_singleton (h : StrictSorted key l) (he : ∀ a ∈ l, key a < key e) :
    StrictSorted key (l ++ [e]) := by
  refine List.pairwise_append.mpr ⟨h, List.pairwise_singleton _ _, ?_⟩
  intro a ha b hb
  rw [List.mem_singleton.mp hb]
  exact he a ha

/-- The last element of a sorted list has the greatest key. -/
theorem Sorted.key_le_getLast (h : Sorted key l) {last : E}
    (hlast : l.getLast? = some last) (he : e ∈ l) : key e ≤ key last := by
  obtain ⟨init, rfl⟩ := List.getLast?_eq_some_iff.mp hlast
  rcases List.mem_append.mp he with he | he
  · exact (List.pairwise_append.mp h).2.2 e he last (by simp)
  · rw [List.mem_singleton.mp he]

/-- What is above the last element is above all. -/
theorem Sorted.key_lt_of_getLast (h : Sorted key l) {k : K}
    (hlast : ∀ last, l.getLast? = some last → key last < k) (he : e ∈ l) : key e < k := by
  obtain ⟨last, hl⟩ := Option.ne_none_iff_exists'.mp
    (mt List.getLast?_eq_none_iff.mp (List.ne_nil_of_mem he))
  exact (h.key_le_getLast hl he).trans_lt (hlast last hl)

end Library.KeyedList
