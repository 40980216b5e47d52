import Vinezombie.Util.FlatMap

/-!
# Building a flat map from a vector

`FlatMap::from_vec` sorts a vector and hands it to `do_dedup`, which keeps the last of each run of
elements with one key.  It works in place with two pointers, the first under the last element that
is kept and the second under the last one that was looked at.  Between the two are slots that were
moved out of, which must not be read.

* `dedupWhile_spec`: the loop reads no such slot, and leaves what `doDedup` returns.
* `doDedupInPlace_eq`: so `doDedup`, which says nothing of slots, is the function of the source.
* `lookup_fromVec`: each key has the last element with it.
* `fromVec_spec`: what `from_vec` returns, and what is found in it.
-/

namespace Vinezombie

open Library.KeyedList

variable {E K : Type} [LinearOrder K] (key : E → K)

namespace FlatMap

/-! ## The loop over the slots -/

/-- The variables of `do_dedup`: the slots, of which some are not initialised, the slots that its
two pointers point to, and the elements it has dropped. -/
@[ext] structure DedupState (E : Type) where
  slots : List (Option E)
  ptr1 : ℕ
  ptr2 : ℕ
  dropped : List E

/-- One pass of the loop.  There is no result where it reads a slot that is not initialised. -/
def dedupPass (s : DedupState E) : Option (DedupState E) :=
  let hole := s.ptr1 != s.ptr2
  let ptr2 := s.ptr2 + 1
  match s.slots[s.ptr1]?, s.slots[ptr2]? with
  | some (some a), some (some b) =>
    if key a ≠ key b then
      let ptr1 := s.ptr1 + 1
      -- the element at `ptr2` is moved, unless it stands where it belongs
      if hole then some ⟨(s.slots.set ptr1 (some b)).set ptr2 none, ptr1, ptr2, s.dropped⟩
      else some ⟨s.slots, ptr1, ptr2, s.dropped⟩
    else
      some ⟨(s.slots.set s.ptr1 (some b)).set ptr2 none, s.ptr1, ptr2, s.dropped ++ [a]⟩
  | _, _ => none

theorem ptr2_of_dedupPass {s s' : DedupState E} (h : dedupPass key s = some s') :
    s'.ptr2 = s.ptr2 + 1 := by
  unfold dedupPass at h
  dsimp only at h
  split at h
  · split at h
    · split at h
      · rw [← Option.some.inj h]
      · rw [← Option.some.inj h]
    · rw [← Option.some.inj h]
  · exact absurd h (by simp)

/-- The loop, up to the last slot. -/
def dedupWhile (last : ℕ) (s : DedupState E) : Option (DedupState E) :=
  if s.ptr2 < last then
    match _h : dedupPass key s with
    | some s' => dedupWhile last s'
    | none => none
  else some s
termination_by last - s.ptr2
decreasing_by
  have hptr := ptr2_of_dedupPass key _h
  omega

/-- `do_dedup`, as it works on the slots.  There is no result where a slot that is not initialised
is read, or made part of the vector that is returned. -/
def doDedupInPlace (vec : List E) : Option (List E) :=
  if vec.length < 2 then some vec
  else
    match dedupWhile key (vec.length - 1) ⟨vec.map some, 0, 0, []⟩ with
    | some s =>
      if (s.slots.take (1 + s.ptr1)).all Option.isSome then
        some ((s.slots.take (1 + s.ptr1)).filterMap id)
      else none
    | none => none

/-! ### One pass -/

variable {key}

/-- What a pass does when the kept element and the next one are where they should be, with other
slots in between. -/
theorem dedupPass_eq (pre mid post : List (Option E)) (a b : E) (dropped : List E) {ptr1 ptr2 : ℕ}
    (h1 : ptr1 = pre.length) (h2 : ptr2 = pre.length + mid.length) :
    dedupPass key ⟨pre ++ some a :: (mid ++ some b :: post), ptr1, ptr2, dropped⟩ =
      if key a = key b then
        some ⟨pre ++ some b :: (mid ++ none :: post), ptr1, ptr2 + 1, dropped ++ [a]⟩
      else if mid.length = 0 then
        some ⟨pre ++ some a :: (mid ++ some b :: post), ptr1 + 1, ptr2 + 1, dropped⟩
      else
        some ⟨pre ++ some a :: ((mid.set 0 (some b)) ++ none :: post), ptr1 + 1, ptr2 + 1,
          dropped⟩ := by
  have hat1 : (pre ++ some a :: (mid ++ some b :: post))[ptr1]? = some (some a) := by
    rw [h1, List.getElem?_append_right (Nat.le_refl _), Nat.sub_self, List.getElem?_cons_zero]
  have hat2 : (pre ++ some a :: (mid ++ some b :: post))[ptr2 + 1]? = some (some b) := by
    have hsub : pre.length + mid.length + 1 - pre.length = mid.length + 1 := by omega
    rw [h2, List.getElem?_append_right (by omega), hsub, List.getElem?_cons_succ,
      List.getElem?_append_right (Nat.le_refl _), Nat.sub_self, List.getElem?_cons_zero]
  -- writing behind the kept element, and then to the slot that is moved out of
  have hset : ∀ (x : Option E) (mid' : List (Option E)), mid'.length = mid.length →
      (pre ++ x :: (mid' ++ some b :: post)).set (ptr2 + 1) none =
        pre ++ x :: (mid' ++ none :: post) := by
    intro x mid' hlen
    have hsub : pre.length + mid.length + 1 - pre.length = mid.length + 1 := by omega
    rw [h2, List.set_append_right _ _ (by omega), hsub, List.set_cons_succ,
      List.set_append_right _ _ (by omega), hlen, Nat.sub_self, List.set_cons_zero]
  unfold dedupPass
  simp only [hat1, hat2]
  by_cases hk : key a = key b
  · have hset1 : (pre ++ some a :: (mid ++ some b :: post)).set ptr1 (some b) =
        pre ++ some b :: (mid ++ some b :: post) := by
      rw [h1, List.set_append_right _ _ (Nat.le_refl _), Nat.sub_self, List.set_cons_zero]
    rw [if_neg (not_not.mpr hk), if_pos hk, hset1, hset _ mid rfl]
  · rw [if_pos hk, if_neg hk]
    cases mid with
    | nil =>
      have hhole : (ptr1 != ptr2) = false := by simp [h1, h2]
      simp [hhole]
    | cons m mid =>
      have hhole : (ptr1 != ptr2) = true := by simp [h1, h2]
      have hset1 : (pre ++ some a :: (m :: mid ++ some b :: post)).set (ptr1 + 1) (some b) =
          pre ++ some a :: (some b :: mid ++ some b :: post) := by
        have hsub : pre.length + 1 - pre.length = 1 := by omega
        rw [h1, List.set_append_right _ _ (by omega), hsub, List.set_cons_succ, List.cons_append,
          List.set_cons_zero, List.cons_append]
      rw [if_pos hhole, hset1, hset _ (some b :: mid) rfl, if_neg (by simp), List.set_cons_zero]

/-! ### The whole loop -/

/-- The slots while the loop runs: what is kept, the slots that were moved out of, and what was not
looked at. -/
def dedupSlots (kept : List E) (holes : ℕ) (rest : List E) : List (Option E) :=
  kept.map some ++ (List.replicate holes none ++ rest.map some)

theorem dedupSlots_cons (kept : List E) (a b : E) (holes : ℕ) (rest : List E) :
    dedupSlots (kept ++ [a]) holes (b :: rest) =
      kept.map some ++ some a :: (List.replicate holes none ++ some b :: rest.map some) := by
  simp [dedupSlots]

/-- **A pass over an equal key** keeps the newer element; the older one leaves a hole. -/
theorem dedupPass_of_eq {a b : E} (hk : key a = key b) (kept : List E) (holes : ℕ) (rest : List E)
    (dropped : List E) :
    dedupPass key
        ⟨dedupSlots (kept ++ [a]) holes (b :: rest), kept.length, kept.length + holes, dropped⟩ =
      some ⟨dedupSlots (kept ++ [b]) (holes + 1) rest, kept.length, kept.length + (holes + 1),
        dropped ++ [a]⟩ := by
  rw [dedupSlots_cons, dedupPass_eq _ _ _ _ _ _ (by simp) (by simp), if_pos hk]
  simp [dedupSlots, List.replicate_succ', Nat.add_assoc]

/-- **A pass over another key** keeps both elements, and moves the newer one over the holes. -/
theorem dedupPass_of_ne {a b : E} (hk : key a ≠ key b) (kept : List E) (holes : ℕ) (rest : List E)
    (dropped : List E) :
    dedupPass key
        ⟨dedupSlots (kept ++ [a]) holes (b :: rest), kept.length, kept.length + holes, dropped⟩ =
      some ⟨dedupSlots (kept ++ [a] ++ [b]) holes rest, (kept ++ [a]).length,
        (kept ++ [a]).length + holes, dropped⟩ := by
  have hptr2 : kept.length + holes + 1 = (kept ++ [a]).length + holes := by
    rw [List.length_append, List.length_singleton]
    omega
  rw [dedupSlots_cons, dedupPass_eq _ _ _ _ _ _ (by simp) (by simp), if_neg hk, hptr2,
    List.length_append, List.length_singleton]
  cases holes with
  | zero => simp [dedupSlots]
  | succ holes =>
    rw [if_neg (by simp), List.replicate_succ, List.set_cons_zero]
    simp [dedupSlots, List.replicate_succ']

theorem dedupWhile_of_pass {last : ℕ} {s s' : DedupState E} (hlt : s.ptr2 < last)
    (hs : dedupPass key s = some s') : dedupWhile key last s = dedupWhile key last s' := by
  conv_lhs => rw [dedupWhile]
  rw [if_pos hlt]
  split
  · rename_i s₁ hs₁
    rw [Option.some.inj (hs.symm.trans hs₁)]
  · rename_i hnone
    rw [hs] at hnone
    exact absurd hnone (by simp)

/-- **The loop** reads no slot that is not initialised.  It leaves what `doDedup` returns in the
first slots and nothing in the others, and drops what it does not leave. -/
theorem dedupWhile_spec (kept : List E) (a : E) (rest : List E) (holes : ℕ) (dropped : List E) :
    ∃ s holes', dedupWhile key (kept.length + holes + rest.length)
        ⟨dedupSlots (kept ++ [a]) holes rest, kept.length, kept.length + holes, dropped⟩ = some s ∧
      s.slots = dedupSlots (kept ++ dedupLoop key a rest) holes' [] ∧
      1 + s.ptr1 = (kept ++ dedupLoop key a rest).length ∧
      (s.dropped ++ (kept ++ dedupLoop key a rest)).Perm (dropped ++ (kept ++ a :: rest)) := by
  induction rest generalizing kept a holes dropped with
  | nil =>
    rw [dedupWhile, if_neg (by simp)]
    refine ⟨_, holes, rfl, rfl, ?_, List.Perm.refl _⟩
    rw [dedupLoop, List.length_append, List.length_singleton, Nat.add_comm]
  | cons b rest ih =>
    have hlt : kept.length + holes < kept.length + holes + (b :: rest).length := by simp
    by_cases hk : key a = key b
    · have hlast : kept.length + holes + (b :: rest).length =
          kept.length + (holes + 1) + rest.length := by
        rw [List.length_cons]
        omega
      obtain ⟨s, holes', hrun, hs, hptr, hperm⟩ := ih kept b (holes + 1) (dropped ++ [a])
      rw [dedupWhile_of_pass hlt (dedupPass_of_eq hk kept holes rest dropped), hlast, dedupLoop,
        if_neg (not_not.mpr hk)]
      refine ⟨s, holes', hrun, hs, hptr, hperm.trans ?_⟩
      rw [List.append_assoc, List.singleton_append]
      exact (List.perm_middle.symm).append_left dropped
    · have hlast : kept.length + holes + (b :: rest).length =
          (kept ++ [a]).length + holes + rest.length := by
        rw [List.length_cons, List.length_append, List.length_singleton]
        omega
      obtain ⟨s, holes', hrun, hs, hptr, hperm⟩ := ih (kept ++ [a]) b holes dropped
      rw [dedupWhile_of_pass hlt (dedupPass_of_ne hk kept holes rest dropped), hlast, dedupLoop,
        if_pos hk]
      simp only [List.append_assoc, List.singleton_append] at hs hptr hperm hrun ⊢
      exact ⟨s, holes', hrun, hs, hptr, hperm⟩

/-- **The function of the source** is `doDedup`. -/
theorem doDedupInPlace_eq (vec : List E) : doDedupInPlace key vec = some (doDedup key vec) := by
  unfold doDedupInPlace
  match vec with
  | [] => rfl
  | [a] => rfl
  | a :: b :: rest =>
    rw [if_neg (by simp)]
    obtain ⟨s, holes', hrun, hs, hptr, -⟩ :=
      @dedupWhile_spec _ _ _ key [] a (b :: rest) 0 []
    have hrun' : dedupWhile key ((a :: b :: rest).length - 1)
        ⟨(a :: b :: rest).map some, 0, 0, []⟩ = some s := by
      simpa [dedupSlots] using hrun
    have htake : s.slots.take (1 + s.ptr1) = (dedupLoop key a (b :: rest)).map some := by
      rw [hs, hptr, List.nil_append, dedupSlots, List.take_append_of_le_length (by simp),
        List.take_of_length_le (by simp)]
    rw [hrun']
    simp only [htake]
    rw [if_pos (by simp)]
    simp [doDedup]

/-! ## What is kept -/

/-- What is kept is among what was there. -/
theorem mem_of_mem_dedupLoop {kept e : E} {rest : List E} (h : e ∈ dedupLoop key kept rest) :
    e ∈ kept :: rest := by
  induction rest generalizing kept with
  | nil => exact h
  | cons b rest ih =>
    rw [dedupLoop] at h
    split at h
    · rcases List.mem_cons.mp h with rfl | h
      · exact List.mem_cons_self
      · exact List.mem_cons_of_mem _ (ih h)
    · exact List.mem_cons_of_mem _ (ih h)

theorem strictSorted_dedupLoop {kept : E} {rest : List E}
    (h : (kept :: rest).Pairwise fun a b => key a ≤ key b) :
    StrictSorted key (dedupLoop key kept rest) := by
  induction rest generalizing kept with
  | nil => exact List.pairwise_singleton _ _
  | cons b rest ih =>
    obtain ⟨hle, htail⟩ := List.pairwise_cons.mp h
    rw [dedupLoop]
    split
    · rename_i hne
      refine List.pairwise_cons.mpr ⟨fun e he => ?_, ih htail⟩
      have hlt : key kept < key b := lt_of_le_of_ne (hle b List.mem_cons_self) hne
      rcases List.mem_cons.mp (mem_of_mem_dedupLoop he) with rfl | he
      · exact hlt
      · exact hlt.trans_le ((List.pairwise_cons.mp htail).1 e he)
    · exact ih htail

/-- Each key is left with the last element that has it. -/
theorem lookup_dedupLoop {kept : E} {rest : List E}
    (h : (kept :: rest).Pairwise fun a b => key a ≤ key b) (k : K) :
    lookup key (dedupLoop key kept rest) k = lookupLast key (kept :: rest) k := by
  induction rest generalizing kept with
  | nil => rw [dedupLoop, lookup_cons, lookupLast_cons]; rfl
  | cons b rest ih =>
    obtain ⟨hle, htail⟩ := List.pairwise_cons.mp h
    rw [dedupLoop, lookupLast_cons, ← ih htail]
    split
    · rename_i hne
      rw [lookup_cons]
      by_cases hk : key kept = k
      · -- the keys behind it are greater
        have hlt : key kept < key b := lt_of_le_of_ne (hle b List.mem_cons_self) hne
        have hnone : lookup key (dedupLoop key b rest) k = none := by
          refine lookup_eq_none_iff.mpr fun e he => ?_
          rw [← hk]
          rcases List.mem_cons.mp (mem_of_mem_dedupLoop he) with rfl | he
          · exact hlt.ne'
          · exact (hlt.trans_le ((List.pairwise_cons.mp htail).1 e he)).ne'
        rw [if_pos hk, if_pos hk, hnone, Option.none_or]
      · rw [if_neg hk, if_neg hk, Option.or_none]
    · rename_i heq
      have hkb : key kept = key b := not_not.mp heq
      by_cases hk : key kept = k
      · -- the next element has the key too
        have hsome : (lookup key (dedupLoop key b rest) k).isSome := by
          rw [ih htail, Option.isSome_iff_ne_none, Ne, lookupLast_eq_none_iff]
          exact fun hall => hall b List.mem_cons_self (hkb.symm.trans hk)
        rw [Option.or_of_isSome hsome]
      · rw [if_neg hk, Option.or_none]

/-- **What `from_vec` returns** is strictly increasing. -/
theorem strictSorted_fromVec (vec : List E) : StrictSorted key (fromVec key vec).vec := by
  have hsorted : Sorted key (sortByKey key vec) := sorted_sortByKey vec
  unfold fromVec
  cases hl : sortByKey key vec with
  | nil => exact strictSorted_nil
  | cons a rest =>
    rw [hl] at hsorted
    exact strictSorted_dedupLoop hsorted

/-- **Each key has the last element with it.** -/
theorem lookup_fromVec (vec : List E) (k : K) :
    lookup key (fromVec key vec).vec k = lookupLast key vec k := by
  have hsorted : Sorted key (sortByKey key vec) := sorted_sortByKey vec
  rw [← lookupLast_sortByKey]
  unfold fromVec
  cases hl : sortByKey key vec with
  | nil => rfl
  | cons a rest =>
    rw [hl] at hsorted
    exact lookup_dedupLoop hsorted k

theorem get_fromVec (vec : List E) (k : K) :
    (fromVec key vec).get key k = lookupLast key vec k := by
  rw [get_eq_lookup, lookup_fromVec]

/-- **Building a map.**  `from_vec` reads no slot that is not initialised.  The keys of what it
returns increase strictly, and its elements are those that are the last with their key.  Looking up
a key, in a borrowed form that is ordered as the keys are, finds the last element with the key, or
nothing if there is none. -/
theorem fromVec_spec {KB : Type} [LinearOrder KB] {borrow : K → KB} (hborrow : StrictMono borrow)
    (vec : List E) :
    doDedupInPlace key (sortByKey key vec) = some (fromVec key vec).vec ∧
      StrictSorted key (fromVec key vec).vec ∧
      (∀ e, e ∈ (fromVec key vec).vec ↔ lookupLast key vec (key e) = some e) ∧
      ∀ kb, (fromVec key vec).get (borrow ∘ key) kb = lookupLast (borrow ∘ key) vec kb := by
  have hstrict : StrictSorted key (fromVec key vec).vec := strictSorted_fromVec vec
  refine ⟨doDedupInPlace_eq _, hstrict, fun e => ?_, fun kb => ?_⟩
  · rw [← lookup_fromVec, lookup_eq_some_iff hstrict.nodup_keys, and_iff_left rfl]
  · rw [get_eq_lookup]
    by_cases hkb : ∃ k, borrow k = kb
    · obtain ⟨k, rfl⟩ := hkb
      have htest : ∀ e, ((borrow ∘ key) e = borrow k) = (key e = k) := fun e =>
        propext hborrow.injective.eq_iff
      have hlookup : lookup (borrow ∘ key) (fromVec key vec).vec (borrow k) =
          lookup key (fromVec key vec).vec k := by
        simp only [lookup, htest]
      rw [hlookup, lookup_fromVec]
      simp only [lookupLast, htest]
    · -- no element has such a key
      have hne : ∀ e, (borrow ∘ key) e ≠ kb := fun e he => hkb ⟨key e, he⟩
      rw [lookup_eq_none_iff.mpr fun e _ => hne e, lookupLast_eq_none_iff.mpr fun e _ => hne e]

/-- Pairs with runs of one key in front and at the end, whose keys are borrowed as they are. -/
theorem fromVec_spec_runs :
    StrictMono (id : ℕ → ℕ) ∧
      (fromVec Prod.fst [((2 : ℕ), (0 : ℕ)), (1, 0), (1, 1), (2, 1)]).get (id ∘ Prod.fst) 2 =
        some (2, 1) :=
  ⟨strictMono_id,
    (fromVec_spec strictMono_id [((2 : ℕ), (0 : ℕ)), (1, 0), (1, 1), (2, 1)]).2.2.2 2⟩

end FlatMap

end Vinezombie
