import Vinezombie.Library.KeyedList

/-!
# Ordered maps

A finite map over a linear order, kept as the list of its entries with strictly increasing keys.
The order of the keys is part of the structure, so a map is determined by its entries and is
traversed in ascending order.

* `insert`, `insertAll`: insertion; it replaces the value of a key that is there.
* `get_insert`, `get_insertAll`: what is looked up afterwards.
* `pairwise_keys`, `nodup_keys`: the keys in the order of traversal.
-/

namespace Library

open KeyedList

/-- A finite map, as its entries in ascending order of their keys. -/
@[ext] structure OrderedMap (K V : Type*) [LinearOrder K] where
  entries : List (K × V)
  strictSorted : StrictSorted Prod.fst entries
  deriving DecidableEq

namespace OrderedMap

variable {K V : Type*} [LinearOrder K]

/-- The map without entries. -/
def empty : OrderedMap K V := ⟨[], strictSorted_nil⟩

/-- Insertion into a list of entries. -/
def insertEntry (k : K) (v : V) : List (K × V) → List (K × V)
  | [] => [(k, v)]
  | e :: rest =>
    if k < e.1 then (k, v) :: e :: rest
    else if k = e.1 then (e.1, v) :: rest
    else e :: insertEntry k v rest

/-- The keys after an insertion. -/
theorem key_of_mem_insertEntry {k : K} {v : V} {l : List (K × V)} {e : K × V}
    (he : e ∈ insertEntry k v l) : e.1 = k ∨ ∃ e' ∈ l, e'.1 = e.1 := by
  induction l with
  | nil =>
    rw [insertEntry, List.mem_singleton] at he
    rw [he]
    exact .inl rfl
  | cons a l ih =>
    rw [insertEntry] at he
    split at he
    · rcases List.mem_cons.mp he with rfl | he
      · exact .inl rfl
      · exact .inr ⟨e, he, rfl⟩
    · split at he
      · rcases List.mem_cons.mp he with rfl | he
        · exact .inr ⟨a, List.mem_cons_self, rfl⟩
        · exact .inr ⟨e, List.mem_cons_of_mem _ he, rfl⟩
      · rcases List.mem_cons.mp he with rfl | he
        · exact .inr ⟨e, List.mem_cons_self, rfl⟩
        · rcases ih he with hk | ⟨e', he', hk⟩
          · exact .inl hk
          · exact .inr ⟨e', List.mem_cons_of_mem _ he', hk⟩

theorem strictSorted_insertEntry {k : K} {v : V} {l : List (K × V)}
    (h : StrictSorted Prod.fst l) : StrictSorted Prod.fst (insertEntry k v l) := by
  induction l with
  | nil => exact List.pairwise_singleton _ _
  | cons a l ih =>
    obtain ⟨ha, hl⟩ := List.pairwise_cons.mp h
    rw [insertEntry]
    split
    · rename_i hlt
      refine List.pairwise_cons.mpr ⟨fun e he => ?_, h⟩
      rcases List.mem_cons.mp he with rfl | he
      · exact hlt
      · exact lt_trans hlt (ha e he)
    · rename_i hnlt
      split
      · exact List.pairwise_cons.mpr ⟨ha, hl⟩
      · rename_i hne
        refine List.pairwise_cons.mpr ⟨fun e he => ?_, ih hl⟩
        rcases key_of_mem_insertEntry he with hk | ⟨e', he', hk⟩
        · rw [hk]
          exact lt_of_le_of_ne (not_lt.mp hnlt) (Ne.symm hne)
        · rw [← hk]
          exact ha e' he'

/-- The map with this value at a key. -/
def insert (m : OrderedMap K V) (k : K) (v : V) : OrderedMap K V :=
  ⟨insertEntry k v m.entries, strictSorted_insertEntry m.strictSorted⟩

/-- The keys, in order. -/
def keys (m : OrderedMap K V) : List K := m.entries.map Prod.fst

theorem pairwise_keys (m : OrderedMap K V) : m.keys.Pairwise (· < ·) :=
  List.pairwise_map.mpr m.strictSorted

theorem nodup_keys (m : OrderedMap K V) : m.keys.Nodup :=
  m.strictSorted.nodup_keys

/-! ## Lookup -/

/-- The value of a key. -/
def get (m : OrderedMap K V) (k : K) : Option V := (lookup Prod.fst m.entries k).map Prod.snd

theorem get_isSome_iff {m : OrderedMap K V} {k : K} : (m.get k).isSome = true ↔ k ∈ m.keys := by
  rw [get, Option.isSome_map, ← Option.ne_none_iff_isSome, Ne, lookup_eq_none_iff, keys]
  simp

theorem lookup_insertEntry (k : K) (v : V) (l : List (K × V)) (k' : K) :
    lookup Prod.fst (insertEntry k v l) k' =
      if k = k' then some (k, v) else lookup Prod.fst l k' := by
  induction l with
  | nil => simp [insertEntry, lookup]
  | cons e l ih =>
    rw [insertEntry]
    split
    · rw [lookup_cons]
    · split
      · rename_i heq
        rw [lookup_cons, lookup_cons, heq]
        split
        · rfl
        · rfl
      · rename_i hne
        rw [lookup_cons, lookup_cons, ih]
        split
        · rename_i hek
          rw [if_neg fun hk => hne (hk.trans hek.symm)]
        · rfl

/-- **What is looked up after an insertion.** -/
theorem get_insert (m : OrderedMap K V) (k : K) (v : V) (k' : K) :
    (m.insert k v).get k' = if k = k' then some v else m.get k' := by
  rw [get, insert, lookup_insertEntry, get]
  split
  · rfl
  · rfl

/-- The entries of one map inserted into another. -/
def insertAll (m newer : OrderedMap K V) : OrderedMap K V :=
  newer.entries.foldl (fun m e => m.insert e.1 e.2) m

theorem get_foldl_insert (l : List (K × V)) (hl : (l.map Prod.fst).Nodup) (m : OrderedMap K V)
    (k : K) : (l.foldl (fun m e => m.insert e.1 e.2) m).get k =
      ((lookup Prod.fst l k).map Prod.snd).or (m.get k) := by
  induction l generalizing m with
  | nil => rfl
  | cons e l ih =>
    obtain ⟨he, hl'⟩ := List.nodup_cons.mp hl
    rw [List.foldl_cons, ih hl', get_insert, lookup_cons]
    split
    · rename_i hek
      -- no other entry has the key
      have hnone : lookup Prod.fst l k = none :=
        lookup_eq_none_iff.mpr fun a ha hak => he (List.mem_map.mpr ⟨a, ha, hak.trans hek.symm⟩)
      rw [hnone]
      rfl
    · rfl

/-- **What is looked up after insertions**: the newer value, if there is one. -/
theorem get_insertAll (m newer : OrderedMap K V) (k : K) :
    (m.insertAll newer).get k = (newer.get k).or (m.get k) :=
  get_foldl_insert newer.entries newer.nodup_keys m k

end OrderedMap

end Library
