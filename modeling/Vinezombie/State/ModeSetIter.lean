import Vinezombie.Library.DoubleEnded
import Vinezombie.State.Mode

/-!
# Iterating over sets of modes

`ModeSetIter` of `state/mode.rs` holds the bits of the modes that it has not yielded yet.  Its front
is the highest bit, its back the lowest one.

* `ModeSetIter.serves`: the iterator yields the members of the set in increasing order.
* `ModeSet.Built.spec`: what a set built by any calls of the API answers, as a finite set of modes.
* `ModeSet.display_eq`: the text of a set.
-/

namespace Vinezombie

open Library.BitSet Library.DoubleEnded

/-- `ModeSetIter`. -/
structure ModeSetIter where
  bits : BitVec 64
  small : ∀ i, bits.getLsbD i = true → i < 52

/-- `into_iter`. -/
def ModeSet.intoIter (s : ModeSet) : ModeSetIter := ⟨s.bits, s.small⟩

namespace ModeSetIter

variable (it : ModeSetIter)

/-- The modes that are left. -/
def left : ModeSet := ⟨it.bits, it.small⟩

/-- What `next` and `next_back` do with the bit they found. -/
def takeBit (index : Fin 52) : Option Mode × ModeSetIter :=
  let mode := Mode.newFromIndex index
  (some mode, ⟨it.bits &&& ~~~mode.mask, ModeSet.small_and it.small⟩)

/-- `next`. -/
def next : Option Mode × ModeSetIter :=
  if h : it.bits = 0 then (none, it)
  else it.takeBit ⟨ilog2 it.bits, it.small _ (getLsbD_ilog2 h)⟩

/-- `next_back`. -/
def nextBack : Option Mode × ModeSetIter :=
  if h : it.bits = 0 then (none, it)
  else it.takeBit ⟨trailingZeros it.bits, it.small _ (getLsbD_trailingZeros h)⟩

/-- `size_hint`. -/
def sizeHint : ℕ × Option ℕ :=
  let retval := countOnes it.bits
  (retval, some retval)

/-- The iterator with its two ends. -/
def iter : Iter ModeSetIter Mode := ⟨next, nextBack, sizeHint⟩

variable {it}

theorem bits_eq_zero_iff : it.bits = 0 ↔ it.left.members = ∅ :=
  it.left.encodes_members.eq_zero_iff Mode.number_injective

/-- What is taken when the bit is that of a mode which is left. -/
theorem takeBit_number {m : Mode} {index : Fin 52} (h : m.number = index) :
    (it.takeBit index).1 = some m ∧ (it.takeBit index).2.left.members = it.left.members.erase m := by
  have hm : Mode.newFromIndex index = m := by
    rw [← m.newFromIndex_number]
    exact congrArg Mode.newFromIndex (Fin.ext h.symm)
  constructor
  · exact congrArg some hm
  · rw [← hm]
    exact ModeSet.members_unset (s := it.left)

/-- **The front** is the least of the modes that are left. -/
theorem next_spec (h : it.left.members ≠ ∅) :
    ∃ m ∈ it.left.members, it.next.1 = some m ∧ (∀ n ∈ it.left.members, m ≤ n) ∧
      it.next.2.left.members = it.left.members.erase m := by
  have hbits : it.bits ≠ 0 := mt bits_eq_zero_iff.mp h
  obtain ⟨m, hm, hnumber, hgreatest⟩ := it.left.encodes_members.ilog2 hbits
  have htake := @takeBit_number it m ⟨ilog2 it.bits, it.small _ (getLsbD_ilog2 hbits)⟩ hnumber
  rw [next, dif_neg hbits]
  exact ⟨m, hm, htake.1, hgreatest, htake.2⟩

/-- **The back** is the greatest of the modes that are left. -/
theorem nextBack_spec (h : it.left.members ≠ ∅) :
    ∃ m ∈ it.left.members, it.nextBack.1 = some m ∧ (∀ n ∈ it.left.members, n ≤ m) ∧
      it.nextBack.2.left.members = it.left.members.erase m := by
  have hbits : it.bits ≠ 0 := mt bits_eq_zero_iff.mp h
  obtain ⟨m, hm, hnumber, hleast⟩ := it.left.encodes_members.trailingZeros hbits
  have htake := @takeBit_number it m
    ⟨trailingZeros it.bits, it.small _ (getLsbD_trailingZeros hbits)⟩ hnumber
  rw [nextBack, dif_neg hbits]
  exact ⟨m, hm, htake.1, hleast, htake.2⟩

theorem next_of_members_eq_empty (h : it.left.members = ∅) : it.next = (none, it) := by
  rw [next, dif_pos (bits_eq_zero_iff.mpr h)]

theorem nextBack_of_members_eq_empty (h : it.left.members = ∅) : it.nextBack = (none, it) := by
  rw [nextBack, dif_pos (bits_eq_zero_iff.mpr h)]

theorem sizeHint_eq : it.sizeHint = (it.left.members.card, some it.left.members.card) := by
  have hcount : countOnes it.bits = it.left.members.card :=
    it.left.encodes_members.countOnes_eq Mode.number_injective
  rw [sizeHint, hcount]

/-- **The iterator yields what is left in increasing order**, at both of its ends. -/
theorem serves : Serves iter fun it l => it.left.members.sort = l where
  next := by
    rintro it l rfl
    by_cases h : it.left.members = ∅
    · have hnext : iter.next it = (none, it) := next_of_members_eq_empty h
      rw [hnext, h, Finset.sort_empty]
      exact ⟨rfl, rfl⟩
    · obtain ⟨m, hm, hnext, hleast, hleft⟩ := it.next_spec h
      rw [sort_eq_min_cons hm hleast]
      refine ⟨hnext, ?_⟩
      change it.next.2.left.members.sort = (it.left.members.erase m).sort
      rw [hleft]
  nextBack := by
    rintro it l rfl
    by_cases h : it.left.members = ∅
    · have hnext : iter.nextBack it = (none, it) := nextBack_of_members_eq_empty h
      rw [hnext, h, Finset.sort_empty]
      exact ⟨rfl, rfl⟩
    · obtain ⟨m, hm, hnext, hgreatest, hleft⟩ := it.nextBack_spec h
      rw [sort_eq_concat_max hm hgreatest, List.getLast?_concat, List.dropLast_concat]
      refine ⟨hnext, ?_⟩
      change it.nextBack.2.left.members.sort = (it.left.members.erase m).sort
      rw [hleft]
  sizeHint := by
    rintro it l rfl
    rw [Finset.length_sort]
    exact sizeHint_eq

/-! ## Loops over a set -/

theorem card_next_lt {m : Mode} {rest : ModeSetIter} (h : it.next = (some m, rest)) :
    rest.left.members.card < it.left.members.card := by
  by_cases hempty : it.left.members = ∅
  · rw [next_of_members_eq_empty hempty] at h
    exact absurd h (by simp)
  · obtain ⟨n, hn, -, -, hleft⟩ := it.next_spec hempty
    rw [h] at hleft
    rw [hleft]
    exact Finset.card_erase_lt_of_mem hn

/-- What a `for` loop over the iterator goes through. -/
def collect (it : ModeSetIter) : List Mode :=
  match _h : it.next with
  | (none, _) => []
  | (some mode, rest) => mode :: rest.collect
termination_by it.left.members.card
decreasing_by exact card_next_lt _h

theorem collect_eq_sort (it : ModeSetIter) : it.collect = it.left.members.sort := by
  induction it using collect.induct with
  | case1 it _ h =>
    have hempty : it.left.members = ∅ := by
      by_contra hne
      obtain ⟨m, -, hnext, -⟩ := it.next_spec hne
      rw [h] at hnext
      exact absurd hnext (by simp)
    rw [collect, hempty, Finset.sort_empty]
    split
    · rfl
    · rename_i h'
      rw [h] at h'
      exact absurd h' (by simp)
  | case2 it mode rest h ih =>
    have hne : it.left.members ≠ ∅ := fun hempty => by
      rw [next_of_members_eq_empty hempty] at h
      exact absurd h (by simp)
    obtain ⟨m, hm, hnext, hleast, hleft⟩ := it.next_spec hne
    rw [h] at hnext hleft
    obtain rfl : mode = m := Option.some.inj hnext
    rw [sort_eq_min_cons hm hleast, ← hleft, ← ih, collect]
    split
    · rename_i h'
      rw [h] at h'
      exact absurd h' (by simp)
    · rename_i h'
      rw [h] at h'
      obtain ⟨hmode, hrest⟩ := Prod.mk.inj h'
      rw [← Option.some.inj hmode, ← hrest]

end ModeSetIter

namespace ModeSet

/-- `Display`. -/
def display (s : ModeSet) : List UInt8 := s.intoIter.collect.map Mode.letter

theorem display_eq (s : ModeSet) : s.display = s.members.sort.map Mode.letter :=
  congrArg (List.map Mode.letter) s.intoIter.collect_eq_sort

/-! ## Any sequence of calls -/

/-- The sets that are built by calls of the API, each with the finite set that these calls are
meant to build. -/
inductive Built : ModeSet → Finset Mode → Prop
  | new : Built new ∅
  | fromIter (modes : List Mode) : Built (fromIter modes) modes.toFinset
  | withMode {s S} (mode : Mode) : Built s S → Built (s.withMode mode) (insert mode S)
  | set {s S} (mode : Mode) : Built s S → Built (s.set mode).2 (insert mode S)
  | unset {s S} (mode : Mode) : Built s S → Built (s.unset mode).2 (S.erase mode)
  | union {s S t T} : Built s S → Built t T → Built (s.union t) (S ∪ T)
  | intersection {s S t T} : Built s S → Built t T → Built (s.intersection t) (S ∩ T)
  | difference {s S t T} : Built s S → Built t T → Built (s.difference t) (S \ T)

theorem Built.members_eq {s : ModeSet} {S : Finset Mode} (h : Built s S) : s.members = S := by
  induction h with
  | new => exact members_new
  | fromIter modes => exact members_fromIter modes
  | withMode mode _ ih => rw [members_withMode, ih]
  | set mode _ ih => rw [members_set, ih]
  | unset mode _ ih => rw [members_unset, ih]
  | union _ _ ihs iht => rw [members_union, ihs, iht]
  | intersection _ _ ihs iht => rw [members_intersection, ihs, iht]
  | difference _ _ ihs iht => rw [members_difference, ihs, iht]

/-- What a finite set of modes answers in place of a `ModeSet`. -/
structure Answers (s : ModeSet) (S : Finset Mode) : Prop where
  contains : ∀ mode, s.contains mode = true ↔ mode ∈ S
  set : ∀ mode, (s.set mode).1 = true ↔ mode ∉ S
  unset : ∀ mode, (s.unset mode).1 = true ↔ mode ∈ S
  len : s.len = S.card
  isEmpty : s.isEmpty = true ↔ S = ∅
  /-- Any mixture of calls of the iterator: what comes out at the front is a first part of the
  elements in increasing order, what comes out at the back is a last part in decreasing order, and
  the size hint is the number of those between, one less for each call until there are none. -/
  iter : ∀ ends, ∃ rest,
    S.sort = (run ModeSetIter.iter s.intoIter ends).front ++ rest ++
      (run ModeSetIter.iter s.intoIter ends).back.reverse ∧
    rest.length = S.card - ends.length ∧
    (run ModeSetIter.iter s.intoIter ends).left.sizeHint = (rest.length, some rest.length)
  /-- Every bit that is set is the index of a letter. -/
  bits : ∀ i, s.bits.getLsbD i = true →
    i ≤ 51 ∧ isAsciiAlphabetic (Mode.letterFromIndex i) = true

theorem answers_members (s : ModeSet) : s.Answers s.members where
  contains _ := contains_iff
  set _ := set_fst_iff
  unset _ := unset_fst_iff
  len := len_eq
  isEmpty := isEmpty_iff
  iter ends := by
    obtain ⟨rest, hrest, heq, hlen⟩ := ModeSetIter.serves.run_spec (i := s.intoIter) ends rfl
    rw [Finset.length_sort] at hlen
    exact ⟨rest, heq, hlen, ModeSetIter.serves.sizeHint _ _ hrest⟩
  bits i hi := ⟨Nat.le_of_lt_succ (s.small i hi),
    Mode.isAsciiAlphabetic_letterFromIndex ⟨i, s.small i hi⟩⟩

/-- **Sets of modes are finite sets of letters**, whatever calls they were built by, and their
partial order is inclusion. -/
theorem Built.spec {s t : ModeSet} {S T : Finset Mode} (hs : Built s S) (ht : Built t T) :
    s.Answers S ∧ s.partialCmp t =
      if S ⊆ T then if T ⊆ S then some .eq else some .lt
      else if T ⊆ S then some .gt else none := by
  rw [← hs.members_eq, ← ht.members_eq]
  exact ⟨s.answers_members, partialCmp_eq⟩

/-- The modes `o` and `v`, and `o` alone. -/
theorem spec_statusModes :
    (fromIter [⟨byte 'o', rfl⟩, ⟨byte 'v', rfl⟩]).Answers
        [⟨byte 'o', rfl⟩, ⟨byte 'v', rfl⟩].toFinset ∧
      (fromIter [⟨byte 'o', rfl⟩, ⟨byte 'v', rfl⟩]).partialCmp (new.withMode ⟨byte 'o', rfl⟩) =
        some .gt := by
  obtain ⟨hanswers, hcmp⟩ := Built.spec (Built.fromIter [⟨byte 'o', rfl⟩, ⟨byte 'v', rfl⟩])
    (Built.withMode ⟨byte 'o', rfl⟩ Built.new)
  exact ⟨hanswers, hcmp.trans (by decide)⟩

end ModeSet

end Vinezombie
