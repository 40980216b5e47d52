import Vinezombie.Library.BitSet
import Vinezombie.Strings.Bytes

/-!
# Modes and sets of modes

`state/mode.rs`.  A mode is an ASCII letter.  The letters have indices, from 0 for `Z` and 1 for `z`
up to 50 for `A` and 51 for `a`, and are ordered from the greatest index down.  A set of modes is a
word of 64 bits that has the bits of the indices of its elements.

That no bit from 52 on is set is part of a `ModeSet`, so every bit that is set is the index of a
letter.  The operations are then those of a finite set, by the rules for `Library.BitSet.Encodes`.

* `Mode.index`, `Mode.newFromIndex`: the index and the letter with an index, and that they are
  inverse to each other.
* `ModeSet.members`: the set that a `ModeSet` stands for, with one lemma for each operation.
-/

namespace Vinezombie

open Library.BitSet

/-- `Mode`. -/
@[ext] structure Mode where
  letter : UInt8
  valid : isAsciiAlphabetic letter = true

namespace Mode

/-- `new`. -/
def new (letter : UInt8) : Option Mode :=
  if h : isAsciiAlphabetic letter = true then some ⟨letter, h⟩ else none

theorem new_letter (m : Mode) : new m.letter = some m := by
  rw [new, dif_pos m.valid]

theorem new_eq_some_iff {b : UInt8} {m : Mode} : new b = some m ↔ m.letter = b := by
  constructor
  · intro h
    unfold new at h
    split at h
    · rw [← Option.some.inj h]
    · exact absurd h (by simp)
  · rintro rfl
    exact m.new_letter

/-- `index` of a letter. -/
def indexOfLetter (raw : UInt8) : UInt8 :=
  let letterId : UInt8 := 26 - (raw &&& 31)
  let case : UInt8 := if byte 'a' ≤ raw then 1 else 0
  (letterId <<< 1) + case

/-- The place of the letter in the set. -/
def index (m : Mode) : UInt8 := indexOfLetter m.letter

/-- The letter that `new_from_index` computes. -/
def letterFromIndex (index : ℕ) : UInt8 :=
  let basis : UInt8 := byte 'A' + UInt8.ofNat ((index &&& 1) <<< 5)
  basis + ((25 : UInt8) - UInt8.ofNat (index >>> 1))

theorem isAsciiAlphabetic_letterFromIndex :
    ∀ index : Fin 52, isAsciiAlphabetic (letterFromIndex index) = true := by
  decide +kernel

/-- `new_from_index`.  It is not safe for an index from 52 on. -/
def newFromIndex (index : Fin 52) : Mode :=
  ⟨letterFromIndex index, isAsciiAlphabetic_letterFromIndex index⟩

/-- The index as the number of a bit. -/
def number (m : Mode) : ℕ := m.index.toNat

theorem number_newFromIndex : ∀ index : Fin 52, (newFromIndex index).number = index := by
  decide +kernel

theorem letterFromIndex_indexOfLetter : ∀ b : UInt8, isAsciiAlphabetic b = true →
    (indexOfLetter b).toNat < 52 ∧ letterFromIndex (indexOfLetter b).toNat = b :=
  forall_byte (by decide +kernel)

theorem number_lt (m : Mode) : m.number < 52 :=
  (letterFromIndex_indexOfLetter m.letter m.valid).1

theorem newFromIndex_number (m : Mode) : newFromIndex ⟨m.number, m.number_lt⟩ = m :=
  Mode.ext (letterFromIndex_indexOfLetter m.letter m.valid).2

theorem number_injective : number.Injective := by
  intro m n h
  rw [← m.newFromIndex_number, ← n.newFromIndex_number]
  exact congrArg newFromIndex (Fin.ext h)

/-- `Ord`: by the index, from the greatest one on. -/
instance : LinearOrder Mode :=
  LinearOrder.lift' (fun m => OrderDual.toDual m.number)
    fun _ _ h => number_injective (OrderDual.toDual.injective h)

/-- `mask`. -/
def mask (m : Mode) : BitVec 64 := 1#64 <<< m.number

theorem encodes_mask (m : Mode) : Encodes number m.mask {m} :=
  encodes_bit (m.number_lt.trans (by decide))

end Mode

/-! ## Sets -/

/-- `ModeSet`. -/
structure ModeSet where
  bits : BitVec 64
  small : ∀ i, bits.getLsbD i = true → i < 52
  deriving DecidableEq

namespace ModeSet

theorem small_zero : ∀ i, (0 : BitVec 64).getLsbD i = true → i < 52 := by
  intro i h
  simp at h

theorem small_mask (m : Mode) : ∀ i, m.mask.getLsbD i = true → i < 52 := by
  intro i h
  obtain ⟨n, -, rfl⟩ := (m.encodes_mask i).mp h
  exact n.number_lt

theorem small_or {x y : BitVec 64} (hx : ∀ i, x.getLsbD i = true → i < 52)
    (hy : ∀ i, y.getLsbD i = true → i < 52) : ∀ i, (x ||| y).getLsbD i = true → i < 52 := by
  intro i h
  rw [BitVec.getLsbD_or, Bool.or_eq_true] at h
  exact h.elim (hx i) (hy i)

theorem small_and {x y : BitVec 64} (hx : ∀ i, x.getLsbD i = true → i < 52) :
    ∀ i, (x &&& y).getLsbD i = true → i < 52 := by
  intro i h
  rw [BitVec.getLsbD_and, Bool.and_eq_true] at h
  exact hx i h.1

variable (s t : ModeSet) (mode : Mode)

/-- `new`, the empty set. -/
def new : ModeSet := ⟨0, small_zero⟩

/-- `with`. -/
def withMode : ModeSet := ⟨s.bits ||| mode.mask, small_or s.small (small_mask mode)⟩

/-- `set`, with whether there was a change. -/
def set : Bool × ModeSet :=
  let old := s.bits
  let new := s.withMode mode
  (old != new.bits, new)

/-- `unset`, with whether there was a change. -/
def unset : Bool × ModeSet :=
  let old := s.bits
  let new : ModeSet := ⟨s.bits &&& ~~~mode.mask, small_and s.small⟩
  (old != new.bits, new)

/-- `contains`. -/
def contains : Bool := (s.bits &&& mode.mask) != 0

/-- `is_empty`. -/
def isEmpty : Bool := s.bits == 0

/-- `len`. -/
def len : ℕ := countOnes s.bits

/-- `union`. -/
def union : ModeSet := ⟨s.bits ||| t.bits, small_or s.small t.small⟩

/-- `intersection`. -/
def intersection : ModeSet := ⟨s.bits &&& t.bits, small_and s.small⟩

/-- `difference`. -/
def difference : ModeSet := ⟨s.bits &&& ~~~t.bits, small_and s.small⟩

/-- `partial_cmp`. -/
def partialCmp : Option Ordering :=
  let intersect := s.intersection t
  match decide (intersect = s), decide (intersect = t) with
  | true, false => some .lt
  | false, true => some .gt
  | true, true => some .eq
  | false, false => none

/-- `from_iter`. -/
def fromIter (modes : List Mode) : ModeSet := modes.foldl (fun ms mode => (ms.set mode).2) new

/-! ## What a set stands for -/

/-- The modes whose bits are set. -/
def members : Finset Mode :=
  (Finset.univ.filter fun i : Fin 52 => s.bits.getLsbD i = true).image Mode.newFromIndex

theorem encodes_members : Encodes Mode.number s.bits s.members := by
  intro i
  constructor
  · intro h
    refine ⟨Mode.newFromIndex ⟨i, s.small i h⟩, ?_, Mode.number_newFromIndex _⟩
    exact Finset.mem_image_of_mem _ (Finset.mem_filter.mpr ⟨Finset.mem_univ _, h⟩)
  · rintro ⟨m, hm, rfl⟩
    obtain ⟨j, hj, rfl⟩ := Finset.mem_image.mp hm
    rw [Mode.number_newFromIndex]
    exact (Finset.mem_filter.mp hj).2

variable {s t mode}

/-- The bits of a set determine what it stands for. -/
theorem members_eq_of_encodes {S : Finset Mode} (h : Encodes Mode.number s.bits S) :
    s.members = S :=
  (s.encodes_members.eq_iff h Mode.number_injective).mp rfl

theorem members_injective : members.Injective := by
  intro s t h
  have hbits : s.bits = t.bits :=
    (s.encodes_members.eq_iff t.encodes_members Mode.number_injective).mpr h
  obtain ⟨bits, hs⟩ := s
  obtain ⟨bits', ht⟩ := t
  cases hbits
  rfl

@[simp] theorem members_new : new.members = ∅ :=
  members_eq_of_encodes encodes_zero

@[simp] theorem members_withMode : (s.withMode mode).members = insert mode s.members := by
  have hunion : (s.withMode mode).members = s.members ∪ {mode} :=
    members_eq_of_encodes (s.encodes_members.or mode.encodes_mask)
  rw [hunion, Finset.union_comm, Finset.insert_eq]

@[simp] theorem members_set : (s.set mode).2.members = insert mode s.members := members_withMode

@[simp] theorem members_unset : (s.unset mode).2.members = s.members.erase mode := by
  have hdifference : (s.unset mode).2.members = s.members \ {mode} :=
    members_eq_of_encodes (s.encodes_members.andNot mode.encodes_mask Mode.number_injective)
  rw [hdifference, Finset.sdiff_singleton_eq_erase]

@[simp] theorem members_union : (s.union t).members = s.members ∪ t.members :=
  members_eq_of_encodes (s.encodes_members.or t.encodes_members)

@[simp] theorem members_intersection : (s.intersection t).members = s.members ∩ t.members :=
  members_eq_of_encodes (s.encodes_members.and t.encodes_members Mode.number_injective)

@[simp] theorem members_difference : (s.difference t).members = s.members \ t.members :=
  members_eq_of_encodes (s.encodes_members.andNot t.encodes_members Mode.number_injective)

/-- Adding modes one by one. -/
theorem members_foldl_set (modes : List Mode) (s : ModeSet) :
    (modes.foldl (fun ms mode => (ms.set mode).2) s).members = s.members ∪ modes.toFinset := by
  induction modes generalizing s with
  | nil => simp
  | cons m modes ih =>
    rw [List.foldl_cons, ih, members_set, List.toFinset_cons, Finset.insert_union,
      Finset.union_insert]

@[simp] theorem members_fromIter (modes : List Mode) : (fromIter modes).members = modes.toFinset := by
  rw [fromIter, members_foldl_set, members_new, Finset.empty_union]

theorem contains_iff : s.contains mode = true ↔ mode ∈ s.members := by
  have hzero := (s.encodes_members.and mode.encodes_mask Mode.number_injective).eq_zero_iff
    Mode.number_injective
  rw [contains, bne_iff_ne, ne_eq, hzero, Finset.inter_singleton]
  split
  · rename_i h
    simp [h]
  · rename_i h
    simp [h]

theorem isEmpty_iff : s.isEmpty = true ↔ s.members = ∅ := by
  rw [isEmpty, beq_iff_eq, s.encodes_members.eq_zero_iff Mode.number_injective]

theorem len_eq : s.len = s.members.card :=
  s.encodes_members.countOnes_eq Mode.number_injective

/-- `set` tells whether the mode is new. -/
theorem set_fst_iff : (s.set mode).1 = true ↔ mode ∉ s.members := by
  have heq := s.encodes_members.eq_iff (s.withMode mode).encodes_members Mode.number_injective
  change (s.bits != (s.withMode mode).bits) = true ↔ _
  rw [bne_iff_ne, ne_eq, heq, members_withMode, eq_comm, Finset.insert_eq_self]

/-- `unset` tells whether the mode was there. -/
theorem unset_fst_iff : (s.unset mode).1 = true ↔ mode ∈ s.members := by
  have heq := s.encodes_members.eq_iff (s.unset mode).2.encodes_members Mode.number_injective
  change (s.bits != (s.unset mode).2.bits) = true ↔ _
  rw [bne_iff_ne, ne_eq, heq, members_unset, eq_comm, Finset.erase_eq_self, not_not]

theorem intersection_eq_left_iff : s.intersection t = s ↔ s.members ⊆ t.members := by
  rw [← members_injective.eq_iff, members_intersection, Finset.inter_eq_left]

theorem intersection_eq_right_iff : s.intersection t = t ↔ t.members ⊆ s.members := by
  rw [← members_injective.eq_iff, members_intersection, Finset.inter_eq_right]

/-- The comparison is inclusion. -/
theorem partialCmp_eq :
    s.partialCmp t =
      if s.members ⊆ t.members then
        if t.members ⊆ s.members then some .eq else some .lt
      else if t.members ⊆ s.members then some .gt else none := by
  unfold partialCmp
  simp only [intersection_eq_left_iff, intersection_eq_right_iff]
  by_cases h : s.members ⊆ t.members
  · by_cases h' : t.members ⊆ s.members
    · simp [h, h']
    · simp [h, h']
  · by_cases h' : t.members ⊆ s.members
    · simp [h, h']
    · simp [h, h']

end ModeSet

end Vinezombie
