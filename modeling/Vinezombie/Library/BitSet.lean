import Mathlib.Data.BitVec
import Mathlib.Data.Finset.Card
import Mathlib.Order.Interval.Finset.Nat

/-!
# Sets of bits

A word of `w` bits as a set of the elements of a type, each of which has a number: `Encodes` says
that the bits of the word are the numbers of the elements of a set.  The operations of sets are
those of the bits (`Encodes.or`, `Encodes.and`, `Encodes.andNot`, `encodes_bit`), the number of bits
is the number of elements (`Encodes.countOnes_eq`), and the highest and the lowest bit are the
numbers of a greatest and of a least element (`Encodes.ilog2`, `Encodes.trailingZeros`).
-/

namespace Library.BitSet

variable {w : ℕ}

/-! ## Counting bits -/

/-- The number of bits that are set. -/
def countOnes (x : BitVec w) : ℕ := x.cpop.toNat

/-- The index of the highest bit that is set: what is left of the width without the leading
zeros. -/
def ilog2 (x : BitVec w) : ℕ := w - 1 - x.clz.toNat

/-- The index of the lowest bit that is set. -/
def trailingZeros (x : BitVec w) : ℕ := x.ctz.toNat

theorem lt_width_of_getLsbD {x : BitVec w} {i : ℕ} (h : x.getLsbD i = true) : i < w :=
  BitVec.lt_of_getLsbD h

theorem cpopNatRec_eq_card (x : BitVec w) (n : ℕ) :
    x.cpopNatRec n 0 = ((Finset.range n).filter fun i => x.getLsbD i = true).card := by
  induction n with
  | zero => rfl
  | succ n ih =>
    rw [BitVec.cpopNatRec_succ, BitVec.cpopNatRec_eq, ih, Finset.range_add_one,
      Finset.filter_insert]
    cases hn : x.getLsbD n with
    | false => simp
    | true => simp

theorem countOnes_eq_card (x : BitVec w) :
    countOnes x = ((Finset.range w).filter fun i => x.getLsbD i = true).card := by
  rw [countOnes, BitVec.toNat_cpop, cpopNatRec_eq_card]

theorem getLsbD_ilog2 {x : BitVec w} (h : x ≠ 0) : x.getLsbD (ilog2 x) = true := by
  refine BitVec.getLsbD_true_clz_of_ne_zero ?_ h
  rcases Nat.eq_zero_or_pos w with rfl | hw
  · exact absurd BitVec.of_length_zero h
  · exact hw

theorem le_ilog2 {x : BitVec w} {i : ℕ} (h : x.getLsbD i = true) : i ≤ ilog2 x := by
  have hle : 2 ^ i ≤ x.toNat := Nat.ge_two_pow_of_testBit h
  have hlt := hle.trans_lt (BitVec.toNat_lt_two_pow_sub_clz (x := x))
  have hi : i < w - x.clz.toNat := (Nat.pow_lt_pow_iff_right (by omega)).mp hlt
  rw [ilog2]
  omega

theorem getLsbD_trailingZeros {x : BitVec w} (h : x ≠ 0) :
    x.getLsbD (trailingZeros x) = true :=
  BitVec.getLsbD_true_ctz_of_ne_zero h

theorem trailingZeros_le {x : BitVec w} {i : ℕ} (h : x.getLsbD i = true) :
    trailingZeros x ≤ i := by
  by_contra hlt
  rw [BitVec.getLsbD_false_of_lt_ctz (not_le.mp hlt)] at h
  exact Bool.false_ne_true h

/-! ## Sets of numbered elements -/

section Encodes

variable {A : Type*} {number : A → ℕ}

/-- The bits are the numbers of the elements. -/
def Encodes (number : A → ℕ) (x : BitVec w) (S : Finset A) : Prop :=
  ∀ i, x.getLsbD i = true ↔ ∃ a ∈ S, number a = i

variable {x y : BitVec w} {S T : Finset A}

theorem encodes_zero : Encodes number (0 : BitVec w) ∅ := by
  intro i
  simp

/-- The word with the bit of one element. -/
theorem encodes_bit {a : A} (hw : number a < w) : Encodes number (1#w <<< number a) {a} := by
  intro i
  simp only [BitVec.getLsbD_shiftLeft, BitVec.getLsbD_one, Finset.mem_singleton, exists_eq_left,
    Bool.and_eq_true, Bool.not_eq_true', decide_eq_true_eq, decide_eq_false_iff_not]
  omega

/-- An element is in the set exactly if its bit is set. -/
theorem Encodes.getLsbD_iff (h : Encodes number x S) (hinj : number.Injective) (a : A) :
    x.getLsbD (number a) = true ↔ a ∈ S := by
  rw [h]
  constructor
  · rintro ⟨b, hb, hba⟩
    rwa [← hinj hba]
  · exact fun ha => ⟨a, ha, rfl⟩

/-- A set is determined by its bits, and the bits by the set. -/
theorem Encodes.eq_iff (h : Encodes number x S) (h' : Encodes number y T)
    (hinj : number.Injective) : x = y ↔ S = T := by
  constructor
  · rintro rfl
    ext a
    rw [← h.getLsbD_iff hinj, h'.getLsbD_iff hinj]
  · rintro rfl
    refine BitVec.eq_of_getLsbD_eq fun i _ => Bool.eq_iff_iff.mpr ?_
    rw [h, h']

theorem Encodes.eq_zero_iff (h : Encodes number x S) (hinj : number.Injective) :
    x = 0 ↔ S = ∅ :=
  h.eq_iff encodes_zero hinj

/-- **The number of bits** is the number of elements. -/
theorem Encodes.countOnes_eq (h : Encodes number x S) (hinj : number.Injective) :
    countOnes x = S.card := by
  have himage : ((Finset.range w).filter fun i => x.getLsbD i = true) = S.image number := by
    ext i
    rw [Finset.mem_filter, Finset.mem_range, Finset.mem_image]
    exact ⟨fun hi => (h i).mp hi.2, fun hi => ⟨lt_width_of_getLsbD ((h i).mpr hi), (h i).mpr hi⟩⟩
  rw [countOnes_eq_card, himage, Finset.card_image_of_injective S hinj]

/-- **The highest bit** is the number of the element with the greatest number. -/
theorem Encodes.ilog2 (h : Encodes number x S) (hx : x ≠ 0) :
    ∃ a ∈ S, number a = ilog2 x ∧ ∀ b ∈ S, number b ≤ number a := by
  obtain ⟨a, ha, hi⟩ := (h _).mp (getLsbD_ilog2 hx)
  refine ⟨a, ha, hi, fun b hb => ?_⟩
  rw [hi]
  exact le_ilog2 ((h _).mpr ⟨b, hb, rfl⟩)

/-- **The lowest bit** is the number of the element with the least number. -/
theorem Encodes.trailingZeros (h : Encodes number x S) (hx : x ≠ 0) :
    ∃ a ∈ S, number a = trailingZeros x ∧ ∀ b ∈ S, number a ≤ number b := by
  obtain ⟨a, ha, hi⟩ := (h _).mp (getLsbD_trailingZeros hx)
  refine ⟨a, ha, hi, fun b hb => ?_⟩
  rw [hi]
  exact trailingZeros_le ((h _).mpr ⟨b, hb, rfl⟩)

/-! ## The operations of sets -/

variable [DecidableEq A]

theorem Encodes.or (h : Encodes number x S) (h' : Encodes number y T) :
    Encodes number (x ||| y) (S ∪ T) := by
  intro i
  rw [BitVec.getLsbD_or, Bool.or_eq_true, h, h']
  simp only [Finset.mem_union]
  exact ⟨fun hh => hh.elim (fun ⟨a, ha, hi⟩ => ⟨a, .inl ha, hi⟩) fun ⟨a, ha, hi⟩ => ⟨a, .inr ha, hi⟩,
    fun ⟨a, ha, hi⟩ => ha.imp (fun ha => ⟨a, ha, hi⟩) fun ha => ⟨a, ha, hi⟩⟩

theorem Encodes.and (h : Encodes number x S) (h' : Encodes number y T)
    (hinj : number.Injective) : Encodes number (x &&& y) (S ∩ T) := by
  intro i
  rw [BitVec.getLsbD_and, Bool.and_eq_true, h, h']
  simp only [Finset.mem_inter]
  constructor
  · rintro ⟨⟨a, ha, hi⟩, b, hb, hbi⟩
    rw [hinj (hbi.trans hi.symm)] at hb
    exact ⟨a, ⟨ha, hb⟩, hi⟩
  · rintro ⟨a, ⟨ha, hb⟩, hi⟩
    exact ⟨⟨a, ha, hi⟩, a, hb, hi⟩

theorem Encodes.andNot (h : Encodes number x S) (h' : Encodes number y T)
    (hinj : number.Injective) : Encodes number (x &&& ~~~y) (S \ T) := by
  intro i
  rw [BitVec.getLsbD_and, BitVec.getLsbD_not, Bool.and_eq_true, h]
  simp only [Finset.mem_sdiff]
  constructor
  · rintro ⟨⟨a, ha, rfl⟩, hb⟩
    refine ⟨a, ⟨ha, fun haT => ?_⟩, rfl⟩
    rw [(h'.getLsbD_iff hinj a).mpr haT] at hb
    simp at hb
  · rintro ⟨a, ⟨ha, hb⟩, rfl⟩
    have hy : y.getLsbD (number a) = false :=
      Bool.eq_false_iff.mpr fun hy => hb ((h'.getLsbD_iff hinj a).mp hy)
    have hw : number a < w := lt_width_of_getLsbD ((h.getLsbD_iff hinj a).mpr ha)
    refine ⟨⟨a, ha, rfl⟩, ?_⟩
    rw [hy, decide_eq_true hw]
    rfl

end Encodes

end Library.BitSet
