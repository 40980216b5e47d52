import Vinezombie.State.ModeTypes

/-!
# The text of mode types

`Display` of `ModeTypes` writes the four sets with commas between them, each in the order of its
iterator.  `parse` reads any text; what follows the fourth comma is left over.
-/

namespace Vinezombie

open Library.Scan

namespace ModeTypes

/-- The letters of a set are not commas. -/
theorem ne_comma_of_mem_display {s : ModeSet} {b : UInt8} (h : b ∈ s.display) : b ≠ byte ',' := by
  obtain ⟨m, -, rfl⟩ := List.mem_map.mp h
  intro hcomma
  have hvalid := m.valid
  rw [hcomma] at hvalid
  exact absurd hvalid (by decide)

theorem beforeComma_display (s : ModeSet) {rest : List UInt8}
    (hrest : ∀ b ∈ rest.head?, b = byte ',') : beforeComma (s.display ++ rest) = s.display := by
  refine takeWhile_append_of_stop (fun b hb => ?_) fun b hb => ?_
  · exact bne_iff_ne.mpr (ne_comma_of_mem_display hb)
  · simp [hrest b hb]

theorem afterComma_display (s : ModeSet) (rest : List UInt8) :
    afterComma (s.display ++ byte ',' :: rest) = rest := by
  have hdrop : (s.display ++ byte ',' :: rest).dropWhile (· != byte ',') = byte ',' :: rest :=
    dropWhile_append_of_stop (fun b hb => bne_iff_ne.mpr (ne_comma_of_mem_display hb)) (by simp)
  rw [afterComma, hdrop]
  rfl

theorem afterComma_display_nil (s : ModeSet) : afterComma s.display = [] := by
  have hdrop : s.display.dropWhile (· != byte ',') = [] :=
    List.dropWhile_eq_nil_iff.mpr fun b hb => bne_iff_ne.mpr (ne_comma_of_mem_display hb)
  rw [afterComma, hdrop]
  rfl

/-- **The letters of the text of a set** are the set. -/
theorem letters_display (s : ModeSet) : letters s.display = s := by
  refine ModeSet.members_injective ?_
  have hnew : ∀ modes : List Mode, (modes.map Mode.letter).filterMap Mode.new = modes := by
    intro modes
    rw [List.filterMap_map]
    simp [Mode.new_letter]
  rw [letters, ModeSet.members_fromIter, ModeSet.display_eq, hnew, Finset.sort_toFinset]

/-- The fields of the text are the texts of the sets, and nothing is left over. -/
theorem letters_field_display (mt : ModeTypes) :
    letters (field 0 mt.display) = mt.sets 0 ∧ letters (field 1 mt.display) = mt.sets 1 ∧
      letters (field 2 mt.display) = mt.sets 2 ∧ letters (field 3 mt.display) = mt.sets 3 ∧
      afterComma^[4] mt.display = [] := by
  have h1 : afterComma^[1] mt.display = _ := afterComma_display _ _
  have h2 : afterComma^[2] mt.display = _ :=
    (Function.iterate_succ_apply' afterComma 1 _).trans
      ((congrArg afterComma h1).trans (afterComma_display _ _))
  have h3 : afterComma^[3] mt.display = _ :=
    (Function.iterate_succ_apply' afterComma 2 _).trans
      ((congrArg afterComma h2).trans (afterComma_display _ _))
  have h4 : afterComma^[4] mt.display = _ :=
    (Function.iterate_succ_apply' afterComma 3 _).trans
      ((congrArg afterComma h3).trans (afterComma_display_nil _))
  have hlast : beforeComma ((mt.sets 3).display ++ []) = (mt.sets 3).display :=
    beforeComma_display (mt.sets 3) (by simp)
  rw [List.append_nil] at hlast
  refine ⟨?_, ?_, ?_, ?_, h4⟩
  · rw [field, Function.iterate_zero, id, display, beforeComma_display _ (by simp), letters_display]
  · rw [field, h1, beforeComma_display _ (by simp), letters_display]
  · rw [field, h2, beforeComma_display _ (by simp), letters_display]
  · rw [field, h3, hlast, letters_display]

/-- Nothing is taken out of sets that are disjoint. -/
theorem Coherent.fromSets_eq {mt : ModeTypes} (h : mt.Coherent) :
    fromSets (mt.sets 0) (mt.sets 1) (mt.sets 2) (mt.sets 3) = (mt, .new) := by
  have hsets : ∀ i, ![mt.sets 0, mt.sets 1, mt.sets 2, mt.sets 3] i = mt.sets i := by
    intro i
    fin_cases i <;> rfl
  have hempty : (fromSets (mt.sets 0) (mt.sets 1) (mt.sets 2) (mt.sets 3)).2 = .new := by
    refine ModeSet.members_injective (Finset.eq_empty_of_forall_notMem fun mode hmode => ?_)
    rcases mem_overlap_iff.mp hmode with ⟨ha, hb⟩ | ⟨hb, hc | hd⟩ | ⟨hc, hd⟩
    · exact absurd (h.eq_of_mem ha hb) (by decide)
    · exact absurd (h.eq_of_mem hb hc) (by decide)
    · exact absurd (h.eq_of_mem hb hd) (by decide)
    · exact absurd (h.eq_of_mem hc hd) (by decide)
  refine Prod.ext (ModeTypes.ext (funext fun i => ModeSet.members_injective ?_)) hempty
  rw [members_fromSets, hempty, ModeSet.members_new, Finset.sdiff_empty, hsets]

/-- **Parsing mode types.**  From the text of sets that are disjoint they are read back, and nothing
is left over.  From any text the letters of the first four fields are read, and what follows the
fourth comma is left over. -/
theorem parse_spec :
    (∀ mt : ModeTypes, mt.Coherent → parse mt.display = (mt, .new, [])) ∧
      ∀ bytes, parse bytes =
        let r := fromSets (letters (field 0 bytes)) (letters (field 1 bytes))
          (letters (field 2 bytes)) (letters (field 3 bytes))
        (r.1, r.2, afterComma^[4] bytes) := by
  refine ⟨fun mt h => ?_, parse_eq⟩
  obtain ⟨h0, h1, h2, h3, hrest⟩ := mt.letters_field_display
  rw [parse_eq, h0, h1, h2, h3, hrest, h.fromSets_eq]

end ModeTypes

end Vinezombie
