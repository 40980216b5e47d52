import Mathlib.Data.Finset.Sort

/-!
# Iterators with two ends

An iterator that yields elements at its front and at its back, and says how many are left.
`Serves` says of a relation between the states of an iterator and lists that the iterator yields the
elements of the list, each from its own end.  Then any mixture of calls yields a first part of the
list in order and a last part in reverse order, and leaves what is between them
(`Serves.run_spec`).

The elements of a set in increasing order are served by taking least and greatest elements
(`sort_eq_min_cons`, `sort_eq_concat_max`).
-/

namespace Library.DoubleEnded

variable {I A : Type*}

/-- The calls of an iterator with two ends. -/
structure Iter (I A : Type*) where
  next : I → Option A × I
  nextBack : I → Option A × I
  sizeHint : I → ℕ × Option ℕ

/-- The end at which an element is asked for. -/
inductive End where
  | front
  | back

/-- What a run of calls yields at the two ends, each in the order of the calls, and the iterator
after it. -/
structure Run (I A : Type*) where
  front : List A
  back : List A
  left : I

variable (it : Iter I A)

/-- A run of calls. -/
def run : I → List End → Run I A
  | i, [] => ⟨[], [], i⟩
  | i, .front :: ends =>
    let r := run (it.next i).2 ends
    { r with front := (it.next i).1.toList ++ r.front }
  | i, .back :: ends =>
    let r := run (it.nextBack i).2 ends
    { r with back := (it.nextBack i).1.toList ++ r.back }

/-- The iterator yields the elements of the list that its state is related to. -/
structure Serves (R : I → List A → Prop) : Prop where
  next : ∀ i l, R i l → (it.next i).1 = l.head? ∧ R (it.next i).2 l.tail
  nextBack : ∀ i l, R i l → (it.nextBack i).1 = l.getLast? ∧ R (it.nextBack i).2 l.dropLast
  sizeHint : ∀ i l, R i l → it.sizeHint i = (l.length, some l.length)

variable {it} {R : I → List A → Prop}

/-- **Any mixture of calls.**  What was yielded at the front, what is left, and what was yielded at
the back in reverse are the list, and each call took one element as long as there was one. -/
theorem Serves.run_spec (h : Serves it R) (ends : List End) {i : I} {l : List A} (hR : R i l) :
    ∃ rest, R (run it i ends).left rest ∧
      l = (run it i ends).front ++ rest ++ (run it i ends).back.reverse ∧
        rest.length = l.length - ends.length := by
  induction ends generalizing i l with
  | nil => exact ⟨l, hR, by simp [run], rfl⟩
  | cons e ends ih =>
    cases e with
    | front =>
      obtain ⟨hhead, hnext⟩ := h.next i l hR
      obtain ⟨rest, hrest, htail, hlen⟩ := ih hnext
      refine ⟨rest, hrest, ?_, ?_⟩
      · change l = (it.next i).1.toList ++ (run it (it.next i).2 ends).front ++ rest ++ _
        rw [hhead]
        cases l with
        | nil => exact htail
        | cons a l => exact congrArg (a :: ·) htail
      · rw [hlen, List.length_tail, List.length_cons]
        omega
    | back =>
      obtain ⟨hlast, hnext⟩ := h.nextBack i l hR
      obtain ⟨rest, hrest, hinit, hlen⟩ := ih hnext
      refine ⟨rest, hrest, ?_, ?_⟩
      · change l = (run it (it.nextBack i).2 ends).front ++ rest ++
          ((it.nextBack i).1.toList ++ (run it (it.nextBack i).2 ends).back).reverse
        rw [hlast]
        rcases List.eq_nil_or_concat l with rfl | ⟨l, a, rfl⟩
        · exact hinit
        · rw [List.concat_eq_append, List.dropLast_concat] at hinit
          rw [List.concat_eq_append, List.getLast?_concat, Option.toList_some, List.reverse_append,
            List.reverse_singleton, ← List.append_assoc, ← hinit]
      · rw [hlen, List.length_dropLast, List.length_cons]
        omega

/-! ## Sets in increasing order -/

section Sorted

variable [LinearOrder A] {S : Finset A} {a : A}

/-- The least element of a set comes first. -/
theorem sort_eq_min_cons (ha : a ∈ S) (hmin : ∀ b ∈ S, a ≤ b) : S.sort = a :: (S.erase a).sort := by
  rw [← Finset.sort_insert _ (fun b hb => hmin b (Finset.mem_of_mem_erase hb))
    (Finset.notMem_erase a S), Finset.insert_erase ha]

/-- The greatest element of a set comes last. -/
theorem sort_eq_concat_max (ha : a ∈ S) (hmax : ∀ b ∈ S, b ≤ a) :
    S.sort = (S.erase a).sort ++ [a] := by
  refine (Finset.sortedLT_sort S).eq_of_mem_iff ?_ fun b => ?_
  · refine List.Pairwise.sortedLT ?_
    refine List.pairwise_append.mpr ⟨(Finset.sortedLT_sort _).pairwise, by simp, ?_⟩
    intro b hb c hc
    rw [List.mem_singleton.mp hc]
    obtain ⟨hne, hbS⟩ := Finset.mem_erase.mp ((Finset.mem_sort _).mp hb)
    exact lt_of_le_of_ne (hmax b hbS) hne
  · rw [List.mem_append, Finset.mem_sort, Finset.mem_sort, List.mem_singleton, Finset.mem_erase]
    constructor
    · exact fun hb => (eq_or_ne b a).symm.imp (fun hne => ⟨hne, hb⟩) id
    · rintro (⟨-, hb⟩ | rfl)
      · exact hb
      · exact ha

end Sorted

end Library.DoubleEnded
