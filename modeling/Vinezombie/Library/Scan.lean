import Mathlib.Data.List.DropRight
import Mathlib.Data.List.TakeWhile

/-!
# Scanning a list up to a position

Facts about cutting a list at the first entry with a property, in the two forms that programs use:
by index (`findIdx?`, `take`, `drop`) and by `takeWhile` and `dropWhile`.

* `take_eq_takeWhile_of_findIdx?`, `drop_eq_dropWhile_of_findIdx?`: the two forms agree.
* `takeWhile_append_of_stop`, `dropWhile_append_of_stop`: a scan stops where it has to.
* `takeWhile_append_eq`, `dropWhile_append_eq`: it does not pass a boundary that stops it; likewise
  for scans from the right (`rtakeWhile_append_eq`, `rdropWhile_append_eq`).
* `head?_dropWhile_eq_false`, `length_takeWhile_lt_iff`: what stopped it, and that it was stopped.
-/

namespace Library.Scan

variable {α : Type*} {p : α → Bool} {l r : List α} {i : ℕ}

theorem takeWhile_eq_self_of_findIdx? (h : l.findIdx? p = none) :
    l.takeWhile (fun a => !p a) = l := by
  rw [List.takeWhile_eq_self_iff]
  intro a ha
  simpa using List.findIdx?_eq_none_iff.mp h a ha

theorem dropWhile_eq_nil_of_findIdx? (h : l.findIdx? p = none) :
    l.dropWhile (fun a => !p a) = [] := by
  rw [List.dropWhile_eq_nil_iff]
  intro a ha
  simpa using List.findIdx?_eq_none_iff.mp h a ha

/-- Cutting at the first entry with a property is scanning over the entries without it. -/
theorem take_eq_takeWhile_of_findIdx? (h : l.findIdx? p = some i) :
    l.take i = l.takeWhile fun a => !p a := by
  induction l generalizing i with
  | nil => simp at h
  | cons a l ih =>
    rw [List.findIdx?_cons] at h
    by_cases ha : p a = true
    · rw [if_pos ha] at h
      rw [← Option.some.inj h, List.takeWhile_cons_of_neg (by simpa using ha), List.take_zero]
    · rw [if_neg ha] at h
      obtain ⟨j, hj, rfl⟩ := Option.map_eq_some_iff.mp h
      rw [List.take_succ_cons, List.takeWhile_cons_of_pos (by simpa using ha), ih hj]

theorem drop_eq_dropWhile_of_findIdx? (h : l.findIdx? p = some i) :
    l.drop i = l.dropWhile fun a => !p a := by
  induction l generalizing i with
  | nil => simp at h
  | cons a l ih =>
    rw [List.findIdx?_cons] at h
    by_cases ha : p a = true
    · rw [if_pos ha] at h
      rw [← Option.some.inj h, List.dropWhile_cons_of_neg (by simpa using ha), List.drop_zero]
    · rw [if_neg ha] at h
      obtain ⟨j, hj, rfl⟩ := Option.map_eq_some_iff.mp h
      rw [List.drop_succ_cons, List.dropWhile_cons_of_pos (by simpa using ha), ih hj]

theorem lt_length_of_findIdx? (h : l.findIdx? p = some i) : i < l.length :=
  (List.findIdx?_eq_some_iff_getElem.mp h).1

/-- A list up to the first entry with a property, and from there. -/
theorem split_of_findIdx? (h : l.findIdx? p = some i) :
    ∃ x a r, l = x ++ a :: r ∧ x.length = i ∧ p a = true ∧ ∀ b ∈ x, p b = false := by
  induction l generalizing i with
  | nil => simp at h
  | cons a l ih =>
    rw [List.findIdx?_cons] at h
    by_cases ha : p a = true
    · rw [if_pos ha] at h
      exact ⟨[], a, l, rfl, Option.some.inj h, ha, by simp⟩
    · rw [if_neg ha] at h
      obtain ⟨j, hj, rfl⟩ := Option.map_eq_some_iff.mp h
      obtain ⟨x, c, r, rfl, rfl, hc, hx⟩ := ih hj
      refine ⟨a :: x, c, r, rfl, rfl, hc, ?_⟩
      intro b hb
      rcases List.mem_cons.mp hb with rfl | hb
      · simpa using ha
      · exact hx b hb

/-- Of two ways to split a list, one of them at an entry that the front of the other does not have,
the first goes further. -/
theorem exists_of_append_eq_append_cons {t d u rest : List α} {a : α} (ht : a ∉ t)
    (h : t ++ d = u ++ a :: rest) : ∃ v, u = t ++ v ∧ d = v ++ a :: rest := by
  rcases List.append_eq_append_iff.mp h with ⟨v, hu, hd⟩ | ⟨v, hv, hd⟩
  · exact ⟨v, hu, hd⟩
  · cases v with
    | nil => exact ⟨[], by rw [hv, List.append_nil, List.append_nil], hd.symm⟩
    | cons c v =>
      rw [List.cons_append] at hd
      refine absurd ?_ ht
      rw [hv, (List.cons.inj hd).1]
      simp

@[simp] theorem drop_length_takeWhile (p : α → Bool) (l : List α) :
    l.drop (l.takeWhile p).length = l.dropWhile p := by
  induction l with
  | nil => rfl
  | cons a l ih =>
    by_cases ha : p a = true
    · rw [List.takeWhile_cons_of_pos ha, List.dropWhile_cons_of_pos ha, List.length_cons,
        List.drop_succ_cons, ih]
    · rw [List.takeWhile_cons_of_neg ha, List.dropWhile_cons_of_neg ha, List.length_nil,
        List.drop_zero]

/-- A scan over `l ++ r` stops at `r` when `l` passes and `r` does not begin with an entry that
passes. -/
theorem takeWhile_append_of_stop (hl : ∀ a ∈ l, p a = true) (hr : ∀ a ∈ r.head?, p a = false) :
    (l ++ r).takeWhile p = l := by
  rw [List.takeWhile_append_of_pos hl]
  cases r with
  | nil => simp
  | cons b r =>
    have hb : p b = false := hr b rfl
    rw [List.takeWhile_cons_of_neg (by simp [hb]), List.append_nil]

theorem dropWhile_append_of_stop (hl : ∀ a ∈ l, p a = true) (hr : ∀ a ∈ r.head?, p a = false) :
    (l ++ r).dropWhile p = r := by
  rw [List.dropWhile_append_of_pos hl]
  cases r with
  | nil => simp
  | cons b r =>
    have hb : p b = false := hr b rfl
    rw [List.dropWhile_cons_of_neg (by simp [hb])]

/-- Two lists agree, if they do up to the first entry without the property, and from there. -/
theorem append_eq_append_iff_of_stop {l' r' : List α} (hl : ∀ a ∈ l, p a = true)
    (hl' : ∀ a ∈ l', p a = true) (hr : ∀ a ∈ r.head?, p a = false)
    (hr' : ∀ a ∈ r'.head?, p a = false) : l ++ r = l' ++ r' ↔ l = l' ∧ r = r' := by
  constructor
  · intro h
    have htake := congrArg (List.takeWhile p) h
    have hdrop := congrArg (List.dropWhile p) h
    rw [takeWhile_append_of_stop hl hr, takeWhile_append_of_stop hl' hr'] at htake
    rw [dropWhile_append_of_stop hl hr, dropWhile_append_of_stop hl' hr'] at hdrop
    exact ⟨htake, hdrop⟩
  · rintro ⟨rfl, rfl⟩
    rfl

/-- A scan does not pass the boundary to a part whose first entry does not pass. -/
theorem takeWhile_append_eq (l : List α) (hr : ∀ a ∈ r.head?, p a = false) :
    (l ++ r).takeWhile p = l.takeWhile p := by
  induction l with
  | nil => exact takeWhile_append_of_stop (l := []) (by simp) hr
  | cons a l ih =>
    by_cases ha : p a = true
    · rw [List.cons_append, List.takeWhile_cons_of_pos ha, List.takeWhile_cons_of_pos ha, ih]
    · rw [List.cons_append, List.takeWhile_cons_of_neg ha, List.takeWhile_cons_of_neg ha]

theorem dropWhile_append_eq (l : List α) (hr : ∀ a ∈ r.head?, p a = false) :
    (l ++ r).dropWhile p = l.dropWhile p ++ r := by
  induction l with
  | nil => exact dropWhile_append_of_stop (l := []) (by simp) hr
  | cons a l ih =>
    by_cases ha : p a = true
    · rw [List.cons_append, List.dropWhile_cons_of_pos ha, List.dropWhile_cons_of_pos ha, ih]
    · rw [List.cons_append, List.dropWhile_cons_of_neg ha, List.dropWhile_cons_of_neg ha,
        List.cons_append]

theorem rtakeWhile_append_eq (r : List α) (hl : ∀ a ∈ l.getLast?, p a = false) :
    (l ++ r).rtakeWhile p = r.rtakeWhile p := by
  rw [List.rtakeWhile, List.rtakeWhile, List.reverse_append,
    takeWhile_append_eq _ (by rwa [List.head?_reverse])]

theorem rdropWhile_append_eq (r : List α) (hl : ∀ a ∈ l.getLast?, p a = false) :
    (l ++ r).rdropWhile p = l ++ r.rdropWhile p := by
  rw [List.rdropWhile, List.rdropWhile, List.reverse_append,
    dropWhile_append_eq _ (by rwa [List.head?_reverse]), List.reverse_append,
    List.reverse_reverse]

/-- What a scan leaves begins with an entry that did not pass. -/
theorem head?_dropWhile_eq_false {a : α} (h : a ∈ (l.dropWhile p).head?) : p a = false := by
  induction l with
  | nil => simp at h
  | cons b l ih =>
    by_cases hb : p b = true
    · rw [List.dropWhile_cons_of_pos hb] at h
      exact ih h
    · rw [List.dropWhile_cons_of_neg hb, List.head?_cons] at h
      rw [← Option.some.inj h]
      simpa using hb

/-- A scan stops before the end exactly when some entry does not pass. -/
theorem length_takeWhile_lt_iff {l : List α} :
    (l.takeWhile p).length < l.length ↔ ∃ a ∈ l, p a = false := by
  induction l with
  | nil => simp
  | cons b l ih =>
    by_cases hb : p b = true
    · rw [List.takeWhile_cons_of_pos hb, List.length_cons, List.length_cons,
        Nat.add_lt_add_iff_right, ih]
      simp [hb]
    · rw [List.takeWhile_cons_of_neg hb]
      simp [hb]

end Library.Scan
