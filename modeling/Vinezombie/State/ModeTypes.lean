import Mathlib.Data.Fin.VecNotation
import Mathlib.Tactic.FinCases
import Vinezombie.Library.Scan
import Vinezombie.State.ModeSetIter

/-!
# Mode types

`ModeTypes` of `state/mode.rs`: four sets of modes, one for each type of channel mode that is not a
status mode.  A mode is meant to be in one of them at most.  The sets that a `CHANMODES` token gives
may overlap; `from_sets` takes the overlap out of all of them.  It collects the overlap from pairs of
the sets, and leaves out two of the six pairs.

* `ModeTypes.parse_eq`: the fields of a mode string, and what the loop of `parse` makes of them.
* `ModeTypes.fromSetsCorrect_iff`, `ModeTypes.coherent_fromSets_iff`: the sets whose overlap is
  found.
* `ModeTypes.correct_iff`: from which sets on every mode has one type at most.
-/

namespace Vinezombie

open Library.Scan

/-- `ModeType`. -/
inductive ModeType where
  | typeA
  | typeB
  | typeC
  | typeD
  | status
  deriving DecidableEq, Repr

/-- `index`. -/
def ModeType.index : ModeType → ℕ
  | .typeA => 0
  | .typeB => 1
  | .typeC => 2
  | .typeD => 3
  | .status => 4

/-- `ModeTypes`, an array of four sets. -/
@[ext] structure ModeTypes where
  sets : Fin 4 → ModeSet

namespace ModeTypes

/-- `new`. -/
def new : ModeTypes := ⟨fun _ => .new⟩

/-- `from_set`. -/
def fromSet (set : ModeSet) : ModeType → ModeTypes
  | .typeA => ⟨![set, .new, .new, .new]⟩
  | .typeB => ⟨![.new, set, .new, .new]⟩
  | .typeC => ⟨![.new, .new, set, .new]⟩
  | .typeD => ⟨![.new, .new, .new, set]⟩
  | .status => new

/-- `from_sets`.  The pair of `c` and `d` is taken twice. -/
def fromSets (a b c d : ModeSet) : ModeTypes × ModeSet :=
  let overlap := a.intersection b
  let overlap := overlap.union (b.intersection c)
  let overlap := overlap.union (c.intersection d)
  let overlap := overlap.union (b.intersection d)
  let overlap := overlap.union (c.intersection d)
  (⟨![a.difference overlap, b.difference overlap, c.difference overlap, d.difference overlap]⟩,
    overlap)

/-- The loop of `parse`, with the sets, the index of the set that is being filled, and the bytes
that are left. -/
def parseLoop (sets : Fin 4 → ModeSet) (set : Fin 4) : List UInt8 → (Fin 4 → ModeSet) × List UInt8
  | [] => (sets, [])
  | byte :: rest =>
    if byte = Vinezombie.byte ',' then
      if h : set.val + 1 < 4 then parseLoop sets ⟨set + 1, h⟩ rest else (sets, rest)
    else
      match Mode.new byte with
      | some mode => parseLoop (Function.update sets set ((sets set).set mode).2) set rest
      | none => parseLoop sets set rest

/-- `parse`. -/
def parse (bytes : List UInt8) : ModeTypes × ModeSet × List UInt8 :=
  let (sets, bytes) := parseLoop (fun _ => .new) 0 bytes
  let (retval, overlap) := fromSets (sets 0) (sets 1) (sets 2) (sets 3)
  (retval, overlap, bytes)

/-- The type with an index below 4, which the source transmutes. -/
def typeOf : Fin 4 → ModeType := ![.typeA, .typeB, .typeC, .typeD]

/-- `get`, which looks at the four sets in the order of the source. -/
def get (mt : ModeTypes) (mode : Mode) : Option ModeType :=
  (([3, 0, 1, 2] : List (Fin 4)).find? fun value => (mt.sets value).contains mode).map typeOf

/-- `insert`. -/
def insert (mt : ModeTypes) (mode : Mode) (modeType : ModeType) : ModeTypes :=
  ⟨fun idx => if idx.val ≠ modeType.index then ((mt.sets idx).unset mode).2
    else ((mt.sets idx).set mode).2⟩

/-- `insert_set`. -/
def insertSet (mt : ModeTypes) (modeSet : ModeSet) (modeType : ModeType) : ModeTypes :=
  ⟨fun idx => if idx.val ≠ modeType.index then (mt.sets idx).difference modeSet
    else (mt.sets idx).union modeSet⟩

/-- `Display`. -/
def display (mt : ModeTypes) : List UInt8 :=
  (mt.sets 0).display ++ byte ',' :: ((mt.sets 1).display ++ byte ',' ::
    ((mt.sets 2).display ++ byte ',' :: (mt.sets 3).display))

/-! ## The fields of a mode string -/

/-- What follows the first comma. -/
def afterComma (bytes : List UInt8) : List UInt8 := (bytes.dropWhile (· != byte ',')).drop 1

/-- What is in front of the first comma. -/
def beforeComma (bytes : List UInt8) : List UInt8 := bytes.takeWhile (· != byte ',')

/-- The field with a number, from 0 on. -/
def field (n : ℕ) (bytes : List UInt8) : List UInt8 := beforeComma (afterComma^[n] bytes)

/-- The letters among the bytes. -/
def letters (bytes : List UInt8) : ModeSet := .fromIter (bytes.filterMap Mode.new)

/-- One field is added to the set that is being filled, and the loop goes on with the next set
behind the comma, or stops there. -/
theorem parseLoop_eq (bytes : List UInt8) (sets : Fin 4 → ModeSet) (set : Fin 4) :
    parseLoop sets set bytes =
      let sets' := Function.update sets set
        (((beforeComma bytes).filterMap Mode.new).foldl (fun ms mode => (ms.set mode).2) (sets set))
      if h : set.val + 1 < 4 then parseLoop sets' ⟨set + 1, h⟩ (afterComma bytes)
      else (sets', afterComma bytes) := by
  induction bytes generalizing sets with
  | nil => simp [beforeComma, afterComma, parseLoop]
  | cons b rest ih =>
    by_cases hb : b = byte ','
    · simp [beforeComma, afterComma, parseLoop, hb]
    · have hbefore : beforeComma (b :: rest) = b :: beforeComma rest := by simp [beforeComma, hb]
      have hafter : afterComma (b :: rest) = afterComma rest := by simp [afterComma, hb]
      rw [parseLoop, if_neg hb, hbefore, hafter, List.filterMap_cons]
      cases hmode : Mode.new b with
      | none => exact ih sets
      | some mode =>
        dsimp only
        rw [ih, Function.update_self, Function.update_idem, List.foldl_cons]

/-- **What the loop of `parse` leaves**: the letters of the first four fields, and what follows the
fourth comma. -/
theorem parseLoop_new (bytes : List UInt8) :
    parseLoop (fun _ => .new) 0 bytes =
      (fun i : Fin 4 => letters (field i bytes), afterComma^[4] bytes) := by
  rw [parseLoop_eq, dif_pos (by decide), parseLoop_eq, dif_pos (by decide), parseLoop_eq,
    dif_pos (by decide), parseLoop_eq, dif_neg (by decide)]
  refine Prod.ext (funext fun i => ?_) rfl
  fin_cases i <;> rfl

/-- `parse` gives the letters of the first four fields to `from_sets`. -/
theorem parse_eq (bytes : List UInt8) :
    parse bytes =
      let r := fromSets (letters (field 0 bytes)) (letters (field 1 bytes))
        (letters (field 2 bytes)) (letters (field 3 bytes))
      (r.1, r.2, afterComma^[4] bytes) := by
  rw [parse, parseLoop_new]
  rfl

/-! ## Coherence -/

/-- No mode has two types. -/
def Coherent (mt : ModeTypes) : Prop :=
  Pairwise fun i j => Disjoint (mt.sets i).members (mt.sets j).members

variable {mt : ModeTypes} {a b c d : ModeSet}

theorem Coherent.eq_of_mem (h : mt.Coherent) {mode : Mode} {i j : Fin 4}
    (hi : mode ∈ (mt.sets i).members) (hj : mode ∈ (mt.sets j).members) : i = j := by
  by_contra hne
  exact Finset.disjoint_left.mp (h hne) hi hj

theorem coherent_of_eq_of_mem
    (h : ∀ mode i j, mode ∈ (mt.sets i).members → mode ∈ (mt.sets j).members → i = j) :
    mt.Coherent :=
  fun _ _ hne => Finset.disjoint_left.mpr fun mode hi hj => hne (h mode _ _ hi hj)

/-- The type of a mode is that of the only set which has it. -/
theorem Coherent.get_eq_some_iff (h : mt.Coherent) {mode : Mode} {i : Fin 4} :
    mt.get mode = some (typeOf i) ↔ mode ∈ (mt.sets i).members := by
  have hinj : typeOf.Injective := by decide
  have hall : ∀ j : Fin 4, j ∈ ([3, 0, 1, 2] : List (Fin 4)) := by decide
  have hfound : ∀ j, (([3, 0, 1, 2] : List (Fin 4)).find? fun value =>
      (mt.sets value).contains mode) = some j → mode ∈ (mt.sets j).members := fun j hj =>
    ModeSet.contains_iff.mp (by simpa using List.find?_some hj)
  rw [get, Option.map_eq_some_iff]
  constructor
  · rintro ⟨j, hj, hji⟩
    rw [← hinj hji]
    exact hfound j hj
  · intro hi
    cases hfind : ([3, 0, 1, 2] : List (Fin 4)).find? fun value => (mt.sets value).contains mode with
    | none => exact absurd (ModeSet.contains_iff.mpr hi) (List.find?_eq_none.mp hfind i (hall i))
    | some j =>
      exact ⟨j, rfl, congrArg typeOf (h.eq_of_mem (hfound j hfind) hi)⟩

theorem coherent_new : new.Coherent :=
  coherent_of_eq_of_mem fun mode i j hi _ => by simp [new] at hi

/-- What an insertion leaves in each of the sets. -/
theorem members_insert (mode : Mode) (modeType : ModeType) (i : Fin 4) :
    ((mt.insert mode modeType).sets i).members =
      if i.val ≠ modeType.index then (mt.sets i).members.erase mode
      else Insert.insert mode (mt.sets i).members := by
  simp only [insert]
  split
  · exact ModeSet.members_unset
  · exact ModeSet.members_set

theorem members_insertSet (modeSet : ModeSet) (modeType : ModeType) (i : Fin 4) :
    ((mt.insertSet modeSet modeType).sets i).members =
      if i.val ≠ modeType.index then (mt.sets i).members \ modeSet.members
      else (mt.sets i).members ∪ modeSet.members := by
  simp only [insertSet]
  split
  · exact ModeSet.members_difference
  · exact ModeSet.members_union

/-- **One insertion** keeps a mode from having two types. -/
theorem Coherent.insert (h : mt.Coherent) (mode : Mode) (modeType : ModeType) :
    (mt.insert mode modeType).Coherent := by
  refine coherent_of_eq_of_mem fun m i j hi hj => ?_
  rw [members_insert] at hi hj
  split at hi
  · have hmem := Finset.mem_erase.mp hi
    split at hj
    · exact h.eq_of_mem hmem.2 (Finset.mem_of_mem_erase hj)
    · exact h.eq_of_mem hmem.2 ((Finset.mem_insert.mp hj).resolve_left hmem.1)
  · rename_i hidx
    split at hj
    · have hmem := Finset.mem_erase.mp hj
      exact h.eq_of_mem ((Finset.mem_insert.mp hi).resolve_left hmem.1) hmem.2
    · rename_i hidx'
      exact Fin.ext ((not_not.mp hidx).trans (not_not.mp hidx').symm)

theorem Coherent.insertSet (h : mt.Coherent) (modeSet : ModeSet) (modeType : ModeType) :
    (mt.insertSet modeSet modeType).Coherent := by
  refine coherent_of_eq_of_mem fun m i j hi hj => ?_
  rw [members_insertSet] at hi hj
  split at hi
  · have hmem := Finset.mem_sdiff.mp hi
    split at hj
    · exact h.eq_of_mem hmem.1 (Finset.mem_sdiff.mp hj).1
    · exact h.eq_of_mem hmem.1 ((Finset.mem_union.mp hj).resolve_right hmem.2)
  · rename_i hidx
    split at hj
    · have hmem := Finset.mem_sdiff.mp hj
      exact h.eq_of_mem ((Finset.mem_union.mp hi).resolve_right hmem.2) hmem.1
    · rename_i hidx'
      exact Fin.ext ((not_not.mp hidx).trans (not_not.mp hidx').symm)

/-- The set with an index that is not that of the type is empty. -/
theorem index_eq_of_mem_fromSet {set : ModeSet} {modeType : ModeType} {mode : Mode} {i : Fin 4}
    (h : mode ∈ ((fromSet set modeType).sets i).members) : i.val = modeType.index := by
  have hempty : mode ∉ ModeSet.new.members := by simp
  cases modeType with
  | status => exact absurd h hempty
  | _ =>
    fin_cases i <;> first | rfl | exact absurd h hempty

theorem coherent_fromSet (set : ModeSet) (modeType : ModeType) :
    (fromSet set modeType).Coherent :=
  coherent_of_eq_of_mem fun _ _ _ hi hj =>
    Fin.ext ((index_eq_of_mem_fromSet hi).trans (index_eq_of_mem_fromSet hj).symm)

/-! ## Overlaps -/

/-- The modes that two of the four sets have. -/
def InTwo (a b c d : ModeSet) (mode : Mode) : Prop :=
  ∃ i j, i ≠ j ∧ mode ∈ (![a, b, c, d] i).members ∧ mode ∈ (![a, b, c, d] j).members

/-- What is meant to be made of four sets: the overlap is the modes that two of the sets have, and
the sets are left without these. -/
def RemovesOverlap (a b c d : ModeSet) (mt : ModeTypes) (overlap : ModeSet) : Prop :=
  (∀ mode, mode ∈ overlap.members ↔ InTwo a b c d mode) ∧
    ∀ i mode, mode ∈ (mt.sets i).members ↔
      mode ∈ (![a, b, c, d] i).members ∧ ¬ InTwo a b c d mode

/-- `from_sets` removes the overlap and returns it. -/
def FromSetsCorrect (a b c d : ModeSet) : Prop :=
  RemovesOverlap a b c d (fromSets a b c d).1 (fromSets a b c d).2

/-- A mode that the first set has in common with one of the last two is in a third one. -/
def Covered (a b c d : ModeSet) : Prop :=
  ∀ mode ∈ a.members, (mode ∈ c.members → mode ∈ b.members ∨ mode ∈ d.members) ∧
    (mode ∈ d.members → mode ∈ b.members ∨ mode ∈ c.members)

theorem inTwo_iff {mode : Mode} :
    InTwo a b c d mode ↔
      (mode ∈ a.members ∧ (mode ∈ b.members ∨ mode ∈ c.members ∨ mode ∈ d.members)) ∨
      (mode ∈ b.members ∧ (mode ∈ c.members ∨ mode ∈ d.members)) ∨
      (mode ∈ c.members ∧ mode ∈ d.members) := by
  constructor
  · rintro ⟨i, j, hne, hi, hj⟩
    fin_cases i <;> fin_cases j <;> simp at hne hi hj <;> simp [hi, hj]
  · rintro (⟨ha, hb | hc | hd⟩ | ⟨hb, hc | hd⟩ | ⟨hc, hd⟩)
    · exact ⟨0, 1, by decide, ha, hb⟩
    · exact ⟨0, 2, by decide, ha, hc⟩
    · exact ⟨0, 3, by decide, ha, hd⟩
    · exact ⟨1, 2, by decide, hb, hc⟩
    · exact ⟨1, 3, by decide, hb, hd⟩
    · exact ⟨2, 3, by decide, hc, hd⟩

theorem mem_overlap_iff {mode : Mode} :
    mode ∈ (fromSets a b c d).2.members ↔
      (mode ∈ a.members ∧ mode ∈ b.members) ∨
      (mode ∈ b.members ∧ (mode ∈ c.members ∨ mode ∈ d.members)) ∨
      (mode ∈ c.members ∧ mode ∈ d.members) := by
  simp only [fromSets, ModeSet.members_union, ModeSet.members_intersection, Finset.mem_union,
    Finset.mem_inter]
  constructor
  · rintro ((((hab | ⟨hb, hc⟩) | hcd) | ⟨hb, hd⟩) | hcd)
    · exact .inl hab
    · exact .inr (.inl ⟨hb, .inl hc⟩)
    · exact .inr (.inr hcd)
    · exact .inr (.inl ⟨hb, .inr hd⟩)
    · exact .inr (.inr hcd)
  · rintro (hab | ⟨hb, hc | hd⟩ | hcd)
    · exact .inl (.inl (.inl (.inl hab)))
    · exact .inl (.inl (.inl (.inr ⟨hb, hc⟩)))
    · exact .inl (.inr ⟨hb, hd⟩)
    · exact .inr hcd

theorem members_fromSets (i : Fin 4) :
    ((fromSets a b c d).1.sets i).members =
      (![a, b, c, d] i).members \ (fromSets a b c d).2.members := by
  fin_cases i <;> exact ModeSet.members_difference

/-- The overlap is what it is meant to be exactly if it covers what the first set has in common with
the last two. -/
theorem fromSetsCorrect_iff : FromSetsCorrect a b c d ↔ Covered a b c d := by
  constructor
  · rintro ⟨hoverlap, -⟩ mode ha
    constructor
    · intro hc
      have hmem := mem_overlap_iff.mp ((hoverlap mode).mpr ⟨0, 2, by decide, ha, hc⟩)
      rcases hmem with ⟨-, hb⟩ | ⟨hb, -⟩ | ⟨-, hd⟩
      · exact .inl hb
      · exact .inl hb
      · exact .inr hd
    · intro hd
      have hmem := mem_overlap_iff.mp ((hoverlap mode).mpr ⟨0, 3, by decide, ha, hd⟩)
      rcases hmem with ⟨-, hb⟩ | ⟨hb, -⟩ | ⟨hc, -⟩
      · exact .inl hb
      · exact .inl hb
      · exact .inr hc
  · intro h
    have hoverlap : ∀ mode, mode ∈ (fromSets a b c d).2.members ↔ InTwo a b c d mode := by
      intro mode
      rw [mem_overlap_iff, inTwo_iff]
      constructor
      · exact fun hmem => hmem.imp_left fun hab => ⟨hab.1, .inl hab.2⟩
      · rintro (⟨ha, hb | hc | hd⟩ | hmem)
        · exact .inl ⟨ha, hb⟩
        · rcases (h mode ha).1 hc with hb | hd
          · exact .inl ⟨ha, hb⟩
          · exact .inr (.inr ⟨hc, hd⟩)
        · rcases (h mode ha).2 hd with hb | hc
          · exact .inl ⟨ha, hb⟩
          · exact .inr (.inr ⟨hc, hd⟩)
        · exact .inr hmem
    refine ⟨hoverlap, fun i mode => ?_⟩
    rw [members_fromSets, Finset.mem_sdiff, hoverlap]

/-- The sets that are left are disjoint in the same cases. -/
theorem coherent_fromSets_iff : (fromSets a b c d).1.Coherent ↔ Covered a b c d := by
  constructor
  · intro h mode ha
    have hleft : ∀ i, mode ∈ (![a, b, c, d] i).members → mode ∉ (fromSets a b c d).2.members →
        mode ∈ ((fromSets a b c d).1.sets i).members := by
      intro i hi hoverlap
      rw [members_fromSets]
      exact Finset.mem_sdiff.mpr ⟨hi, hoverlap⟩
    constructor
    · intro hc
      by_contra hother
      have hoverlap : mode ∉ (fromSets a b c d).2.members := by
        rw [mem_overlap_iff]
        rintro (⟨-, hb⟩ | ⟨hb, -⟩ | ⟨-, hd⟩)
        · exact hother (.inl hb)
        · exact hother (.inl hb)
        · exact hother (.inr hd)
      exact absurd (h.eq_of_mem (hleft 0 ha hoverlap) (hleft 2 hc hoverlap)) (by decide)
    · intro hd
      by_contra hother
      have hoverlap : mode ∉ (fromSets a b c d).2.members := by
        rw [mem_overlap_iff]
        rintro (⟨-, hb⟩ | ⟨hb, -⟩ | ⟨hc, -⟩)
        · exact hother (.inl hb)
        · exact hother (.inl hb)
        · exact hother (.inr hc)
      exact absurd (h.eq_of_mem (hleft 0 ha hoverlap) (hleft 3 hd hoverlap)) (by decide)
  · intro h
    obtain ⟨-, hsets⟩ := fromSetsCorrect_iff.mpr h
    refine coherent_of_eq_of_mem fun mode i j hi hj => ?_
    by_contra hne
    obtain ⟨hi', hnot⟩ := (hsets i mode).mp hi
    exact hnot ⟨i, j, hne, hi', ((hsets j mode).mp hj).1⟩

/-! ## Any sequence of calls -/

/-- The functions that make a `ModeTypes`. -/
inductive Start where
  | new
  | fromSet (set : ModeSet) (modeType : ModeType)
  | fromSets (a b c d : ModeSet)
  | parse (bytes : List UInt8)

/-- The methods that change a `ModeTypes`. -/
inductive Update where
  | insert (mode : Mode) (modeType : ModeType)
  | insertSet (modeSet : ModeSet) (modeType : ModeType)

namespace Start

/-- The result of the constructor. -/
def value : Start → ModeTypes
  | .new => ModeTypes.new
  | .fromSet set modeType => ModeTypes.fromSet set modeType
  | .fromSets a b c d => (ModeTypes.fromSets a b c d).1
  | .parse bytes => (ModeTypes.parse bytes).1

/-- The overlap that is returned is what it is meant to be. -/
def OverlapCorrect : Start → Prop
  | .new => True
  | .fromSet _ _ => True
  | .fromSets a b c d => FromSetsCorrect a b c d
  | .parse bytes =>
    RemovesOverlap (letters (field 0 bytes)) (letters (field 1 bytes)) (letters (field 2 bytes))
      (letters (field 3 bytes)) (ModeTypes.parse bytes).1 (ModeTypes.parse bytes).2.1

/-- The sets that are given have no mode in common that `from_sets` does not see. -/
def SetsCovered : Start → Prop
  | .new => True
  | .fromSet _ _ => True
  | .fromSets a b c d => Covered a b c d
  | .parse bytes =>
    Covered (letters (field 0 bytes)) (letters (field 1 bytes)) (letters (field 2 bytes))
      (letters (field 3 bytes))

theorem overlapCorrect_iff (start : Start) : start.OverlapCorrect ↔ start.SetsCovered := by
  cases start with
  | new => exact Iff.rfl
  | fromSet set modeType => exact Iff.rfl
  | fromSets a b c d => exact fromSetsCorrect_iff
  | parse bytes =>
    rw [OverlapCorrect, parse_eq]
    exact fromSetsCorrect_iff

theorem coherent_value_iff (start : Start) : start.value.Coherent ↔ start.SetsCovered := by
  cases start with
  | new => exact iff_of_true coherent_new trivial
  | fromSet set modeType => exact iff_of_true (coherent_fromSet set modeType) trivial
  | fromSets a b c d => exact coherent_fromSets_iff
  | parse bytes =>
    rw [value, parse_eq]
    exact coherent_fromSets_iff

end Start

/-- The modes after an update. -/
def Update.apply (mt : ModeTypes) : Update → ModeTypes
  | .insert mode modeType => mt.insert mode modeType
  | .insertSet modeSet modeType => mt.insertSet modeSet modeType

theorem Coherent.apply (h : mt.Coherent) (u : Update) : (u.apply mt).Coherent := by
  cases u with
  | insert mode modeType => exact h.insert mode modeType
  | insertSet modeSet modeType => exact h.insertSet modeSet modeType

theorem Coherent.foldl_apply (h : mt.Coherent) (us : List Update) :
    (us.foldl Update.apply mt).Coherent := by
  induction us generalizing mt with
  | nil => exact h
  | cons u us ih => exact ih (h.apply u)

/-- What is said of a value that is made and then changed: the overlap that is returned is right,
and the four sets are disjoint at any time. -/
def Correct (start : Start) (us : List Update) : Prop :=
  start.OverlapCorrect ∧ ∀ done, done <+: us → (done.foldl Update.apply start.value).Coherent

/-- **Every mode has one type at most**, and the overlap is right, exactly if the sets at the start
have no mode in common that `from_sets` does not see. -/
theorem correct_iff (start : Start) (us : List Update) :
    Correct start us ↔ start.SetsCovered := by
  constructor
  · exact fun h => start.overlapCorrect_iff.mp h.1
  · exact fun h => ⟨start.overlapCorrect_iff.mpr h,
      fun done _ => (start.coherent_value_iff.mpr h).foldl_apply done⟩

/-- **A mode with two types**: `b` is in the first and in the third list. -/
theorem not_correct_parse :
    (parse (text "b,,b,")).2.1 = .new ∧
      ((parse (text "b,,b,")).1.sets 0).members = {⟨byte 'b', rfl⟩} ∧
      ((parse (text "b,,b,")).1.sets 2).members = {⟨byte 'b', rfl⟩} ∧
      ¬ Correct (.parse (text "b,,b,")) [] := by
  have hsets : ((parse (text "b,,b,")).1.sets 0).members = {⟨byte 'b', rfl⟩} ∧
      ((parse (text "b,,b,")).1.sets 2).members = {⟨byte 'b', rfl⟩} := by decide +kernel
  refine ⟨by decide +kernel, hsets.1, hsets.2, fun h => ?_⟩
  have hcoherent := h.2 [] List.nil_prefix
  have hfirst : (⟨byte 'b', rfl⟩ : Mode) ∈ ((parse (text "b,,b,")).1.sets 0).members :=
    hsets.1 ▸ Finset.mem_singleton_self _
  have hthird : (⟨byte 'b', rfl⟩ : Mode) ∈ ((parse (text "b,,b,")).1.sets 2).members :=
    hsets.2 ▸ Finset.mem_singleton_self _
  exact absurd (hcoherent.eq_of_mem hfirst hthird) (by decide)

end ModeTypes

end Vinezombie
