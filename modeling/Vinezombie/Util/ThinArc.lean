import Vinezombie.Library.Layout
import Vinezombie.Library.Machine
import Mathlib.Data.BitVec

/-!
# Shared ownership

`util/thinarc.rs`: a `ThinArc` is a pointer to a block of memory with a reference count, the metadata
of the value, and the value.  `util/dynsized.rs` has what there is to know of the type of the value.

The first part is about the layout of the block.  `offsets` computes where the fields are, `new` lets
the compiler lay out the block, and `dealloc` computes the layout again.

The second part is about the count.  Any number of handles are cloned, used, dropped and unwrapped.
An action is the next access to the block of one of them, in any order; accesses take place one after
the other, so that nothing is said of memory orderings.  Handles are copies of one pointer, of which
only the number matters.  The count is a machine word, which wraps.

* `offsets_eq`: where the fields are.  `dealloc_eq_iff`: when memory is given back as it was asked
  for.
* `State`, `step`, `Inv`: the actions, and what they keep.
* `disposes`: handles are safe, and the value is disposed of once.  `misused_iff`: how many clones are
  too many.
-/

namespace Vinezombie

namespace ThinArc

open Library

/-! ## The block -/

/-- `DynSized`, for a value with some metadata.  The constant `ALIGN` is `layout.align`. -/
structure DynSized (bits : ℕ) where
  /-- Of the type `Metadata`. -/
  metadata : Layout bits
  layout : Layout bits

section Block

variable {bits : ℕ}

/-- The layout of an `AtomicUsize` of `2 ^ k` bytes. -/
def word (k : ℕ) (h : k < bits) : Layout bits where
  size := 2 ^ k
  align := 2 ^ k
  align_eq := ⟨k, rfl⟩
  fits := by
    rw [← Nat.two_mul, ← Nat.pow_succ']
    exact Nat.pow_le_pow_right Nat.two_pos h

/-- The layout of `()`. -/
def unit : Layout bits where
  size := 0
  align := 1
  align_eq := ⟨0, rfl⟩
  fits := Nat.one_le_two_pow

/-- The implementation for a type with a fixed size. -/
def DynSized.sized (layout : Layout bits) : DynSized bits := ⟨unit, layout⟩

/-- `Layout::from_size_align_unchecked(0, T::ALIGN)`. -/
def DynSized.start (t : DynSized bits) : Layout bits where
  size := 0
  align := t.layout.align
  align_eq := t.layout.align_eq
  fits := Nat.le_trans (Nat.add_le_add_right (Nat.zero_le _) _) t.layout.fits

variable (rc : Layout bits)

/-- `ThinArcInner`, as the compiler lays it out: its fields in their order. -/
def inner (t : DynSized bits) : Option (Layout bits × List ℕ) := rc.struct [t.metadata, t.layout]

/-- `offsets`.  There is no result if it panics. -/
def offsets (t : DynSized bits) : Option (ℕ × ℕ) :=
  (rc.extend t.metadata).bind fun (layout, offsetMeta) =>
    (layout.extend t.start).map fun (_, offsetValue) => (offsetMeta, offsetValue)

/-- The layout that `dealloc` computes.  There is no result if it panics. -/
def deallocLayout (t : DynSized bits) : Option (Layout bits) :=
  (rc.extend t.metadata).bind fun (layout, _) =>
    (layout.extend t.layout).map fun (layout, _) => layout

variable {rc}

theorem inner_cases {t : DynSized bits} {block : Layout bits} {begins : List ℕ}
    (h : inner rc t = some (block, begins)) :
    ∃ front offsetMeta whole offsetValue, rc.extend t.metadata = some (front, offsetMeta) ∧
      front.extend t.layout = some (whole, offsetValue) ∧ block = whole.padToAlign ∧
      begins = [0, offsetMeta, offsetValue] := by
  unfold inner Layout.struct Layout.fields at h
  split at h
  · cases h
  · rename_i front offsetMeta hfront
    unfold Layout.fields at h
    split at h
    · cases h
    · rename_i whole offsetValue hwhole
      obtain ⟨rfl, rfl⟩ := Prod.mk.inj (Option.some.inj h)
      exact ⟨front, offsetMeta, whole, offsetValue, hfront, hwhole, rfl, rfl⟩

/-- **The fields are where the compiler has put them**: aligned, one behind the other, within the
block. -/
theorem offsets_eq {t : DynSized bits} {block : Layout bits} {begins : List ℕ}
    (h : inner rc t = some (block, begins)) :
    ∃ offsetMeta offsetValue, offsets rc t = some (offsetMeta, offsetValue) ∧
      begins = [0, offsetMeta, offsetValue] ∧
      t.metadata.align ∣ offsetMeta ∧ t.layout.align ∣ offsetValue ∧
      rc.size ≤ offsetMeta ∧ offsetMeta + t.metadata.size ≤ offsetValue ∧
      offsetValue + t.layout.size ≤ block.size := by
  obtain ⟨front, offsetMeta, whole, offsetValue, hfront, hwhole, rfl, rfl⟩ := inner_cases h
  obtain ⟨rest, hrest⟩ : ∃ rest, front.extend t.start = some (rest, offsetValue) :=
    Layout.extend_of_le hwhole rfl (Nat.zero_le _)
  obtain ⟨hmeta, hsize, -⟩ := Layout.extend_eq_some hfront
  obtain ⟨hvalue, hsize', -⟩ := Layout.extend_eq_some hwhole
  refine ⟨offsetMeta, offsetValue, ?_, rfl, ?_, ?_, ?_, ?_, ?_⟩
  · simp only [offsets, hfront, hrest, Option.bind_some, Option.map_some]
  · exact hmeta ▸ dvd_roundUp _ _
  · exact hvalue ▸ dvd_roundUp _ _
  · exact hmeta ▸ le_roundUp t.metadata.align_pos _
  · rw [hvalue, ← hsize]
    exact le_roundUp t.layout.align_pos _
  · rw [← hsize']
    exact le_roundUp whole.align_pos _

/-- **`dealloc` forgets the padding at the end of the block**: for a type with a fixed size it has the
layout with which the block was allocated exactly if the size of a word divides that of the value.
Sizes are multiples of alignments. -/
theorem dealloc_eq_iff {k : ℕ} {hk : k < bits} {layout block : Layout bits} {begins : List ℕ}
    (hpadded : layout.align ∣ layout.size)
    (h : inner (word k hk) (.sized layout) = some (block, begins)) :
    ∃ given, deallocLayout (word k hk) (.sized layout) = some given ∧
      given.padToAlign = block ∧ (given = block ↔ 2 ^ k ∣ layout.size) := by
  obtain ⟨front, offsetMeta, whole, offsetValue, hfront, hwhole, rfl, -⟩ := inner_cases h
  obtain ⟨hmeta, hsize, halign⟩ := Layout.extend_eq_some hfront
  obtain ⟨hvalue, hsize', halign'⟩ := Layout.extend_eq_some hwhole
  have hfrontSize : front.size = 2 ^ k := by
    rw [hsize, hmeta]
    exact roundUp_of_dvd Nat.one_pos (Nat.one_dvd _)
  have hfrontAlign : front.align = 2 ^ k := by
    rw [halign]
    exact max_eq_left Nat.one_le_two_pow
  refine ⟨whole, ?_, rfl, ?_⟩
  · simp only [deallocLayout, hfront, hwhole, Option.bind_some, Option.map_some]
  rw [eq_comm, Layout.padToAlign_eq_self_iff, halign', hsize', hvalue]
  rcases Nat.le_total layout.align front.align with hle | hle
  · -- the value begins right behind the count
    have hdvd := Layout.align_dvd_of_le hle
    have hbegin : roundUp front.size layout.align = 2 ^ k := by
      rw [hfrontSize]
      exact roundUp_of_dvd layout.align_pos (hfrontAlign ▸ hdvd)
    show max front.align layout.align ∣ roundUp front.size layout.align + layout.size ↔ _
    rw [max_eq_left hle, hbegin, hfrontAlign, Nat.dvd_add_right (Nat.dvd_refl _)]
  · -- the alignment of the value is that of the block
    have hdvd := Layout.align_dvd_of_le hle
    show max front.align layout.align ∣ roundUp front.size layout.align + layout.size ↔ _
    rw [max_eq_right hle, Nat.dvd_add_right (dvd_roundUp _ _)]
    exact iff_of_true hpadded (Nat.dvd_trans (hfrontAlign ▸ hdvd) hpadded)

/-- `i32`, which the tests of the source share. -/
def i32 : Layout 63 := ⟨4, 4, ⟨2, rfl⟩, by decide⟩

/-- `OwnedSlice<u8>`, which strings share. -/
def ownedSlice : Layout 63 := ⟨16, 8, ⟨3, rfl⟩, by decide⟩

theorem dealloc_i32 :
    (∃ block begins given, inner (word 3 (by decide)) (.sized i32) = some (block, begins) ∧
      deallocLayout (word 3 (by decide)) (.sized i32) = some given ∧ given ≠ block) ∧
    ∃ block begins given, inner (word 3 (by decide)) (.sized ownedSlice) = some (block, begins) ∧
      deallocLayout (word 3 (by decide)) (.sized ownedSlice) = some given ∧ given = block := by
  constructor
  · obtain ⟨⟨block, begins⟩, h⟩ := Option.isSome_iff_exists.mp
      (show (inner (word 3 (by decide)) (.sized i32)).isSome = true by decide)
    obtain ⟨given, hgiven, -, hiff⟩ := dealloc_eq_iff (by decide) h
    exact ⟨block, begins, given, h, hgiven, mt hiff.mp (by decide)⟩
  · obtain ⟨⟨block, begins⟩, h⟩ := Option.isSome_iff_exists.mp
      (show (inner (word 3 (by decide)) (.sized ownedSlice)).isSome = true by decide)
    obtain ⟨given, hgiven, -, hiff⟩ := dealloc_eq_iff (by decide) h
    exact ⟨block, begins, given, h, hgiven, hiff.mpr (by decide)⟩

end Block

/-! ## The count -/

open Library.Machine

/-- What a handle is about to do. -/
inductive Role where
  /-- Nothing in particular: it can be cloned, used, dropped and unwrapped. -/
  | held
  /-- `drop_in_place`. -/
  | destroying
  /-- To move the value out of the block. -/
  | reading
  /-- `dealloc`. -/
  | deallocating
  deriving DecidableEq

/-- A block with its count, and who has it. -/
structure State (w : ℕ) where
  rc : BitVec w
  /-- The numbers of handles. -/
  number : Role → ℕ
  /-- Handles that are given up without being dropped. -/
  forgotten : ℕ
  /-- The number of clones that were made. -/
  clones : ℕ
  /-- How often the value was dropped, moved out of the block, and the block given back. -/
  dropped : ℕ
  taken : ℕ
  freed : ℕ
  /-- The block was used after it was given back, or the value when it was not there. -/
  misused : Bool

/-- The handles, when there is one more with a role. -/
def oneMore (role : Role) (number : Role → ℕ) : Role → ℕ :=
  Function.update number role (number role + 1)

/-- The handles, when there is one less with a role. -/
def oneLess (role : Role) (number : Role → ℕ) : Role → ℕ :=
  Function.update number role (number role - 1)

variable {w : ℕ}

/-- `new`. -/
def new : State w where
  rc := 1
  number := oneMore .held fun _ => 0
  forgotten := 0
  clones := 0
  dropped := 0
  taken := 0
  freed := 0
  misused := false

namespace State

/-- An access to the block. -/
def touch (s : State w) : State w := { s with misused := s.misused || decide (s.freed ≠ 0) }

/-- An access to the value. -/
def use (s : State w) : State w :=
  { s with misused := s.misused || decide (s.freed + s.dropped + s.taken ≠ 0) }

end State

/-- The accesses of the handles. -/
inductive Action where
  | clone
  | deref
  /-- `drop`, up to `fetch_sub`. -/
  | drop
  /-- `drop_in_place`. -/
  | destroy
  /-- `try_unwrap`, up to `load`. -/
  | tryUnwrap
  /-- The value is moved out of the block. -/
  | read
  | dealloc
  /-- `std::mem::forget`. -/
  | forget
  deriving DecidableEq

/-- Which handles an action is one of. -/
def Action.role : Action → Role
  | .destroy => .destroying
  | .read => .reading
  | .dealloc => .deallocating
  | _ => .held

/-- The action is not possible. -/
inductive Blocked where
  | blocked
  deriving DecidableEq

/-- What an action does, if there is a handle for it. -/
def act (s : State w) : Action → State w
  | .clone =>
    { s.touch with rc := s.rc + 1, number := oneMore .held s.number, clones := s.clones + 1 }
  | .deref => s.use
  | .drop =>
    let number := oneLess .held s.number
    { s.touch with
      rc := s.rc - 1
      number := if s.rc = 1 then oneMore .destroying number else number }
  | .destroy =>
    { s.use with
      number := oneMore .deallocating (oneLess .destroying s.number)
      dropped := s.dropped + 1 }
  | .tryUnwrap =>
    if s.rc = 1 then { s.touch with number := oneMore .reading (oneLess .held s.number) }
    else s.touch
  | .read =>
    { s.use with
      number := oneMore .deallocating (oneLess .reading s.number)
      taken := s.taken + 1 }
  | .dealloc =>
    { s.touch with number := oneLess .deallocating s.number, freed := s.freed + 1 }
  | .forget => { s with number := oneLess .held s.number, forgotten := s.forgotten + 1 }

/-- An access, if there is a handle that can make it. -/
def step (s : State w) (a : Action) : Except Blocked (State w) :=
  if 0 < s.number a.role then .ok (act s a) else .error .blocked

/-! ## The invariant -/

/-- Where the block is in its life. -/
inductive Phase (s : State w) : Prop
  /-- The value is shared. -/
  | shared (rc : s.rc = BitVec.ofNat w (s.number .held + s.forgotten))
    (pos : 0 < s.number .held + s.forgotten)
    (le : s.number .held + s.forgotten ≤ s.clones + 1)
    (others : ∀ role, role ≠ .held → s.number role = 0)
    (dropped : s.dropped = 0) (taken : s.taken = 0) (freed : s.freed = 0)
  /-- The last handle is about to do something with the value. -/
  | last (role : Role) (hrole : role = .destroying ∨ role = .reading)
    (number : s.number = oneMore role fun _ => 0) (forgotten : s.forgotten = 0)
    (dropped : s.dropped = 0) (taken : s.taken = 0) (freed : s.freed = 0)
  /-- It has done so. -/
  | ending (number : s.number = oneMore .deallocating fun _ => 0) (forgotten : s.forgotten = 0)
    (value : s.dropped + s.taken = 1) (freed : s.freed = 0)
  | done (number : s.number = fun _ => 0) (forgotten : s.forgotten = 0)
    (value : s.dropped + s.taken = 1) (freed : s.freed = 1)

/-- What holds as long as the count does not wrap. -/
structure Inv (s : State w) : Prop where
  misused : s.misused = false
  phase : Phase s

theorem inv_new : Inv (new : State w) where
  misused := rfl
  phase := .shared rfl Nat.one_pos (Nat.le_refl _) (fun role hne => by
    simp [new, oneMore, Function.update_of_ne hne]) rfl rfl rfl

@[simp] theorem oneMore_self (role : Role) (number : Role → ℕ) :
    oneMore role number role = number role + 1 :=
  Function.update_self ..

theorem oneMore_of_ne {role role' : Role} (h : role' ≠ role) (number : Role → ℕ) :
    oneMore role number role' = number role' :=
  Function.update_of_ne h ..

@[simp] theorem oneLess_self (role : Role) (number : Role → ℕ) :
    oneLess role number role = number role - 1 :=
  Function.update_self ..

theorem oneLess_of_ne {role role' : Role} (h : role' ≠ role) (number : Role → ℕ) :
    oneLess role number role' = number role' :=
  Function.update_of_ne h ..

@[simp] theorem oneLess_oneMore (role : Role) (number : Role → ℕ) :
    oneLess role (oneMore role number) = number := by
  funext role'
  by_cases h : role' = role
  · subst h
    simp
  · rw [oneLess_of_ne h, oneMore_of_ne h]

theorem eq_of_pos {role role' : Role} (h : 0 < oneMore role (fun _ => 0) role') :
    role' = role := by
  by_contra hne
  rw [oneMore_of_ne hne] at h
  exact Nat.lt_irrefl 0 h

/-- A handle that is alone. -/
theorem oneLess_eq_zero {number : Role → ℕ} {role : Role} (hone : number role = 1)
    (hothers : ∀ role', role' ≠ role → number role' = 0) : oneLess role number = fun _ => 0 := by
  funext role'
  by_cases h : role' = role
  · rw [h, oneLess_self, hone]
  · rw [oneLess_of_ne h, hothers role' h]

/-- A count that has not wrapped too far is one if it says so. -/
theorem eq_one_of_ofNat {n : ℕ} (hpos : 0 < n) (hle : n ≤ 2 ^ w) (h : BitVec.ofNat w n = 1) :
    n = 1 := by
  have hmod : n % 2 ^ w = 1 % 2 ^ w := congrArg BitVec.toNat h
  rcases Nat.lt_or_eq_of_le hle with hlt | heq
  · rw [Nat.mod_eq_of_lt hlt, Nat.mod_eq_of_lt (by omega)] at hmod
    exact hmod
  · rw [heq, Nat.mod_self] at hmod
    rcases Nat.lt_or_ge 1 (2 ^ w) with hlt | hge
    · rw [Nat.mod_eq_of_lt hlt] at hmod
      exact absurd hmod (by decide)
    · omega

section Actions

variable {s s' : State w}

theorem touch_of_freed (h : s.misused = false) (hfreed : s.freed = 0) : s.touch.misused = false := by
  simp [State.touch, h, hfreed]

theorem use_of_present (h : s.misused = false) (hfreed : s.freed = 0) (hdropped : s.dropped = 0)
    (htaken : s.taken = 0) : s.use.misused = false := by
  simp [State.use, h, hfreed, hdropped, htaken]

theorem Inv.act_shared (hmisused : s.misused = false)
    (hrc : s.rc = BitVec.ofNat w (s.number .held + s.forgotten))
    (hle : s.number .held + s.forgotten ≤ s.clones + 1)
    (hothers : ∀ role, role ≠ .held → s.number role = 0)
    (hdropped : s.dropped = 0) (htaken : s.taken = 0) (hfreed : s.freed = 0)
    (hlt : s.clones < 2 ^ w) {a : Action} (hrole : a.role = .held) (hheld : 0 < s.number .held) :
    Inv (act s a) := by
  have htouch := touch_of_freed hmisused hfreed
  have huse := use_of_present hmisused hfreed hdropped htaken
  have halone : s.rc = 1 → s.number .held = 1 ∧ s.forgotten = 0 := by
    intro hone
    rw [hrc] at hone
    have := eq_one_of_ofNat (by omega) (by omega) hone
    omega
  cases a with
  | clone =>
    refine ⟨htouch, .shared ?_ (Nat.add_pos_left (by simp [act]) _) ?_ (fun role hne => ?_) hdropped
      htaken hfreed⟩
    · show s.rc + 1 = BitVec.ofNat w (oneMore .held s.number .held + s.forgotten)
      rw [hrc, oneMore_self, Nat.add_right_comm]
      exact (BitVec.ofNat_add _ _).symm
    · show oneMore .held s.number .held + s.forgotten ≤ s.clones + 1 + 1
      rw [oneMore_self]
      omega
    · exact (oneMore_of_ne hne _).trans (hothers role hne)
  | deref =>
    exact ⟨huse, .shared hrc (by exact Nat.add_pos_left hheld _) hle hothers hdropped htaken hfreed⟩
  | drop =>
    by_cases hone : s.rc = 1
    · obtain ⟨hheld', hforgotten⟩ := halone hone
      refine ⟨htouch, .last .destroying (.inl rfl) ?_ hforgotten hdropped htaken hfreed⟩
      show (if s.rc = 1 then oneMore .destroying (oneLess .held s.number) else _) = _
      rw [if_pos hone, oneLess_eq_zero hheld' hothers]
    · have hpred : (act s .drop).number = oneLess .held s.number := by
        show (if s.rc = 1 then _ else oneLess .held s.number) = _
        rw [if_neg hone]
      have hmore : s.number .held + s.forgotten ≠ 1 := by
        intro heq
        rw [hrc, heq] at hone
        exact hone rfl
      refine ⟨htouch, .shared ?_ ?_ ?_ (fun role hne => ?_) hdropped htaken hfreed⟩
      · show s.rc - 1 = BitVec.ofNat w ((act s .drop).number .held + s.forgotten)
        obtain ⟨n, hn⟩ := Nat.exists_eq_succ_of_ne_zero (Nat.pos_iff_ne_zero.mp hheld)
        rw [hpred, oneLess_self, hrc, hn, Nat.succ_eq_add_one, Nat.add_right_comm, BitVec.ofNat_add]
        exact BitVec.add_sub_cancel _ _
      · show 0 < (act s .drop).number .held + s.forgotten
        rw [hpred, oneLess_self]
        omega
      · show (act s .drop).number .held + s.forgotten ≤ s.clones + 1
        rw [hpred, oneLess_self]
        omega
      · rw [hpred, oneLess_of_ne hne, hothers role hne]
  | tryUnwrap =>
    by_cases hone : s.rc = 1
    · obtain ⟨hheld', hforgotten⟩ := halone hone
      rw [act, if_pos hone]
      refine ⟨htouch, .last .reading (.inr rfl) ?_ hforgotten hdropped htaken hfreed⟩
      show oneMore .reading (oneLess .held s.number) = _
      rw [oneLess_eq_zero hheld' hothers]
    · rw [act, if_neg hone]
      exact ⟨htouch, .shared hrc (by exact Nat.add_pos_left hheld _) hle hothers hdropped htaken
        hfreed⟩
  | forget =>
    refine ⟨hmisused, .shared ?_ ?_ ?_ (fun role hne => ?_) hdropped htaken hfreed⟩
    · show s.rc = BitVec.ofNat w (oneLess .held s.number .held + (s.forgotten + 1))
      rw [hrc, oneLess_self]
      congr 1
      omega
    · show 0 < oneLess .held s.number .held + (s.forgotten + 1)
      omega
    · show oneLess .held s.number .held + (s.forgotten + 1) ≤ s.clones + 1
      rw [oneLess_self]
      omega
    · exact (oneLess_of_ne hne _).trans (hothers role hne)
  | destroy | read | dealloc => cases hrole

/-- **What every action keeps**, as long as there are not too many clones. -/
theorem Inv.step (h : Inv s) (hlt : s.clones < 2 ^ w) {a : Action} (hstep : step s a = .ok s') :
    Inv s' := by
  unfold ThinArc.step at hstep
  split at hstep
  swap
  · cases hstep
  rename_i hpos
  obtain rfl := Except.ok.inj hstep
  cases h.phase with
  | shared hrc _ hle hothers hdropped htaken hfreed =>
    have hrole : a.role = .held := by
      by_contra hne
      rw [hothers _ hne] at hpos
      exact Nat.lt_irrefl 0 hpos
    exact .act_shared h.misused hrc hle hothers hdropped htaken hfreed hlt hrole (hrole ▸ hpos)
  | last role hrole hnumber hforgotten hdropped htaken hfreed =>
    have huse := use_of_present h.misused hfreed hdropped htaken
    rw [hnumber] at hpos
    obtain rfl := eq_of_pos hpos
    cases a with
    | destroy =>
      refine ⟨huse, .ending ?_ hforgotten ?_ hfreed⟩
      · show oneMore .deallocating (oneLess .destroying s.number) = _
        rw [hnumber]
        exact congrArg _ (oneLess_oneMore _ _)
      · show s.dropped + 1 + s.taken = 1
        omega
    | read =>
      refine ⟨huse, .ending ?_ hforgotten ?_ hfreed⟩
      · show oneMore .deallocating (oneLess .reading s.number) = _
        rw [hnumber]
        exact congrArg _ (oneLess_oneMore _ _)
      · show s.dropped + (s.taken + 1) = 1
        omega
    | clone | deref | drop | tryUnwrap | forget | dealloc =>
      rcases hrole with hrole | hrole <;> cases hrole
  | ending hnumber hforgotten hvalue hfreed =>
    rw [hnumber] at hpos
    have hrole := eq_of_pos hpos
    cases a with
    | dealloc =>
      refine ⟨touch_of_freed h.misused hfreed, .done ?_ hforgotten hvalue ?_⟩
      · show oneLess .deallocating s.number = _
        rw [hnumber]
        exact oneLess_oneMore _ _
      · show s.freed + 1 = 1
        rw [hfreed]
    | clone | deref | drop | tryUnwrap | forget | destroy | read => cases hrole
  | done hnumber _ _ _ =>
    rw [hnumber] at hpos
    exact absurd hpos (Nat.lt_irrefl 0)

theorem clones_step {a : Action} (hstep : step s a = .ok s') :
    s'.clones = s.clones + if a = .clone then 1 else 0 := by
  unfold ThinArc.step at hstep
  split at hstep
  · obtain rfl := Except.ok.inj hstep
    cases a with
    | tryUnwrap =>
      by_cases hone : s.rc = 1
      · rw [act, if_pos hone]
        rfl
      · rw [act, if_neg hone]
        rfl
    | clone | deref | drop | destroy | read | dealloc | forget => rfl
  · cases hstep

end Actions

/-- The value is there for those who have not disposed of it. -/
theorem Inv.present {s : State w} (h : Inv s) {role : Role} (hpos : 0 < s.number role)
    (hne : role ≠ .deallocating) : s.dropped = 0 ∧ s.taken = 0 := by
  cases h.phase with
  | shared _ _ _ _ hdropped htaken _ => exact ⟨hdropped, htaken⟩
  | last _ _ _ _ hdropped htaken _ => exact ⟨hdropped, htaken⟩
  | ending hnumber _ _ _ =>
    rw [hnumber] at hpos
    exact absurd (eq_of_pos hpos) hne
  | done hnumber _ _ _ =>
    rw [hnumber] at hpos
    exact absurd hpos (Nat.lt_irrefl 0)

theorem Inv.once {s : State w} (h : Inv s) : s.dropped + s.taken ≤ 1 := by
  cases h.phase with
  | shared _ _ _ _ hdropped htaken _ => omega
  | last _ _ _ _ hdropped htaken _ => omega
  | ending _ _ hvalue _ => omega
  | done _ _ hvalue _ => omega

/-- The last handle is alone. -/
theorem Inv.alone {s : State w} (h : Inv s) {role role' : Role} (hpos : 0 < s.number role)
    (hne : role ≠ .held) (hne' : role' ≠ role) : s.number role' = 0 := by
  cases h.phase with
  | shared _ _ _ hothers _ _ _ => exact absurd hpos (by simp [hothers role hne])
  | last _ _ hnumber _ _ _ _ =>
    rw [hnumber] at hpos ⊢
    rw [← eq_of_pos hpos, oneMore_of_ne hne']
  | ending hnumber _ _ _ =>
    rw [hnumber] at hpos ⊢
    rw [← eq_of_pos hpos, oneMore_of_ne hne']
  | done hnumber _ _ _ => rw [hnumber]

/-! ## Runs -/

theorem clones_run {as : List Action} {s s' : State w} (h : as.foldlM step s = .ok s') :
    s'.clones = s.clones + as.count .clone := by
  induction as generalizing s with
  | nil =>
    obtain rfl := Except.ok.inj h
    rfl
  | cons a as ih =>
    obtain ⟨s₁, hstep, hrest⟩ := foldlM_cons_ok h
    rw [ih hrest, clones_step hstep, List.count_cons, Nat.add_assoc, Nat.add_comm (as.count .clone)]
    by_cases ha : a = .clone
    · simp [ha]
    · simp [ha]

/-- **The invariant holds** as long as there have been fewer clones than there are words. -/
theorem Inv.run {as : List Action} {s s' : State w} (h : Inv s)
    (hlt : s.clones + as.count .clone < 2 ^ w) (hrun : as.foldlM ThinArc.step s = .ok s') :
    Inv s' := by
  induction as generalizing s with
  | nil =>
    obtain rfl := Except.ok.inj hrun
    exact h
  | cons a as ih =>
    obtain ⟨s₁, hstep, hrest⟩ := foldlM_cons_ok hrun
    have hclones := clones_step hstep
    rw [List.count_cons] at hlt
    refine ih (h.step (by omega) hstep) ?_ hrest
    by_cases ha : a = .clone
    · simp only [ha, beq_self_eq_true, if_true] at hlt hclones
      omega
    · simp only [ha, if_false] at hclones
      omega

/-- **Handles are safe, and the value and its block are disposed of once**, whatever handles do and
in whichever order, as long as there have been fewer clones than there are words. -/
theorem disposes {as : List Action} {s : State w} (hrun : as.foldlM step new = .ok s)
    (hlt : as.count .clone < 2 ^ w) :
    s.misused = false ∧ s.dropped + s.taken ≤ 1 ∧ s.freed ≤ s.dropped + s.taken ∧
      ((∀ role, s.number role = 0) → s.forgotten = 0 → s.dropped + s.taken = 1 ∧ s.freed = 1) ∧
      (0 < s.number .held → s.dropped + s.taken = 0) := by
  have hinv := inv_new.run (by simpa [new] using hlt) hrun
  refine ⟨hinv.misused, ?_⟩
  cases hinv.phase with
  | shared _ hpos _ _ hdropped htaken hfreed =>
    refine ⟨by omega, by omega, fun hgone hforgotten => ?_, fun _ => by omega⟩
    rw [hgone, hforgotten] at hpos
    exact absurd hpos (Nat.lt_irrefl 0)
  | last role hrole hnumber _ hdropped htaken hfreed =>
    refine ⟨by omega, by omega, fun hgone _ => ?_, fun _ => by omega⟩
    have hone := hgone role
    rw [hnumber, oneMore_self] at hone
    cases hone
  | ending hnumber _ hvalue hfreed =>
    refine ⟨by omega, by omega, fun hgone _ => ?_, fun hheld => ?_⟩
    · have hone := hgone .deallocating
      rw [hnumber, oneMore_self] at hone
      cases hone
    · rw [hnumber] at hheld
      cases eq_of_pos hheld
  | done hnumber _ hvalue hfreed =>
    refine ⟨by omega, by omega, fun _ _ => ⟨hvalue, hfreed⟩, fun hheld => ?_⟩
    rw [hnumber] at hheld
    exact absurd hheld (Nat.lt_irrefl 0)

/-- Two handles, of which the first one does not unwrap the value and the second one does. -/
theorem disposes_twoHandles : ∃ s : State 64,
    [Action.clone, .tryUnwrap, .drop, .deref, .tryUnwrap, .read, .dealloc].foldlM step new = .ok s ∧
      s.misused = false ∧ s.dropped + s.taken = 1 ∧ s.freed = 1 := by
  obtain ⟨s, hs, hgone, hforgotten⟩ : ∃ s : State 64,
      [Action.clone, .tryUnwrap, .drop, .deref, .tryUnwrap, .read, .dealloc].foldlM step new = .ok s ∧
        (∀ role, s.number role = 0) ∧ s.forgotten = 0 := by
    refine ⟨_, rfl, fun role => ?_, rfl⟩
    cases role <;> rfl
  obtain ⟨hmisused, -, -, hdone, -⟩ := disposes hs (by decide)
  exact ⟨s, hs, hmisused, hdone hgone hforgotten⟩

/-! ## Too many clones -/

/-- A run whose first action is possible. -/
theorem run_cons {s : State w} {a : Action} (h : 0 < s.number a.role) (as : List Action) :
    (a :: as).foldlM step s = as.foldlM step (act s a) := by
  have hstep : step s a = .ok (act s a) := if_pos h
  rw [List.foldlM_cons, hstep]
  rfl

/-- Clones that are forgotten at once. -/
def forgets (n : ℕ) : List Action := (List.replicate n [Action.clone, .forget]).flatten

theorem run_forgets (n : ℕ) {s : State w} (hheld : 0 < s.number .held) (hfreed : s.freed = 0) :
    (forgets n).foldlM step s = .ok { s with
      rc := s.rc + BitVec.ofNat w n
      forgotten := s.forgotten + n
      clones := s.clones + n } := by
  induction n generalizing s with
  | zero =>
    show Except.ok s = _
    simp
  | succ n ih =>
    have hmore : forgets (n + 1) = .clone :: .forget :: forgets n := by
      simp [forgets, List.replicate_succ]
    have hone : act (act s .clone) .forget =
        { s with rc := s.rc + 1, forgotten := s.forgotten + 1, clones := s.clones + 1 } := by
      simp [act, State.touch, hfreed]
    rw [hmore, run_cons (by exact hheld), run_cons (by simp [act, Action.role]), hone]
    refine (ih (by exact hheld) (by exact hfreed)).trans ?_
    congr 2
    · show s.rc + 1 + BitVec.ofNat w n = s.rc + BitVec.ofNat w (n + 1)
      rw [BitVec.add_assoc, Nat.add_comm n, BitVec.ofNat_add]
      rfl
    · exact Nat.add_right_comm _ _ _
    · exact Nat.add_right_comm _ _ _

/-- One of two handles is the last one, as far as the count is concerned. -/
theorem run_overflow {s : State w} (hrc : s.rc + 1 = 1)
    (hnumber : s.number = oneMore .held fun _ => 0) :
    ∃ s', [Action.clone, .drop, .destroy, .deref].foldlM step s = .ok s' ∧ s'.misused = true := by
  have hdrop : (act (act s .clone) .drop).number =
      oneMore .destroying (oneMore .held fun _ => 0) := by
    show (if s.rc + 1 = 1 then oneMore .destroying (oneLess .held (oneMore .held s.number)) else _) = _
    rw [if_pos hrc, oneLess_oneMore, hnumber]
  have hdestroy : (act (act (act s .clone) .drop) .destroy).number =
      oneMore .deallocating (oneMore .held fun _ => 0) := by
    show oneMore .deallocating (oneLess .destroying (act (act s .clone) .drop).number) = _
    rw [hdrop, oneLess_oneMore]
  rw [run_cons (by simp [hnumber, Action.role]), run_cons (by simp [act, Action.role]),
    run_cons (by rw [hdrop]; simp [Action.role]),
    run_cons (by rw [hdestroy]; simp [Action.role, oneMore_of_ne])]
  refine ⟨_, rfl, ?_⟩
  simp [act, State.use]

/-- **How many clones are too many**: as many as there are words. -/
theorem misused_iff (n : ℕ) :
    (∃ (as : List Action) (s : State w), as.count .clone ≤ n ∧ as.foldlM step new = .ok s ∧
      s.misused = true) ↔ 2 ^ w ≤ n := by
  constructor
  · rintro ⟨as, s, hcount, hrun, hmisused⟩
    by_contra hlt
    have hinv := inv_new.run (by simp only [new]; omega) hrun
    cases hmisused.symm.trans hinv.misused
  · intro hle
    have hforgets := run_forgets (2 ^ w - 1) (s := (new : State w)) Nat.one_pos rfl
    have hwraps : (1 : BitVec w) + BitVec.ofNat w (2 ^ w - 1) + 1 = 1 := by
      have hzero : (1 : BitVec w) + BitVec.ofNat w (2 ^ w - 1) = 0 := by
        have hsum : BitVec.ofNat w (1 + (2 ^ w - 1)) = 0 := by
          rw [Nat.add_sub_cancel' Nat.one_le_two_pow]
          refine BitVec.eq_of_toNat_eq ?_
          rw [BitVec.toNat_ofNat, Nat.mod_self]
          exact (Nat.zero_mod _).symm
        exact (BitVec.ofNat_add _ _).symm.trans hsum
      rw [hzero]
      exact BitVec.zero_add 1
    obtain ⟨s, hs, hmisused⟩ := run_overflow (s := { (new : State w) with
      rc := 1 + BitVec.ofNat w (2 ^ w - 1)
      forgotten := 0 + (2 ^ w - 1)
      clones := 0 + (2 ^ w - 1) }) hwraps rfl
    refine ⟨forgets (2 ^ w - 1) ++ [.clone, .drop, .destroy, .deref], s, ?_, ?_, hmisused⟩
    · have hcount := clones_run hforgets
      simp only [new, Nat.zero_add] at hcount
      rw [List.count_append, ← hcount]
      have hpos := Nat.two_pow_pos w
      show 2 ^ w - 1 + 1 ≤ n
      omega
    · rw [List.foldlM_append, hforgets]
      exact hs

end ThinArc

end Vinezombie
