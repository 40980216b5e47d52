import Vinezombie.Strings.Sharing

/-!
# Calls on strings that share memory

What every action of `Sharing.step` keeps: the counts of the blocks are those of their owners, a
buffer is there as long as a string needs it, and strings in memory have the values that the same
calls give to strings without memory.

* `Inv`: the invariant.  `Refines`: which values the strings of a state have.
* `Sound`: what is shown of a call.  `sound_step`: it holds of every action.
-/

namespace Vinezombie

namespace Sharing

open Library.Machine

/-! ## Counting owners -/

/-- The string is in `into_vec`. -/
def Pc.Converting (pc : Pc) : Prop :=
  pc = .reading ∨ pc = .freeing ∨ pc = .unwrapped ∨ pc = .copying

/-- What an owner is to its block. -/
def Handle.role (h : Handle) : Option (ℕ × ThinArc.Role) :=
  match h.pc with
  | .live | .copying => h.ownership.map fun b => (b, .held)
  | .reading => h.ownership.map fun b => (b, .reading)
  | .freeing => h.ownership.map fun b => (b, .deallocating)
  | .unwrapped | .vec _ | .gone => none

/-- The buffer that `try_unwrap` has returned. -/
def Handle.kept (h : Handle) : Option ℕ :=
  match h.pc with
  | .freeing | .unwrapped => h.ownership
  | _ => none

theorem ownership_of_role {h : Handle} {b : ℕ} {role : ThinArc.Role}
    (hrole : h.role = some (b, role)) : h.ownership = some b := by
  unfold Handle.role at hrole
  split at hrole
  all_goals first
    | cases hrole
    | obtain ⟨b', hb', heq⟩ := Option.map_eq_some_iff.mp hrole
      exact (Prod.mk.inj heq).1 ▸ hb'

theorem ownership_of_kept {h : Handle} {b : ℕ} (hkept : h.kept = some b) :
    h.ownership = some b := by
  unfold Handle.kept at hkept
  split at hkept
  · exact hkept
  · exact hkept
  · cases hkept

/-- The role of an owner that is being dropped. -/
def End.role : End → ThinArc.Role
  | .releasing => .held
  | .destroying => .destroying
  | .deallocating => .deallocating

variable {w : ℕ}

namespace State

/-- The owners of a block. -/
def number (s : State w) (b : ℕ) (role : ThinArc.Role) : ℕ :=
  s.handles.countP (fun h => h.role = some (b, role)) +
    s.ends.countP fun e => (e.1, e.2.role) = (b, role)

/-- How many strings keep the block alive. -/
def keepers (s : State w) (b : ℕ) : ℕ := s.handles.countP fun h => h.kept = some b

end State

/-- One, if it is so. -/
def one (p : Prop) [Decidable p] : ℕ := if p then 1 else 0

theorem countP_set_add {α : Type} (p : α → Prop) [DecidablePred p] {l : List α} {i : ℕ} {x : α}
    (h : l[i]? = some x) (y : α) :
    (l.set i y).countP (fun z => p z) + one (p x) = l.countP (fun z => p z) + one (p y) := by
  obtain ⟨hlt, rfl⟩ := List.getElem?_eq_some_iff.mp h
  rw [List.countP_set hlt]
  by_cases hp : p l[i]
  · have hpos : 0 < l.countP (fun z => p z) :=
      List.countP_pos_iff.mpr ⟨_, List.getElem_mem hlt, by simpa using hp⟩
    simp only [one, hp, decide_true, if_true, decide_eq_true_eq]
    omega
  · simp only [one, hp, decide_false, if_false, decide_eq_true_eq, Bool.false_eq_true]
    omega

theorem countP_eraseIdx_add {α : Type} (p : α → Prop) [DecidablePred p] {l : List α} {i : ℕ} {x : α}
    (h : l[i]? = some x) : (l.eraseIdx i).countP (fun z => p z) + one (p x) =
      l.countP fun z => p z := by
  obtain ⟨hlt, rfl⟩ := List.getElem?_eq_some_iff.mp h
  rw [← (List.getElem_cons_eraseIdx_perm hlt).countP_eq, List.countP_cons]
  simp [one]

theorem countP_concat {α : Type} (p : α → Prop) [DecidablePred p] (l : List α) (x : α) :
    (l ++ [x]).countP (fun z => p z) = l.countP (fun z => p z) + one (p x) := by
  rw [List.countP_append, List.countP_singleton]
  simp [one]

section Number

variable (s : State w) (b : ℕ) (role : ThinArc.Role)

theorem number_push (h : Handle) :
    (s.push h).number b role = s.number b role + one (h.role = some (b, role)) := by
  show (s.handles ++ [h]).countP _ + s.ends.countP _ = _
  rw [countP_concat, State.number]
  omega

theorem keepers_push (h : Handle) :
    (s.push h).keepers b = s.keepers b + one (h.kept = some b) :=
  countP_concat _ _ _

variable {s}

theorem number_set {i : ℕ} {h : Handle} (hi : s.handles[i]? = some h) (h' : Handle) :
    (s.set i h').number b role + one (h.role = some (b, role)) =
      s.number b role + one (h'.role = some (b, role)) := by
  have := countP_set_add (fun h : Handle => h.role = some (b, role)) hi h'
  simp only [State.number, State.set]
  omega

theorem keepers_set {i : ℕ} {h : Handle} (hi : s.handles[i]? = some h) (h' : Handle) :
    (s.set i h').keepers b + one (h.kept = some b) = s.keepers b + one (h'.kept = some b) :=
  countP_set_add (fun h : Handle => h.kept = some b) hi h'

variable (s)

theorem number_release (ownership : Option ℕ) :
    (s.release ownership).number b role =
      s.number b role + one (ownership.map (fun b => (b, ThinArc.Role.held)) = some (b, role)) := by
  cases ownership with
  | none => simp [State.release, State.number, one]
  | some b' =>
    show s.handles.countP _ + (s.ends ++ [(b', End.releasing)]).countP _ = _
    rw [countP_concat, State.number, ← Nat.add_assoc]
    congr 1
    simp [one, End.role]

end Number

/-! ## The invariant -/

/-- A buffer, with its owners. -/
structure BufferOk (s : State w) (b : ℕ) (buffer : Buffer w) : Prop where
  arc : ThinArc.Inv buffer.arc
  clones : buffer.arc.clones ≤ s.clones
  number : ∀ role, buffer.arc.number role = s.number b role
  available : buffer.status = .available →
    buffer.arc.dropped = 0 ∧ s.keepers b = buffer.arc.taken
  taken : buffer.status ≠ .available →
    buffer.arc.dropped + buffer.arc.taken = 1 ∧ s.keepers b = 0

/-- A string points into its own buffer. -/
structure HandleOk (s : State w) (h : Handle) : Prop where
  lt : ∀ b, h.ownership = some b → b < s.buffers.length
  owns : ∀ b start len, h.value = .inside b start len → h.ownership = some b
  converting : h.pc.Converting → h.ownership ≠ none

/-- What holds of the memory, as long as no count wraps. -/
structure Inv (s : State w) : Prop where
  buffers : ∀ b buffer, s.buffers[b]? = some buffer → BufferOk s b buffer
  handles : ∀ h ∈ s.handles, HandleOk s h
  ends : ∀ e ∈ s.ends, e.1 < s.buffers.length

/-- A string in memory is one of these values. -/
inductive Shows (s : State w) (h : Handle) : Slot → Prop
  | string {value : List UInt8} (hpc : h.pc = .live) (hread : s.read h.value = some value) :
    Shows s h (.string (h.bytes value))
  | converting {value : List UInt8} (hpc : h.pc.Converting)
    (hread : s.read h.value = some value) : Shows s h (.vec value)
  | vec {value : List UInt8} (hpc : h.pc = .vec value) : Shows s h (.vec value)
  | gone (hpc : h.pc = .gone) : Shows s h .gone

/-- The strings in memory have these values. -/
structure Refines (s : State w) (slots : List Slot) : Prop where
  length_eq : s.handles.length = slots.length
  slot : ∀ (i : ℕ) (h : Handle) (slot : Slot), s.handles[i]? = some h → slots[i]? = some slot →
    Shows s h slot

theorem inv_new : Inv (new : State w) := ⟨by simp [new], by simp [new], by simp [new]⟩

theorem refines_new : Refines (new : State w) [] := ⟨rfl, by simp⟩

/-! ## Reading -/

/-- The buffers there are stay as they are. -/
def Keeps (s s' : State w) : Prop :=
  ∀ (b : ℕ) (buffer : Buffer w), s.buffers[b]? = some buffer → ∃ buffer' : Buffer w,
    s'.buffers[b]? = some buffer' ∧ buffer'.cells = buffer.cells ∧ buffer'.status = buffer.status

section Reading

variable {s s' : State w}

theorem read_inside_eq_some_iff {b start len : ℕ} {value : List UInt8} :
    s.read (.inside b start len) = some value ↔ ∃ buffer : Buffer w, s.buffers[b]? = some buffer ∧
      buffer.status = .available ∧ start + len ≤ buffer.cells.length ∧
      value = (buffer.cells.drop start).take len := by
  simp only [State.read]
  constructor
  · intro h
    split at h
    · rename_i buffer hb
      split at h
      · rename_i hok
        exact ⟨buffer, hb, hok.1, hok.2, (Option.some.inj h).symm⟩
      · cases h
    · cases h
  · rintro ⟨buffer, hb, hstatus, hle, rfl⟩
    simp only [hb]
    rw [if_pos ⟨hstatus, hle⟩]

theorem Keeps.read (h : Keeps s s') {place : Place} {value : List UInt8}
    (hread : s.read place = some value) : s'.read place = some value := by
  cases place with
  | outside v => exact hread
  | inside b start len =>
    obtain ⟨buffer, hb, hstatus, hle, rfl⟩ := read_inside_eq_some_iff.mp hread
    obtain ⟨buffer', hb', hcells, hstatus'⟩ := h b buffer hb
    exact read_inside_eq_some_iff.mpr
      ⟨buffer', hb', hstatus'.trans hstatus, hcells ▸ hle, by rw [hcells]⟩

theorem Keeps.of_eq (h : s'.buffers = s.buffers) : Keeps s s' :=
  fun _ buffer hb => ⟨buffer, h ▸ hb, rfl, rfl⟩

theorem Keeps.push (s : State w) (x : Handle) : Keeps s (s.push x) := .of_eq rfl

theorem Keeps.set (s : State w) (i : ℕ) (x : Handle) : Keeps s (s.set i x) := .of_eq rfl

theorem Keeps.of_set {b₀ : ℕ} {buffer₀ buffer₀' : Buffer w} (hb : s.buffers[b₀]? = some buffer₀)
    (hset : s'.buffers = s.buffers.set b₀ buffer₀') (hcells : buffer₀'.cells = buffer₀.cells)
    (hstatus : buffer₀'.status = buffer₀.status) : Keeps s s' := by
  intro b buffer hbuffer
  by_cases heq : b₀ = b
  · subst heq
    obtain rfl := Option.some.inj (hb.symm.trans hbuffer)
    refine ⟨buffer₀', ?_, hcells, hstatus⟩
    rw [hset, List.getElem?_set_self (List.getElem?_eq_some_iff.mp hb).1]
  · exact ⟨buffer, by rw [hset, List.getElem?_set_ne heq, hbuffer], rfl, rfl⟩

theorem Keeps.of_append {more : List (Buffer w)} (h : s'.buffers = s.buffers ++ more) :
    Keeps s s' := by
  intro _ buffer hb
  refine ⟨buffer, ?_, rfl, rfl⟩
  rw [h, List.getElem?_append_left (List.getElem?_eq_some_iff.mp hb).1, hb]

/-- A slice of a slice. -/
theorem read_part {place : Place} {value : List UInt8} (h : s.read place = some value)
    {start len : ℕ} (hle : start + len ≤ value.length) :
    s.read (place.part start len) = some ((value.drop start).take len) := by
  cases place with
  | outside v =>
    obtain rfl := Option.some.inj h
    rfl
  | inside b start' len' =>
    obtain ⟨buffer, hb, hstatus, hle', rfl⟩ := read_inside_eq_some_iff.mp h
    rw [List.length_take, List.length_drop] at hle
    refine read_inside_eq_some_iff.mpr ⟨buffer, hb, hstatus, by omega, ?_⟩
    rw [List.drop_take, List.take_take, List.drop_drop]
    congr 1
    omega

theorem Shows.mono {h : Handle} {slot : Slot} (hshows : Shows s h slot)
    (hread : ∀ value, s.read h.value = some value → s'.read h.value = some value) :
    Shows s' h slot := by
  cases hshows with
  | string hpc hv => exact .string hpc (hread _ hv)
  | converting hpc hv => exact .converting hpc (hread _ hv)
  | vec hpc => exact .vec hpc
  | gone hpc => exact .gone hpc

end Reading

section Refining

variable {s s' : State w} {slots : List Slot}

theorem Refines.slot_of (h : Refines s slots) {i : ℕ} {x : Handle} (hi : s.handles[i]? = some x) :
    ∃ slot, slots[i]? = some slot ∧ Shows s x slot := by
  obtain ⟨hlt, -⟩ := List.getElem?_eq_some_iff.mp hi
  obtain ⟨slot, hslot⟩ : ∃ slot, slots[i]? = some slot :=
    ⟨_, List.getElem?_eq_getElem (h.length_eq ▸ hlt)⟩
  exact ⟨slot, hslot, h.slot i x slot hi hslot⟩

theorem Refines.of_handles (h : Refines s slots) (hkeeps : Keeps s s')
    (hhandles : s'.handles = s.handles) : Refines s' slots := by
  refine ⟨hhandles ▸ h.length_eq, fun i x slot hx hslot => ?_⟩
  rw [hhandles] at hx
  exact (h.slot i x slot hx hslot).mono fun value hv => hkeeps.read hv

theorem Refines.push (h : Refines s slots) (hkeeps : Keeps s s') {x : Handle} {slot : Slot}
    (hhandles : s'.handles = s.handles ++ [x]) (hx : Shows s' x slot) :
    Refines s' (slots ++ [slot]) := by
  refine ⟨by rw [hhandles, List.length_append, List.length_append, h.length_eq]; rfl,
    fun i y slot' hy hslot => ?_⟩
  rw [hhandles] at hy
  rcases Nat.lt_or_ge i s.handles.length with hlt | hge
  · rw [List.getElem?_append_left hlt] at hy
    rw [List.getElem?_append_left (h.length_eq ▸ hlt)] at hslot
    exact (h.slot i y slot' hy hslot).mono fun value hv => hkeeps.read hv
  · rw [List.getElem?_append_right hge] at hy
    rw [List.getElem?_append_right (h.length_eq ▸ hge), ← h.length_eq] at hslot
    rw [List.getElem?_singleton] at hy hslot
    split at hy
    · rename_i hzero
      rw [if_pos hzero] at hslot
      exact Option.some.inj hy ▸ Option.some.inj hslot ▸ hx
    · cases hy

/-- One string is changed, and the others can be read as before. -/
theorem Refines.set (h : Refines s slots) {i : ℕ} {x : Handle} {slot : Slot}
    (hhandles : s'.handles = s.handles.set i x)
    (hothers : ∀ (k : ℕ) (y : Handle) (slot : Slot), k ≠ i → s.handles[k]? = some y →
      Shows s y slot → Shows s' y slot)
    (hx : Shows s' x slot) : Refines s' (slots.set i slot) := by
  refine ⟨by rw [hhandles, List.length_set, List.length_set, h.length_eq],
    fun k y slot' hy hslot => ?_⟩
  rw [hhandles] at hy
  by_cases hk : i = k
  · subst hk
    obtain ⟨hlt, heq⟩ := List.getElem?_eq_some_iff.mp hy
    obtain ⟨hlt', heq'⟩ := List.getElem?_eq_some_iff.mp hslot
    rw [List.getElem_set_self] at heq heq'
    exact heq ▸ heq' ▸ hx
  · rw [List.getElem?_set_ne hk] at hy hslot
    exact hothers k y slot' (Ne.symm hk) hy (h.slot k y slot' hy hslot)

/-- The value of a string stays what it is. -/
theorem Refines.set_same (h : Refines s slots) {i : ℕ} {x : Handle} {slot : Slot}
    (hslot : slots[i]? = some slot) (hhandles : s'.handles = s.handles.set i x)
    (hothers : ∀ (k : ℕ) (y : Handle) (slot : Slot), k ≠ i → s.handles[k]? = some y →
      Shows s y slot → Shows s' y slot)
    (hx : Shows s' x slot) : Refines s' slots := by
  have hset := h.set hhandles hothers hx
  obtain ⟨hlt, rfl⟩ := List.getElem?_eq_some_iff.mp hslot
  rwa [List.set_getElem_self] at hset

theorem Keeps.others (h : Keeps s s') (i k : ℕ) (y : Handle) (slot : Slot) (_ : k ≠ i)
    (_ : s.handles[k]? = some y) (hshows : Shows s y slot) : Shows s' y slot :=
  hshows.mono fun _ hv => h.read hv

end Refining

/-! ## Blocks -/

section Blocks

variable {s s' : State w} {b : ℕ} {buffer : Buffer w}

theorem oneMore_apply (role role' : ThinArc.Role) (number : ThinArc.Role → ℕ) :
    ThinArc.oneMore role number role' = number role' + one (role' = role) := by
  by_cases h : role' = role
  · rw [h, ThinArc.oneMore_self, one, if_pos rfl]
  · rw [ThinArc.oneMore_of_ne h, one, if_neg h, Nat.add_zero]

theorem oneLess_apply (role role' : ThinArc.Role) (number : ThinArc.Role → ℕ) :
    ThinArc.oneLess role number role' = number role' - one (role' = role) := by
  by_cases h : role' = role
  · rw [h, ThinArc.oneLess_self, one, if_pos rfl]
  · rw [ThinArc.oneLess_of_ne h, one, if_neg h, Nat.sub_zero]

/-- An owner of another block. -/
theorem one_of_ne {b₀ : ℕ} (h : b ≠ b₀) (role role' : ThinArc.Role) :
    one (some (b₀, role) = some (b, role')) = 0 :=
  if_neg fun heq => h (Prod.mk.inj (Option.some.inj heq)).1.symm

@[simp] theorem one_self (role role' : ThinArc.Role) :
    one (some (b, role) = some (b, role')) = one (role' = role) := by
  by_cases h : role' = role
  · subst h
    simp [one]
  · rw [one, one, if_neg h, if_neg fun heq => h (Prod.mk.inj (Option.some.inj heq)).2.symm]

@[simp] theorem one_none {α : Type} [DecidableEq α] (x : α) : one (none = some x) = 0 :=
  if_neg (by simp)

theorem number_pos_of_handle {i : ℕ} {x : Handle} (hi : s.handles[i]? = some x)
    {role : ThinArc.Role} (hrole : x.role = some (b, role)) : 0 < s.number b role := by
  refine Nat.add_pos_left (List.countP_pos_iff.mpr ⟨x, List.mem_of_getElem? hi, ?_⟩) _
  simpa using hrole

theorem number_pos_of_end {j : ℕ} {pc : End} (hj : s.ends[j]? = some (b, pc)) :
    0 < s.number b pc.role := by
  refine Nat.add_pos_right _ (List.countP_pos_iff.mpr ⟨_, List.mem_of_getElem? hj, ?_⟩)
  simp

theorem keepers_pos {i : ℕ} {x : Handle} (hi : s.handles[i]? = some x) (hkept : x.kept = some b) :
    0 < s.keepers b :=
  List.countP_pos_iff.mpr ⟨x, List.mem_of_getElem? hi, by simpa using hkept⟩

theorem BufferOk.congr (h : BufferOk s b buffer) (hclones : s.clones ≤ s'.clones)
    (hnumber : ∀ role, s'.number b role = s.number b role) (hkeepers : s'.keepers b = s.keepers b) :
    BufferOk s' b buffer where
  arc := h.arc
  clones := Nat.le_trans h.clones hclones
  number role := (h.number role).trans (hnumber role).symm
  available := hkeepers ▸ h.available
  taken := hkeepers ▸ h.taken

theorem BufferOk.arc_step (h : BufferOk s b buffer) (hlt : s.clones < 2 ^ w) {a : ThinArc.Action}
    (hpos : 0 < s.number b a.role) :
    ThinArc.step buffer.arc a = .ok (ThinArc.act buffer.arc a) ∧
      ThinArc.Inv (ThinArc.act buffer.arc a) := by
  have hstep : ThinArc.step buffer.arc a = .ok (ThinArc.act buffer.arc a) :=
    if_pos (h.number a.role ▸ hpos)
  exact ⟨hstep, h.arc.step (Nat.lt_of_le_of_lt h.clones hlt) hstep⟩

theorem onArc_eq (hb : s.buffers[b]? = some buffer) {a : ThinArc.Action} {arc : ThinArc.State w}
    (hstep : ThinArc.step buffer.arc a = .ok arc) :
    s.onArc b a = .ok { s with buffers := s.buffers.set b { buffer with arc := arc } } := by
  unfold State.onArc
  rw [hb]
  dsimp only
  rw [hstep]

theorem take_eq (hb : s.buffers[b]? = some buffer) (havailable : buffer.status = .available)
    (status : Status) (wipe : Bool) :
    s.take b status wipe = .ok { s with buffers := s.buffers.set b { buffer with
      cells := if wipe then List.replicate buffer.cells.length 0 else buffer.cells
      status := status } } := by
  simp only [State.take, hb, if_pos havailable]

/-- One buffer is changed, and the owners of others stay what they are. -/
theorem Inv.buffers_set (h : Inv s) {buffer' : Buffer w}
    (hset : s'.buffers = s.buffers.set b buffer') (hclones : s.clones ≤ s'.clones)
    (hothers : ∀ b', b' ≠ b → (∀ role, s'.number b' role = s.number b' role) ∧
      s'.keepers b' = s.keepers b')
    (hself : BufferOk s' b buffer') (b' : ℕ) (buffer₁ : Buffer w)
    (hb' : s'.buffers[b']? = some buffer₁) : BufferOk s' b' buffer₁ := by
  rw [hset] at hb'
  by_cases heq : b = b'
  · subst heq
    obtain ⟨hlt, rfl⟩ := List.getElem?_eq_some_iff.mp hb'
    rw [List.getElem_set_self]
    exact hself
  · rw [List.getElem?_set_ne heq] at hb'
    obtain ⟨hnumber, hkeepers⟩ := hothers b' (Ne.symm heq)
    exact (h.buffers b' buffer₁ hb').congr hclones hnumber hkeepers

theorem Inv.exists_buffer (h : Inv s) {i : ℕ} {x : Handle} (hi : s.handles[i]? = some x)
    (hb : x.ownership = some b) : ∃ buffer, s.buffers[b]? = some buffer ∧ BufferOk s b buffer := by
  have hlt := (h.handles x (List.mem_of_getElem? hi)).lt b hb
  exact ⟨_, List.getElem?_eq_getElem hlt, h.buffers b _ (List.getElem?_eq_getElem hlt)⟩

theorem HandleOk.mono {x : Handle} (h : HandleOk s x) (hle : s.buffers.length ≤ s'.buffers.length) :
    HandleOk s' x :=
  ⟨fun b hb => Nat.lt_of_lt_of_le (h.lt b hb) hle, h.owns, h.converting⟩

theorem Inv.after (h : Inv s)
    (hbuffers : ∀ b buffer, s'.buffers[b]? = some buffer → BufferOk s' b buffer)
    (hle : s.buffers.length ≤ s'.buffers.length)
    (hhandles : ∀ x ∈ s'.handles, x ∈ s.handles ∨ HandleOk s' x)
    (hends : ∀ e ∈ s'.ends, e ∈ s.ends ∨ e.1 < s'.buffers.length) : Inv s' where
  buffers := hbuffers
  handles x hx := by
    rcases hhandles x hx with hold | hnew
    · exact (h.handles x hold).mono hle
    · exact hnew
  ends e he := by
    rcases hends e he with hold | hnew
    · exact Nat.lt_of_lt_of_le (h.ends e hold) hle
    · exact hnew

end Blocks

/-! ## Calls -/

/-- The string that a call is about. -/
def Action.string : Action → Option ℕ
  | .clone i | .usingValue i _ _ | .edit i _ | .intoVec i | .drop i | .forget i => some i
  | .make _ | .next _ | .finish _ => none

/-- There is nothing to be resumed, or the strings are not there that the call is about. -/
def Impossible (s : State w) (slots : List Slot) : Action → Prop
  | .next i => ∀ x, s.handles[i]? = some x → ¬x.pc.Converting
  | .finish j => s.ends.length ≤ j
  | a => Values.step slots a = none

/-- What is to be shown of a call: it does not use memory that is not there, and it does to the
strings what it does to their values. -/
def Sound (s : State w) (slots : List Slot) (a : Action) : Except Stop (State w) → Prop
  | .ok s' => Inv s' ∧ ∃ slots', Values.step slots a = some slots' ∧ Refines s' slots'
  | .error e => e = .blocked ∧ Impossible s slots a

section Calls

variable {s : State w} {slots : List Slot}

theorem live_cases (hr : Refines s slots) (i : ℕ) :
    (s.live i = .error .blocked ∧ ∀ b, slots[i]? ≠ some (.string b)) ∨
      ∃ x value, s.live i = .ok x ∧ s.handles[i]? = some x ∧ x.pc = .live ∧
        s.read x.value = some value ∧ slots[i]? = some (.string (x.bytes value)) := by
  unfold State.live
  cases hi : s.handles[i]? with
  | none =>
    refine .inl ⟨rfl, fun b hb => ?_⟩
    have hlt := (List.getElem?_eq_some_iff.mp hb).1
    rw [← hr.length_eq] at hlt
    exact absurd (List.getElem?_eq_none_iff.mp hi) (Nat.not_le.mpr hlt)
  | some x =>
    obtain ⟨slot, hslot, hshows⟩ := hr.slot_of hi
    dsimp only
    split
    · rename_i hpc
      cases hshows with
      | string _ hread => exact .inr ⟨x, _, rfl, rfl, hpc, hread, hslot⟩
      | converting hother _ =>
        rw [hpc] at hother
        simp [Pc.Converting] at hother
      | vec hother => cases hpc.symm.trans hother
      | gone hother => cases hpc.symm.trans hother
    · rename_i hpc
      refine .inl ⟨rfl, fun b hb => ?_⟩
      obtain rfl := Option.some.inj (hslot.symm.trans hb)
      cases hshows with
      | string hlive _ => exact hpc hlive

/-- A call with a string that is not there. -/
theorem impossible_of {a : Action} {i : ℕ} (ha : a.string = some i)
    (hnot : ∀ b, slots[i]? ≠ some (.string b)) : Impossible s slots a := by
  cases a with
  | make | next | finish => cases ha
  | clone | usingValue | edit | intoVec | drop | forget =>
    obtain rfl := Option.some.inj ha
    unfold Impossible Values.step
    dsimp only
    split
    · rename_i b hb
      exact absurd hb (hnot _)
    · rfl

/-- A string like another one, or a part of it, that has no owner. -/
theorem Inv.push_none (h : Inv s) {x : Handle} (hx : HandleOk s x) (hnone : x.ownership = none)
    (hlive : x.pc = .live) : Inv (s.push x) := by
  have hrole : x.role = none := by simp [Handle.role, hlive, hnone]
  have hkept : x.kept = none := by simp [Handle.kept, hlive]
  refine h.after (fun b buffer hb => (h.buffers b buffer hb).congr (Nat.le_refl _)
    (fun role => ?_) ?_) (Nat.le_refl _) (fun y hy => ?_) (fun e he => .inl he)
  · rw [number_push, hrole, one_none, Nat.add_zero]
  · rw [keepers_push, hkept, one_none, Nat.add_zero]
  · rcases List.mem_append.mp hy with hold | hnew
    · exact .inl hold
    · rw [List.mem_singleton.mp hnew]
      exact .inr ⟨hx.lt, hx.owns, hx.converting⟩

/-- **A clone of an owner**, for a new string. -/
theorem Inv.cloneOwnership (h : Inv s) (hlt : s.clones < 2 ^ w) {i : ℕ} {x : Handle}
    (hi : s.handles[i]? = some x) (hpc : x.pc = .live) {y : Handle} (hy : HandleOk s y)
    (howner : y.ownership = x.ownership) (hlive : y.pc = .live) :
    ∃ s₁, s.cloneOwnership x.ownership = .ok s₁ ∧ s₁.handles = s.handles ∧
      Keeps s (s₁.push y) ∧ Inv (s₁.push y) := by
  cases hown : x.ownership with
  | none =>
    exact ⟨s, rfl, rfl, .of_eq rfl, h.push_none hy (howner.trans hown) hlive⟩
  | some b =>
    obtain ⟨buffer, hb, hok⟩ := h.exists_buffer hi hown
    have hrole : x.role = some (b, .held) := by simp [Handle.role, hpc, hown]
    have hrole' : y.role = some (b, .held) := by simp [Handle.role, hlive, howner, hown]
    have hkept : y.kept = none := by simp [Handle.kept, hlive]
    obtain ⟨hstep, harc⟩ := hok.arc_step hlt (a := .clone) (number_pos_of_handle hi hrole)
    refine ⟨_, onArc_eq (s := { s with clones := s.clones + 1 }) hb hstep, rfl,
      .of_set hb rfl rfl rfl, ?_⟩
    refine h.after (h.buffers_set rfl (Nat.le_succ _) (fun b' hne => ⟨fun role => ?_, ?_⟩) ?_)
      (Nat.le_of_eq (List.length_set ..).symm) (fun z hz => ?_) (fun e he => .inl he)
    · rw [number_push, hrole', one_of_ne hne]
      rfl
    · rw [keepers_push, hkept, one_none]
      rfl
    · refine ⟨harc, Nat.succ_le_succ hok.clones, fun role => ?_, fun havailable => ?_,
        fun htaken => ?_⟩
      · rw [number_push, hrole', one_self]
        exact (oneMore_apply .held role _).trans (congrArg (· + _) (hok.number role))
      · rw [keepers_push, hkept, one_none]
        exact hok.available havailable
      · rw [keepers_push, hkept, one_none]
        exact hok.taken htaken
    · rcases List.mem_append.mp hz with hold | hnew
      · exact .inl hold
      · rw [List.mem_singleton.mp hnew]
        exact .inr (hy.mono (Nat.le_of_eq (List.length_set ..).symm))

theorem sound_clone (h : Inv s) (hr : Refines s slots) (hlt : s.clones < 2 ^ w) (i : ℕ) :
    Sound s slots (.clone i) (step s (.clone i)) := by
  rcases live_cases hr i with ⟨hblocked, hnot⟩ | ⟨x, value, hlive, hi, hpc, hread, hslot⟩
  · simp only [step, hblocked]
    exact ⟨rfl, impossible_of rfl hnot⟩
  · obtain ⟨s₁, hs₁, hhandles, hkeeps, hinv⟩ :=
      h.cloneOwnership hlt hi hpc (h.handles x (List.mem_of_getElem? hi)) rfl hpc
    simp only [step, hlive]
    show Sound s slots (.clone i) (s.cloneOwnership x.ownership >>= fun s => .ok (s.push x))
    rw [hs₁]
    refine ⟨hinv, slots ++ [.string (x.bytes value)], ?_, hr.push hkeeps ?_
      (.string hpc (hkeeps.read hread))⟩
    · simp only [Values.step, hslot]
    · show s₁.handles ++ [x] = _
      rw [hhandles]

theorem sound_usingValue (h : Inv s) (hr : Refines s slots) (hlt : s.clones < 2 ^ w) (i : ℕ)
    (part : Part) (utf8 : Utf8Policy) :
    Sound s slots (.usingValue i part utf8) (step s (.usingValue i part utf8)) := by
  rcases live_cases hr i with ⟨hblocked, hnot⟩ | ⟨x, value, hlive, hi, hpc, hread, hslot⟩
  · simp only [step, hblocked]
    exact ⟨rfl, impossible_of rfl hnot⟩
  have hload : s.load x.value = .ok value := by simp only [State.load, hread]
  have hx := h.handles x (List.mem_of_getElem? hi)
  simp only [step, bind, Except.bind, hlive, hload]
  by_cases hwithin : part.Within value
  swap
  · simp only [if_neg hwithin]
    refine ⟨rfl, ?_⟩
    simp only [Impossible, Values.step, hslot]
    exact if_neg hwithin
  have hvalues : Values.step slots (.usingValue i part utf8) =
      some (slots ++ [.string ((x.bytes value).usingValue (part.of value) utf8)]) := by
    simp only [Values.step, hslot]
    exact if_pos hwithin
  simp only [if_pos hwithin]
  split
  · rename_i hempty
    have hnil : part.of value = [] := List.isEmpty_iff.mp hempty
    refine ⟨h.push_none ⟨by simp, by simp, by simp [Pc.Converting, hpc]⟩ rfl hpc, _, hvalues,
      hr.push (.push _ _) rfl ?_⟩
    rw [hnil]
    exact .string hpc rfl
  · rename_i hnonempty
    have hplace : s.read (part.place x.value) = some (part.of value) := by
      cases part with
      | slice start len => exact read_part hread hwithin
      | static v => rfl
    have hok : HandleOk s { x with
        value := part.place x.value, utf8 := (x.bytes value).utf8ForPolicy utf8 } := by
      refine ⟨hx.lt, fun b start len hvalue => ?_, hx.converting⟩
      cases part with
      | slice start' len' =>
        cases hxv : x.value with
        | outside v =>
          simp only [Part.place, hxv, Place.part] at hvalue
          cases hvalue
        | inside b' start'' len'' =>
          simp only [Part.place, hxv, Place.part] at hvalue
          obtain ⟨rfl, -⟩ := Place.inside.inj hvalue
          exact hx.owns _ _ _ hxv
      | static v => cases hvalue
    obtain ⟨s₁, hs₁, hhandles, hkeeps, hinv⟩ := h.cloneOwnership hlt hi hpc hok rfl hpc
    rw [hs₁]
    refine ⟨hinv, _, hvalues, hr.push hkeeps (congrArg (· ++ _) hhandles) ?_⟩
    have hbytes : (x.bytes value).usingValue (part.of value) utf8 = Handle.bytes { x with
        value := part.place x.value, utf8 := (x.bytes value).utf8ForPolicy utf8 }
        (part.of value) := by
      unfold Bytes.usingValue
      rw [if_neg hnonempty]
      rfl
    rw [hbytes]
    exact .string hpc (hkeeps.read hplace)

/-! ### New buffers -/

theorem number_eq_zero (h : Inv s) {b : ℕ} (hge : s.buffers.length ≤ b) (role : ThinArc.Role) :
    s.number b role = 0 := by
  have hhandles : s.handles.countP (fun x => x.role = some (b, role)) = 0 := by
    refine List.countP_eq_zero.mpr fun x hx => ?_
    rw [decide_eq_true_eq]
    exact fun hrole =>
      absurd ((h.handles x hx).lt b (ownership_of_role hrole)) (Nat.not_lt.mpr hge)
  have hends : s.ends.countP (fun e => (e.1, e.2.role) = (b, role)) = 0 := by
    refine List.countP_eq_zero.mpr fun e he => ?_
    have := h.ends e he
    simp only [decide_eq_true_eq, Prod.mk.injEq, not_and]
    omega
  rw [State.number, hhandles, hends]

theorem keepers_eq_zero (h : Inv s) {b : ℕ} (hge : s.buffers.length ≤ b) : s.keepers b = 0 := by
  refine List.countP_eq_zero.mpr fun x hx => ?_
  rw [decide_eq_true_eq]
  exact fun hkept => absurd ((h.handles x hx).lt b (ownership_of_kept hkept)) (Nat.not_lt.mpr hge)

/-- What `from_vec` returns: a pointer and an owner of a buffer of one's own. -/
structure Made (s : State w) (value : List UInt8) (place : Place) (ownership : Option ℕ)
    (s₁ : State w) : Prop where
  handles : s₁.handles = s.handles
  ends : s₁.ends = s.ends
  clones : s₁.clones = s.clones
  keeps : Keeps s s₁
  le : s.buffers.length ≤ s₁.buffers.length
  read : s₁.read place = some value
  isSome : ownership.isSome = !value.isEmpty
  lt : ∀ b, ownership = some b → b < s₁.buffers.length
  owns : ∀ b start len, place = .inside b start len → ownership = some b
  /-- All buffers have the owners that they should, when one more owner is counted. -/
  buffers : ∀ s' : State w, s'.buffers = s₁.buffers → s'.clones = s.clones →
    (∀ b role, s'.number b role = s.number b role +
      one (ownership.map (fun b => (b, ThinArc.Role.held)) = some (b, role))) →
    (∀ b, s'.keepers b = s.keepers b) →
    ∀ (b : ℕ) (buffer : Buffer w), s'.buffers[b]? = some buffer → BufferOk s' b buffer

theorem Inv.fromVec (h : Inv s) (value : List UInt8) :
    ∃ place ownership s₁, s.fromVec value = (place, ownership, s₁) ∧
      Made s value place ownership s₁ := by
  unfold State.fromVec
  split
  · rename_i hempty
    obtain rfl := List.isEmpty_iff.mp hempty
    refine ⟨_, _, _, rfl, rfl, rfl, rfl, .of_eq rfl, Nat.le_refl _, rfl, rfl, by simp, by simp, ?_⟩
    intro s' hbuffers hclones hnumber hkeepers b buffer hb
    rw [hbuffers] at hb
    simp only [Option.map_none, one_none, Nat.add_zero] at hnumber
    exact (h.buffers b buffer hb).congr (Nat.le_of_eq hclones.symm) (hnumber b) (hkeepers b)
  · rename_i hnonempty
    refine ⟨_, _, _, rfl, rfl, rfl, rfl, .of_append rfl, by simp, ?_, by simpa using hnonempty,
      by simp, fun b start len hplace => congrArg some (Place.inside.inj hplace).1, ?_⟩
    · refine read_inside_eq_some_iff.mpr ⟨⟨ThinArc.new, value, .available, value⟩, ?_, rfl, ?_, ?_⟩
      · show (s.buffers ++ [_])[s.buffers.length]? = _
        rw [List.getElem?_append_right (Nat.le_refl _), Nat.sub_self]
        rfl
      · exact Nat.le_of_eq (Nat.zero_add _)
      · exact (List.take_length ..).symm
    · intro s' hbuffers hclones hnumber hkeepers b buffer hb
      rw [hbuffers] at hb
      rcases Nat.lt_or_ge b s.buffers.length with hlt | hge
      · rw [List.getElem?_append_left hlt] at hb
        refine (h.buffers b buffer hb).congr (Nat.le_of_eq hclones.symm) (fun role => ?_)
          (hkeepers b)
        rw [hnumber, Option.map_some, one_of_ne (Nat.ne_of_lt hlt), Nat.add_zero]
      · rw [List.getElem?_append_right hge, List.getElem?_singleton] at hb
        split at hb
        swap
        · cases hb
        obtain rfl := Option.some.inj hb
        have hself : b = s.buffers.length := by omega
        subst hself
        refine ⟨ThinArc.inv_new, Nat.zero_le _, fun role => ?_, fun _ => ⟨rfl, ?_⟩, fun hne => ?_⟩
        · rw [hnumber, number_eq_zero h hge, Option.map_some, one_self]
          exact oneMore_apply .held role fun _ => 0
        · rw [hkeepers, keepers_eq_zero h hge]
          rfl
        · exact absurd rfl hne

theorem sound_make (h : Inv s) (hr : Refines s slots) (init : Init) :
    Sound s slots (.make init) (step s (.make init)) := by
  cases init with
  | borrow value utf8 =>
    exact ⟨h.push_none ⟨by simp, by simp, by simp [Pc.Converting]⟩ rfl rfl, _, rfl,
      hr.push (.push _ _) rfl (.string rfl rfl)⟩
  | alloc value utf8 secret =>
    obtain ⟨place, ownership, s₁, hvec, hmade⟩ := h.fromVec value
    have hbytes : Init.bytes (.alloc value utf8 secret) =
        Handle.bytes ⟨.live, place, ownership, utf8, secret⟩ value := by
      show Bytes.ofVec value utf8 secret = _
      rw [Bytes.ofVec, ← hmade.isSome]
      rfl
    have hkeeps : Keeps s (s₁.push ⟨.live, place, ownership, utf8, secret⟩) := hmade.keeps
    simp only [step, hvec]
    refine ⟨h.after (hmade.buffers _ rfl hmade.clones (fun b role => ?_) fun b => ?_) hmade.le
      (fun x hx => ?_) (fun e he => .inl (hmade.ends ▸ he)), _, rfl,
      hr.push hkeeps (congrArg (· ++ _) hmade.handles) ?_⟩
    · rw [number_push]
      simp only [State.number, hmade.handles, hmade.ends]
      rfl
    · rw [keepers_push]
      simp only [State.keepers, hmade.handles]
      rfl
    · rcases List.mem_append.mp hx with hold | hnew
      · exact .inl (hmade.handles ▸ hold)
      · rw [List.mem_singleton.mp hnew]
        exact .inr ⟨hmade.lt, hmade.owns, by simp [Pc.Converting]⟩
    · rw [hbytes]
      exact .string rfl hmade.read

/-! ### Changing a string -/

theorem mem_set_cases {α : Type} {l : List α} {i : ℕ} {x y : α} (h : y ∈ l.set i x) :
    y ∈ l ∨ y = x :=
  List.mem_or_eq_of_mem_set h

/-- A string that has the owner it had. -/
theorem Inv.set_same (h : Inv s) {i : ℕ} {x y : Handle} (hi : s.handles[i]? = some x)
    (hrole : y.role = x.role) (hkept : y.kept = x.kept) (hy : HandleOk s y) : Inv (s.set i y) := by
  refine h.after (fun b buffer hb => (h.buffers b buffer hb).congr (Nat.le_refl _)
    (fun role => ?_) ?_) (Nat.le_refl _) (fun z hz => ?_) (fun e he => .inl he)
  · have := number_set b role hi y
    rw [hrole] at this
    exact Nat.add_right_cancel this
  · have := keepers_set b hi y
    rw [hkept] at this
    exact Nat.add_right_cancel this
  · rcases mem_set_cases hz with hold | rfl
    · exact .inl hold
    · exact .inr ⟨hy.lt, hy.owns, hy.converting⟩

/-- A string whose owner begins to be dropped. -/
theorem Inv.set_release (h : Inv s) {i : ℕ} {x y : Handle} (hi : s.handles[i]? = some x)
    (hrole : x.role = x.ownership.map fun b => (b, .held)) (hkept : x.kept = none)
    (hrole' : y.role = none) (hkept' : y.kept = none) (hy : HandleOk s y) :
    Inv ((s.set i y).release x.ownership) := by
  refine h.after (fun b buffer hb => (h.buffers b buffer hb).congr (Nat.le_refl _)
    (fun role => ?_) ?_) (Nat.le_refl _) (fun z hz => ?_) (fun e he => ?_)
  · have := number_set b role hi y
    rw [hrole', one_none, Nat.add_zero] at this
    rw [number_release, ← hrole]
    exact this
  · have := keepers_set b hi y
    rw [hkept, hkept'] at this
    exact Nat.add_right_cancel this
  · rcases mem_set_cases hz with hold | rfl
    · exact .inl hold
    · exact .inr ⟨hy.lt, hy.owns, hy.converting⟩
  · rcases List.mem_append.mp he with hold | hnew
    · exact .inl hold
    · cases hown : x.ownership with
      | none =>
        rw [hown] at hnew
        cases hnew
      | some b =>
        rw [hown] at hnew
        rw [List.mem_singleton.mp hnew]
        exact .inr ((h.handles x (List.mem_of_getElem? hi)).lt b hown)

/-- A string that gets a buffer of its own. -/
theorem Inv.set_fresh (h : Inv s) {i : ℕ} {x y : Handle} (hi : s.handles[i]? = some x)
    (hpc : x.pc = .live) {value : List UInt8} {s₁ : State w}
    (hmade : Made s value y.value y.ownership s₁) (hpc' : y.pc = .live) :
    Inv ((s₁.set i y).release x.ownership) := by
  have hrole : x.role = x.ownership.map fun b => (b, .held) := by simp [Handle.role, hpc]
  have hrole' : y.role = y.ownership.map fun b => (b, .held) := by simp [Handle.role, hpc']
  have hkept : x.kept = none := by simp [Handle.kept, hpc]
  have hkept' : y.kept = none := by simp [Handle.kept, hpc']
  have hi₁ : s₁.handles[i]? = some x := by rw [hmade.handles, hi]
  refine h.after (hmade.buffers _ rfl hmade.clones (fun b role => ?_) fun b => ?_) hmade.le
    (fun z hz => ?_) (fun e he => ?_)
  · have hset := number_set b role hi₁ y
    have hsame : s₁.number b role = s.number b role := by
      simp only [State.number, hmade.handles, hmade.ends]
    rw [number_release, ← hrole, ← hrole', hset, hsame]
  · have hset := keepers_set b hi₁ y
    have hsame : s₁.keepers b = s.keepers b := by
      simp only [State.keepers, hmade.handles]
    rw [hkept, hkept', hsame] at hset
    exact Nat.add_right_cancel hset
  · rcases mem_set_cases hz with hold | rfl
    · exact .inl (hmade.handles ▸ hold)
    · exact .inr ⟨hmade.lt, hmade.owns, by simp [Pc.Converting, hpc']⟩
  · rcases List.mem_append.mp he with hold | hnew
    · exact .inl (hmade.ends ▸ hold)
    · cases hown : x.ownership with
      | none =>
        rw [hown] at hnew
        cases hnew
      | some b =>
        rw [hown] at hnew
        rw [List.mem_singleton.mp hnew]
        exact .inr (Nat.lt_of_lt_of_le ((h.handles x (List.mem_of_getElem? hi)).lt b hown) hmade.le)

theorem sound_edit (h : Inv s) (hr : Refines s slots) (i : ℕ) (e : Edit) :
    Sound s slots (.edit i e) (step s (.edit i e)) := by
  rcases live_cases hr i with ⟨hblocked, hnot⟩ | ⟨x, value, hlive, hi, hpc, hread, hslot⟩
  · simp only [step, hblocked]
    exact ⟨rfl, impossible_of rfl hnot⟩
  have hload : s.load x.value = .ok value := by simp only [State.load, hread]
  have hx := h.handles x (List.mem_of_getElem? hi)
  have hvalues : Values.step slots (.edit i e) =
      some (slots.set i (.string (e.apply (x.bytes value)))) := by
    simp only [Values.step, hslot]
  have hspec := outcome_spec e (x.bytes value)
  simp only [step, bind, Except.bind, hlive, hload]
  generalize e.apply (x.bytes value) = b' at hspec hvalues
  generalize e.outcome (x.bytes value) = outcome at hspec
  cases outcome with
  | keep =>
    obtain ⟨hvalue, howning⟩ := hspec
    refine ⟨h.set_same hi rfl rfl ⟨hx.lt, hx.owns, hx.converting⟩, _, hvalues,
      hr.set rfl ((Keeps.set s i _).others i) ?_⟩
    have hb : b' = Handle.bytes { x with utf8 := b'.utf8, secret := b'.isSecret } value :=
      Bytes.ext hvalue howning rfl rfl
    rw [hb]
    exact .string hpc hread
  | part start len =>
    obtain ⟨hle, hvalue, howning⟩ := hspec
    refine ⟨h.set_same hi rfl rfl ⟨hx.lt, fun b start' len' hplace => ?_, hx.converting⟩, _,
      hvalues,
      hr.set rfl ((Keeps.set s i _).others i) ?_⟩
    · cases hxv : x.value with
      | outside v =>
        simp only [hxv, Place.part] at hplace
        cases hplace
      | inside b' start'' len'' =>
        simp only [hxv, Place.part] at hplace
        obtain ⟨rfl, -⟩ := Place.inside.inj hplace
        exact hx.owns _ _ _ hxv
    · have hb : b' = Handle.bytes { x with
          value := x.value.part start len, utf8 := b'.utf8, secret := b'.isSecret }
          ((value.drop start).take len) := Bytes.ext hvalue howning rfl rfl
      rw [hb]
      exact .string hpc (read_part hread hle)
  | fresh v =>
    obtain ⟨hvalue, howning⟩ := hspec
    obtain ⟨place, ownership, s₁, hvec, hmade⟩ := h.fromVec v
    simp only [edited, hvec]
    have hinv := h.set_fresh hi hpc (y := ⟨.live, place, ownership, b'.utf8, b'.isSecret⟩) hmade rfl
    have hkeeps : Keeps s ((s₁.set i ⟨.live, place, ownership, b'.utf8, b'.isSecret⟩).release
      x.ownership) := hmade.keeps
    refine ⟨hinv, _, hvalues,
      hr.set (congrArg (fun l : List Handle => l.set i _) hmade.handles) (hkeeps.others i) ?_⟩
    have hb : b' = Handle.bytes ⟨.live, place, ownership, b'.utf8, b'.isSecret⟩ v :=
      Bytes.ext hvalue (howning.trans hmade.isSome.symm) rfl rfl
    rw [hb]
    exact .string rfl hmade.read

/-! ### Accesses to a block -/

theorem oneLess_add {number : ThinArc.Role → ℕ} {role : ThinArc.Role} (hpos : 0 < number role)
    (role' : ThinArc.Role) :
    ThinArc.oneLess role number role' + one (role' = role) = number role' := by
  rw [oneLess_apply]
  by_cases h : role' = role
  · subst h
    simp only [one, if_pos]
    omega
  · simp only [one, if_neg h, Nat.sub_zero, Nat.add_zero]

theorem one_role_of_ne {x : Handle} {b b' : ℕ} (hown : x.ownership = some b) (hne : b' ≠ b)
    (role : ThinArc.Role) : one (x.role = some (b', role)) = 0 :=
  if_neg fun hrole => hne (Option.some.inj ((ownership_of_role hrole).symm.trans hown))

theorem one_kept_of_ne {x : Handle} {b b' : ℕ} (hown : x.ownership = some b) (hne : b' ≠ b) :
    one (x.kept = some b') = 0 :=
  if_neg fun hkept => hne (Option.some.inj ((ownership_of_kept hkept).symm.trans hown))

/-- The buffer of a string is there as long as the string has not been made into a `Vec`. -/
theorem BufferOk.available_of {b : ℕ} {buffer : Buffer w} (hok : BufferOk s b buffer) {i : ℕ}
    {x : Handle} (hi : s.handles[i]? = some x)
    (h : x.kept = some b ∨ ∃ role, x.role = some (b, role) ∧ role ≠ .deallocating) :
    buffer.status = .available := by
  by_contra hne
  obtain ⟨hone, hnone⟩ := hok.taken hne
  rcases h with hkept | ⟨role, hrole, hrole'⟩
  · exact absurd hnone (Nat.pos_iff_ne_zero.mp (keepers_pos hi hkept))
  · have hpos : 0 < buffer.arc.number role := by
      rw [hok.number]
      exact number_pos_of_handle hi hrole
    obtain ⟨hdropped, htaken⟩ := hok.arc.present hpos hrole'
    omega

/-- **An access to the block of a string**, after which the string is about to do something else. -/
theorem Inv.arc_set (h : Inv s) (hlt : s.clones < 2 ^ w) {i b : ℕ} {x y : Handle}
    {buffer : Buffer w} (hi : s.handles[i]? = some x) (hown : x.ownership = some b)
    (hb : s.buffers[b]? = some buffer) {a : ThinArc.Action} (hrole : x.role = some (b, a.role))
    (havailable : buffer.status = .available)
    (hyown : y.ownership = some b) (hyvalue : y.value = x.value)
    (hnumber : 0 < buffer.arc.number a.role → ∀ role,
      (ThinArc.act buffer.arc a).number role + one (role = a.role) =
        buffer.arc.number role + one (y.role = some (b, role)))
    (hkept : (ThinArc.act buffer.arc a).taken + one (x.kept = some b) =
      buffer.arc.taken + one (y.kept = some b))
    (hdropped : (ThinArc.act buffer.arc a).dropped = buffer.arc.dropped)
    (hclones : (ThinArc.act buffer.arc a).clones = buffer.arc.clones) :
    ∃ s₁, s.onArc b a = .ok s₁ ∧ s₁.handles = s.handles ∧ Keeps s (s₁.set i y) ∧
      Inv (s₁.set i y) := by
  have hok := h.buffers b buffer hb
  have hpos := number_pos_of_handle hi hrole
  obtain ⟨hstep, harc⟩ := hok.arc_step hlt hpos
  have hx := h.handles x (List.mem_of_getElem? hi)
  refine ⟨_, onArc_eq hb hstep, rfl, .of_set hb rfl rfl rfl, ?_⟩
  refine h.after (h.buffers_set rfl (Nat.le_refl _) (fun b' hne => ⟨fun role => ?_, ?_⟩) ?_)
    (Nat.le_of_eq (List.length_set ..).symm) (fun z hz => ?_) (fun e he => .inl he)
  · have hset := number_set b' role hi y
    rw [one_role_of_ne hown hne, one_role_of_ne hyown hne] at hset
    exact hset
  · have hset := keepers_set b' hi y
    rw [one_kept_of_ne hown hne, one_kept_of_ne hyown hne] at hset
    exact hset
  · refine ⟨harc, hclones ▸ hok.clones, fun role => ?_, fun _ => ⟨?_, ?_⟩,
      fun hne => absurd havailable hne⟩
    · have hset := number_set b role hi y
      have hsame := hnumber (by rw [hok.number]; exact hpos) role
      rw [hok.number role] at hsame
      rw [hrole, one_self] at hset
      exact Nat.add_right_cancel (hsame.trans hset.symm)
    · exact hdropped.trans (hok.available havailable).1
    · have hset := keepers_set b hi y
      have hsame := (hok.available havailable).2
      rw [← hsame] at hkept
      exact Nat.add_right_cancel (hset.trans hkept.symm)
  · rcases mem_set_cases hz with hold | rfl
    · exact .inl hold
    · refine .inr ⟨fun b' hb' => ?_, fun b' start len hplace => ?_, by simp [hyown]⟩
      · rw [hyown] at hb'
        exact Nat.lt_of_lt_of_eq (hx.lt b' (hown.trans hb')) (List.length_set ..).symm
      · rw [hyvalue] at hplace
        rw [hyown, ← hown]
        exact hx.owns b' start len hplace

theorem sound_intoVec (h : Inv s) (hr : Refines s slots) (hlt : s.clones < 2 ^ w) (i : ℕ) :
    Sound s slots (.intoVec i) (step s (.intoVec i)) := by
  rcases live_cases hr i with ⟨hblocked, hnot⟩ |
    ⟨⟨pc, place, ownership, utf8, secret⟩, value, hlive, hi, hpc, hread, hslot⟩
  · simp only [step, hblocked]
    exact ⟨rfl, impossible_of rfl hnot⟩
  obtain rfl : pc = .live := hpc
  have hload : s.load place = .ok value := by simp only [State.load, hread]
  have hvalues : Values.step slots (.intoVec i) = some (slots.set i (.vec value)) := by
    simp only [Values.step, hslot]
    rfl
  simp only [step, bind, Except.bind, hlive]
  cases ownership with
  | none =>
    have hx := h.handles _ (List.mem_of_getElem? hi)
    simp only [hload]
    exact ⟨h.set_same hi rfl rfl ⟨hx.lt, hx.owns, by simp [Pc.Converting]⟩, _, hvalues,
      hr.set rfl ((Keeps.set s i _).others i) (.vec rfl)⟩
  | some b =>
    obtain ⟨buffer, hb, hok⟩ := h.exists_buffer hi rfl
    have havailable := hok.available_of hi (.inr ⟨.held, rfl, by simp⟩)
    have hsole : s.sole b = decide (buffer.arc.rc = 1) := by simp only [State.sole, hb]
    by_cases hone : buffer.arc.rc = 1
    · have hact : ThinArc.act buffer.arc .tryUnwrap = { buffer.arc.touch with
          number := ThinArc.oneMore .reading (ThinArc.oneLess .held buffer.arc.number) } :=
        if_pos hone
      obtain ⟨s₁, hs₁, hhandles, hkeeps, hinv⟩ := h.arc_set hlt hi rfl hb (a := .tryUnwrap) rfl
        havailable (y := ⟨.reading, place, some b, utf8, secret⟩) rfl rfl
        (fun hpos role => by
          rw [hact]
          show ThinArc.oneMore .reading (ThinArc.oneLess .held buffer.arc.number) role +
            one (role = .held) = _ + one (some (b, ThinArc.Role.reading) = some (b, role))
          rw [one_self, oneMore_apply, Nat.add_right_comm]
          exact congrArg (· + _) (oneLess_add hpos role))
        (by rw [hact]; rfl) (by rw [hact]; rfl) (by rw [hact]; rfl)
      simp only [hsole, hone, decide_true, if_true, hs₁]
      exact ⟨hinv, _, hvalues, hr.set (congrArg (fun l : List Handle => l.set i _) hhandles)
        (hkeeps.others i) (.converting (.inl rfl) (hkeeps.read hread))⟩
    · have hact : ThinArc.act buffer.arc .tryUnwrap = buffer.arc.touch := if_neg hone
      obtain ⟨s₁, hs₁, hhandles, hkeeps, hinv⟩ := h.arc_set hlt hi rfl hb (a := .tryUnwrap) rfl
        havailable (y := ⟨.copying, place, some b, utf8, secret⟩) rfl rfl
        (fun _ role => by
          rw [hact]
          show buffer.arc.number role + one (role = .held) =
            _ + one (some (b, ThinArc.Role.held) = some (b, role))
          rw [one_self])
        (by rw [hact]; rfl) (by rw [hact]; rfl) (by rw [hact]; rfl)
      simp only [hsole, hone, decide_false, Bool.false_eq_true, if_false, hs₁]
      exact ⟨hinv, _, hvalues, hr.set (congrArg (fun l : List Handle => l.set i _) hhandles)
        (hkeeps.others i) (.converting (.inr (.inr (.inr rfl))) (hkeeps.read hread))⟩

theorem sound_drop (h : Inv s) (hr : Refines s slots) (i : ℕ) :
    Sound s slots (.drop i) (step s (.drop i)) := by
  rcases live_cases hr i with ⟨hblocked, hnot⟩ | ⟨x, value, hlive, hi, hpc, -, hslot⟩
  · simp only [step, hblocked]
    exact ⟨rfl, impossible_of rfl hnot⟩
  have hx := h.handles x (List.mem_of_getElem? hi)
  have hrole : x.role = x.ownership.map fun b => (b, .held) := by simp [Handle.role, hpc]
  have hkept : x.kept = none := by simp [Handle.kept, hpc]
  have hkeeps : Keeps s ((s.set i { x with pc := .gone }).release x.ownership) := .of_eq rfl
  simp only [step, bind, Except.bind, hlive]
  refine ⟨h.set_release hi hrole hkept rfl rfl ⟨hx.lt, hx.owns, by simp [Pc.Converting]⟩,
    slots.set i .gone, ?_, hr.set rfl (hkeeps.others i) (.gone rfl)⟩
  simp only [Values.step, hslot]

theorem sound_forget (h : Inv s) (hr : Refines s slots) (hlt : s.clones < 2 ^ w) (i : ℕ) :
    Sound s slots (.forget i) (step s (.forget i)) := by
  rcases live_cases hr i with ⟨hblocked, hnot⟩ |
    ⟨⟨pc, place, ownership, utf8, secret⟩, value, hlive, hi, hpc, -, hslot⟩
  · simp only [step, hblocked]
    exact ⟨rfl, impossible_of rfl hnot⟩
  obtain rfl : pc = .live := hpc
  have hvalues : Values.step slots (.forget i) = some (slots.set i .gone) := by
    simp only [Values.step, hslot]
  simp only [step, bind, Except.bind, hlive]
  cases ownership with
  | none =>
    have hx := h.handles _ (List.mem_of_getElem? hi)
    exact ⟨h.set_same hi rfl rfl ⟨hx.lt, hx.owns, by simp [Pc.Converting]⟩, _, hvalues,
      hr.set rfl ((Keeps.set s i _).others i) (.gone rfl)⟩
  | some b =>
    obtain ⟨buffer, hb, hok⟩ := h.exists_buffer hi rfl
    have havailable := hok.available_of hi (.inr ⟨.held, rfl, by simp⟩)
    obtain ⟨s₁, hs₁, hhandles, hkeeps, hinv⟩ := h.arc_set hlt hi rfl hb (a := .forget) rfl
      havailable (y := ⟨.gone, place, some b, utf8, secret⟩) rfl rfl
      (fun hpos role => oneLess_add hpos role) rfl rfl rfl
    simp only [hs₁]
    exact ⟨hinv, _, hvalues, hr.set (congrArg (fun l : List Handle => l.set i _) hhandles)
      (hkeeps.others i) (.gone rfl)⟩

/-! ### The rest of `into_vec` -/

/-- Strings that do not point into a buffer can be read without it. -/
theorem Shows.of_set {s' : State w} {b : ℕ} {buffer' : Buffer w} {x : Handle} {slot : Slot}
    (hshows : Shows s x slot) (hset : s'.buffers = s.buffers.set b buffer')
    (hnot : (∃ value, s.read x.value = some value) →
      (x.pc = .live ∨ x.pc.Converting) →
      ∀ start len, x.value ≠ .inside b start len) : Shows s' x slot := by
  have hread (value : List UInt8) (hv : s.read x.value = some value)
      (hne : ∀ start len, x.value ≠ .inside b start len) : s'.read x.value = some value := by
    cases hx : x.value with
    | outside v =>
      rw [hx] at hv
      exact hv
    | inside b' start len =>
      rw [hx] at hv
      have hb : b ≠ b' := fun heq => hne start len (heq ▸ hx)
      obtain ⟨buffer, hbuffer, hrest⟩ := read_inside_eq_some_iff.mp hv
      exact read_inside_eq_some_iff.mpr
        ⟨buffer, by rw [hset, List.getElem?_set_ne hb, hbuffer], hrest⟩
  cases hshows with
  | string hpc hv => exact .string hpc (hread _ hv (hnot ⟨_, hv⟩ (.inl hpc)))
  | converting hpc hv => exact .converting hpc (hread _ hv (hnot ⟨_, hv⟩ (.inr hpc)))
  | vec hpc => exact .vec hpc
  | gone hpc => exact .gone hpc

/-- What a string with an owner is to its block, while it can be read. -/
theorem role_of_active {x : Handle} {b : ℕ} (hown : x.ownership = some b)
    (hpc : x.pc = .live ∨ x.pc.Converting) :
    x.kept = some b ∨ x.role = some (b, .held) ∨ x.role = some (b, .reading) := by
  rcases hpc with hpc | hpc | hpc | hpc | hpc <;> simp [Handle.kept, Handle.role, hpc, hown]

theorem two_le_keepers {i k b : ℕ} {x y : Handle} (hi : s.handles[i]? = some x)
    (hk : s.handles[k]? = some y) (hne : k ≠ i) (hx : x.kept = some b) (hy : y.kept = some b) :
    2 ≤ s.keepers b := by
  have hset := keepers_set b hi { x with pc := .gone }
  have hpos := keepers_pos (s := s.set i { x with pc := .gone }) (i := k) (x := y)
    (by rw [State.set, List.getElem?_set_ne (Ne.symm hne), hk]) hy
  have hnone : Handle.kept { x with pc := .gone } = none := rfl
  rw [hnone, one_none, hx] at hset
  simp only [one, if_pos] at hset
  omega

/-- **The memory of a buffer is taken** by the string that has it. -/
theorem sound_take (h : Inv s) (hr : Refines s slots) {i b : ℕ} {x : Handle} {value : List UInt8}
    (hi : s.handles[i]? = some x) (hpc : x.pc = .unwrapped) (hown : x.ownership = some b)
    (hslot : slots[i]? = some (.vec value)) {status : Status} (hstatus : status ≠ .available)
    (wipe : Bool) :
    ∃ s₁, s.take b status wipe = .ok s₁ ∧ Inv (s₁.set i { x with pc := .vec value }) ∧
      Refines (s₁.set i { x with pc := .vec value }) slots := by
  obtain ⟨buffer, hb, hok⟩ := h.exists_buffer hi hown
  have hx := h.handles x (List.mem_of_getElem? hi)
  have hkept : x.kept = some b := by simp [Handle.kept, hpc, hown]
  have hrole : x.role = none := by simp [Handle.role, hpc]
  have havailable := hok.available_of hi (.inl hkept)
  obtain ⟨hdropped, hkeepers⟩ := hok.available havailable
  have hpos := keepers_pos hi hkept
  have hone : buffer.arc.dropped + buffer.arc.taken = 1 := by
    have honce := hok.arc.once
    omega
  refine ⟨_, take_eq hb havailable status wipe, ?_,
    hr.set_same hslot rfl (fun k y slot hne hk hshows => ?_) (.vec rfl)⟩
  · refine h.after (h.buffers_set rfl (Nat.le_refl _) (fun b' hne => ⟨fun role => ?_, ?_⟩) ?_)
      (Nat.le_of_eq (List.length_set ..).symm) (fun z hz => ?_) (fun e he => .inl he)
    · have hset := number_set b' role hi { x with pc := .vec value }
      rw [one_role_of_ne hown hne] at hset
      exact hset
    · have hset := keepers_set b' hi { x with pc := .vec value }
      rw [one_kept_of_ne hown hne] at hset
      exact hset
    · refine ⟨hok.arc, hok.clones, fun role => (hok.number role).trans ?_,
        fun heq => absurd heq hstatus, fun _ => ⟨hone, ?_⟩⟩
      · have hset := number_set b role hi { x with pc := .vec value }
        rw [hrole, one_none] at hset
        exact hset.symm
      · have hset := keepers_set b hi { x with pc := .vec value }
        have hnone : Handle.kept { x with pc := .vec value } = none := rfl
        rw [hkept, hnone, one_none] at hset
        simp only [one, if_pos] at hset
        show (s.set i { x with pc := .vec value }).keepers b = 0
        omega
    · rcases mem_set_cases hz with hold | rfl
      · exact .inl hold
      · exact .inr ⟨fun b' hb' => Nat.lt_of_lt_of_eq (hx.lt b' hb') (List.length_set ..).symm,
          hx.owns, by simp [Pc.Converting]⟩
  · refine hshows.of_set rfl fun _ hactive start len hvalue => ?_
    have hown' := (h.handles y (List.mem_of_getElem? hk)).owns b start len hvalue
    rcases role_of_active hown' hactive with hkept' | hrole' | hrole'
    · have := two_le_keepers hi hk hne hkept hkept'
      omega
    · have hheld := number_pos_of_handle hk hrole'
      rw [← hok.number] at hheld
      have := hok.arc.present hheld (by simp)
      omega
    · have hreading := number_pos_of_handle hk hrole'
      rw [← hok.number] at hreading
      have := hok.arc.present hreading (by simp)
      omega

/-- A string that is being made into a `Vec`. -/
theorem converting_cases {i : ℕ} {x : Handle} (hr : Refines s slots) (hi : s.handles[i]? = some x)
    (hpc : x.pc.Converting) :
    ∃ value, slots[i]? = some (.vec value) ∧ s.read x.value = some value := by
  obtain ⟨slot, hslot, hshows⟩ := hr.slot_of hi
  cases hshows with
  | string hother _ =>
    rw [hother] at hpc
    simp [Pc.Converting] at hpc
  | converting _ hread => exact ⟨_, hslot, hread⟩
  | vec hother =>
    rw [hother] at hpc
    simp [Pc.Converting] at hpc
  | gone hother =>
    rw [hother] at hpc
    simp [Pc.Converting] at hpc

theorem sound_next (h : Inv s) (hr : Refines s slots) (hlt : s.clones < 2 ^ w) (i : ℕ) :
    Sound s slots (.next i) (step s (.next i)) := by
  simp only [step]
  cases hi : s.handles[i]? with
  | none => exact ⟨rfl, fun x hx => by rw [hi] at hx; cases hx⟩
  | some x =>
    have himpossible (hnot : ¬x.pc.Converting) : Impossible s slots (.next i) := fun y hy =>
      Option.some.inj (hi.symm.trans hy) ▸ hnot
    have hx := (h.handles x (List.mem_of_getElem? hi)).converting
    obtain ⟨pc, place, ownership, utf8, secret⟩ := x
    cases ownership with
    | none =>
      have hnot : ¬pc.Converting := fun hpc => hx hpc rfl
      cases pc <;> exact ⟨rfl, himpossible hnot⟩
    | some b =>
      obtain ⟨buffer, hb, hok⟩ := h.exists_buffer hi rfl
      cases pc with
      | live | vec | gone => exact ⟨rfl, himpossible (by simp [Pc.Converting])⟩
      | reading =>
        obtain ⟨value, hslot, hread⟩ := converting_cases hr hi (.inl rfl)
        have havailable := hok.available_of hi (.inr ⟨.reading, rfl, by simp⟩)
        obtain ⟨s₁, hs₁, hhandles, hkeeps, hinv⟩ := h.arc_set hlt hi rfl hb (a := .read) rfl
          havailable (y := ⟨.freeing, place, some b, utf8, secret⟩) rfl rfl
          (fun hpos role => by
            show ThinArc.oneMore .deallocating (ThinArc.oneLess .reading buffer.arc.number) role +
              one (role = .reading) = _ + one (some (b, ThinArc.Role.deallocating) = some (b, role))
            rw [one_self, oneMore_apply, Nat.add_right_comm]
            exact congrArg (· + _) (oneLess_add hpos role))
          (by simp [ThinArc.act, Handle.kept, one]) rfl rfl
        simp only [next, bind, Except.bind, hs₁]
        exact ⟨hinv, _, rfl, hr.set_same hslot (congrArg (fun l : List Handle => l.set i _) hhandles)
          (hkeeps.others i) (.converting (.inr (.inl rfl)) (hkeeps.read hread))⟩
      | freeing =>
        obtain ⟨value, hslot, hread⟩ := converting_cases hr hi (.inr (.inl rfl))
        have havailable := hok.available_of hi (.inl rfl)
        obtain ⟨s₁, hs₁, hhandles, hkeeps, hinv⟩ := h.arc_set hlt hi rfl hb (a := .dealloc) rfl
          havailable (y := ⟨.unwrapped, place, some b, utf8, secret⟩) rfl rfl
          (fun hpos role => oneLess_add hpos role) rfl rfl rfl
        simp only [next, bind, Except.bind, hs₁]
        exact ⟨hinv, _, rfl, hr.set_same hslot (congrArg (fun l : List Handle => l.set i _) hhandles)
          (hkeeps.others i) (.converting (.inr (.inr (.inl rfl))) (hkeeps.read hread))⟩
      | unwrapped =>
        obtain ⟨value, hslot, hread⟩ := converting_cases hr hi (.inr (.inr (.inl rfl)))
        have hload : s.load place = .ok value := by simp only [State.load, hread]
        simp only [next, bind, Except.bind, hload]
        split
        · obtain ⟨s₁, hs₁, hinv, hrefines⟩ :=
            sound_take h hr hi rfl rfl hslot (show Status.given ≠ .available by simp) false
          simp only [hs₁]
          exact ⟨hinv, _, rfl, hrefines⟩
        · obtain ⟨s₁, hs₁, hinv, hrefines⟩ :=
            sound_take h hr hi rfl rfl hslot (show Status.freed ≠ .available by simp) secret
          simp only [hs₁]
          exact ⟨hinv, _, rfl, hrefines⟩
      | copying =>
        obtain ⟨value, hslot, hread⟩ := converting_cases hr hi (.inr (.inr (.inr rfl)))
        have hload : s.load place = .ok value := by simp only [State.load, hread]
        have hx := h.handles _ (List.mem_of_getElem? hi)
        have hkeeps : Keeps s
            ((s.set i ⟨.vec value, place, some b, utf8, secret⟩).release (some b)) := .of_eq rfl
        simp only [next, bind, Except.bind, hload]
        exact ⟨h.set_release hi rfl rfl rfl rfl ⟨hx.lt, hx.owns, by simp [Pc.Converting]⟩, _, rfl,
          hr.set_same hslot rfl (hkeeps.others i) (.vec rfl)⟩

/-! ### Drops -/

/-- **An access to a block whose owner is being dropped.** -/
theorem Inv.arc_ends (h : Inv s) (hlt : s.clones < 2 ^ w) {b : ℕ} {buffer : Buffer w}
    (hb : s.buffers[b]? = some buffer) {a : ThinArc.Action} {status : Status} {ends : List (ℕ × End)}
    (hpos : 0 < s.number b a.role)
    (hnumber : ∀ role, ({ s with ends := ends } : State w).number b role =
      (ThinArc.act buffer.arc a).number role)
    (hothers : ∀ b' role, b' ≠ b → ({ s with ends := ends } : State w).number b' role =
      s.number b' role)
    (hends : ∀ e ∈ ends, e ∈ s.ends ∨ e.1 = b)
    (hclones : (ThinArc.act buffer.arc a).clones = buffer.arc.clones)
    (havailable : status = .available → (ThinArc.act buffer.arc a).dropped = 0 ∧
      s.keepers b = (ThinArc.act buffer.arc a).taken)
    (htaken : status ≠ .available → (ThinArc.act buffer.arc a).dropped +
      (ThinArc.act buffer.arc a).taken = 1 ∧ s.keepers b = 0) :
    Inv ({ s with
      buffers := s.buffers.set b { buffer with
        arc := ThinArc.act buffer.arc a, status := status }
      ends := ends } : State w) := by
  have hok := h.buffers b buffer hb
  obtain ⟨-, harc⟩ := hok.arc_step hlt hpos
  have hlt' := (List.getElem?_eq_some_iff.mp hb).1
  refine h.after (h.buffers_set rfl (Nat.le_refl _)
    (fun b' hne => ⟨fun role => hothers b' role hne, rfl⟩) ?_)
    (Nat.le_of_eq (List.length_set ..).symm) (fun z hz => .inl hz) (fun e he => ?_)
  · exact ⟨harc, hclones ▸ hok.clones, fun role => (hnumber role).symm, havailable, htaken⟩
  · refine (hends e he).imp_right fun heq => ?_
    rw [heq]
    exact Nat.lt_of_lt_of_eq hlt' (List.length_set ..).symm

theorem number_setEnd {j b : ℕ} {pc : End} (hj : s.ends[j]? = some (b, pc)) (pc' : End) (b' : ℕ)
    (role : ThinArc.Role) :
    ({ s with ends := s.ends.set j (b, pc') } : State w).number b' role +
        one ((b, pc.role) = (b', role)) =
      s.number b' role + one ((b, pc'.role) = (b', role)) := by
  have hset : (s.ends.set j (b, pc')).countP (fun e => (e.1, e.2.role) = (b', role)) +
      one ((b, pc.role) = (b', role)) = s.ends.countP (fun e => (e.1, e.2.role) = (b', role)) +
        one ((b, pc'.role) = (b', role)) :=
    countP_set_add (fun e : ℕ × End => (e.1, e.2.role) = (b', role)) hj (b, pc')
  simp only [State.number]
  omega

theorem number_eraseEnd {j b : ℕ} {pc : End} (hj : s.ends[j]? = some (b, pc)) (b' : ℕ)
    (role : ThinArc.Role) :
    ({ s with ends := s.ends.eraseIdx j } : State w).number b' role +
      one ((b, pc.role) = (b', role)) = s.number b' role := by
  have herase : (s.ends.eraseIdx j).countP (fun e => (e.1, e.2.role) = (b', role)) +
      one ((b, pc.role) = (b', role)) = s.ends.countP fun e => (e.1, e.2.role) = (b', role) :=
    countP_eraseIdx_add (fun e : ℕ × End => (e.1, e.2.role) = (b', role)) hj
  simp only [State.number]
  omega

theorem one_pair_of_ne {b b' : ℕ} (h : b' ≠ b) (role role' : ThinArc.Role) :
    one ((b, role) = (b', role')) = 0 :=
  if_neg fun heq => h (Prod.mk.inj heq).1.symm

theorem one_pair_self (b : ℕ) (role role' : ThinArc.Role) :
    one ((b, role) = (b, role')) = one (role' = role) := by
  by_cases h : role' = role
  · subst h
    simp [one]
  · rw [one, one, if_neg h, if_neg fun heq => h (Prod.mk.inj heq).2.symm]

/-- What changes when the owner that is dropped goes from one step to the next. -/
theorem number_ends {j b : ℕ} {pc : End} {buffer : Buffer w} (hok : BufferOk s b buffer)
    (hj : s.ends[j]? = some (b, pc)) (role : ThinArc.Role) :
    (∀ pc' : End, ({ s with ends := s.ends.set j (b, pc') } : State w).number b role =
      ThinArc.oneMore pc'.role (ThinArc.oneLess pc.role buffer.arc.number) role) ∧
    ({ s with ends := s.ends.eraseIdx j } : State w).number b role =
      ThinArc.oneLess pc.role buffer.arc.number role := by
  have hless : ThinArc.oneLess pc.role buffer.arc.number role + one (role = pc.role) =
      s.number b role := by
    rw [oneLess_add (by rw [hok.number]; exact number_pos_of_end hj), hok.number]
  constructor
  · intro pc'
    have hset := number_setEnd hj pc' b role
    rw [one_pair_self, one_pair_self] at hset
    rw [oneMore_apply]
    omega
  · have herase := number_eraseEnd hj b role
    rw [one_pair_self] at herase
    omega

theorem number_ends_of_ne {j b : ℕ} {pc : End} (hj : s.ends[j]? = some (b, pc)) (b' : ℕ)
    (role : ThinArc.Role) (hne : b' ≠ b) :
    (∀ pc' : End, ({ s with ends := s.ends.set j (b, pc') } : State w).number b' role =
      s.number b' role) ∧
    ({ s with ends := s.ends.eraseIdx j } : State w).number b' role = s.number b' role := by
  constructor
  · intro pc'
    have hset := number_setEnd hj pc' b' role
    rwa [one_pair_of_ne hne, one_pair_of_ne hne] at hset
  · have herase := number_eraseEnd hj b' role
    rwa [one_pair_of_ne hne] at herase

/-- The last owner is about to free the buffer: nobody else can read it. -/
theorem not_inside_of_destroying (h : Inv s) {b : ℕ} {buffer : Buffer w} (hok : BufferOk s b buffer)
    (hpos : 0 < s.number b .destroying) {k : ℕ} {y : Handle} (hk : s.handles[k]? = some y)
    (hactive : y.pc = .live ∨ y.pc.Converting) (start len : ℕ) : y.value ≠ .inside b start len := by
  intro hvalue
  have hown := (h.handles y (List.mem_of_getElem? hk)).owns b start len hvalue
  rw [← hok.number] at hpos
  obtain ⟨hdropped, htaken⟩ := hok.arc.present hpos (by simp)
  rcases role_of_active hown hactive with hkept | hrole | hrole
  · have hkeeper := keepers_pos hk hkept
    have havailable := hok.available_of hk (.inl hkept)
    have := (hok.available havailable).2
    omega
  · have hheld := number_pos_of_handle hk hrole
    rw [← hok.number, hok.arc.alone hpos (by simp) (by simp)] at hheld
    exact Nat.lt_irrefl 0 hheld
  · have hreading := number_pos_of_handle hk hrole
    rw [← hok.number, hok.arc.alone hpos (by simp) (by simp)] at hreading
    exact Nat.lt_irrefl 0 hreading

theorem sound_finish (h : Inv s) (hr : Refines s slots) (hlt : s.clones < 2 ^ w) (j : ℕ) :
    Sound s slots (.finish j) (step s (.finish j)) := by
  simp only [step]
  cases hj : s.ends[j]? with
  | none => exact ⟨rfl, List.getElem?_eq_none_iff.mp hj⟩
  | some e =>
    obtain ⟨b, pc⟩ := e
    obtain ⟨buffer, hb⟩ : ∃ buffer, s.buffers[b]? = some buffer :=
      ⟨_, List.getElem?_eq_getElem (h.ends _ (List.mem_of_getElem? hj))⟩
    have hok := h.buffers b buffer hb
    have hpos := number_pos_of_end hj
    have hset (pc' : End) : ∀ e ∈ s.ends.set j (b, pc'), e ∈ s.ends ∨ e.1 = b := fun e he =>
      (mem_set_cases he).imp_right fun heq => by rw [heq]
    have herase : ∀ e ∈ s.ends.eraseIdx j, e ∈ s.ends ∨ e.1 = b := fun e he =>
      .inl (List.mem_of_mem_eraseIdx he)
    cases pc with
    | releasing =>
      obtain ⟨hstep, -⟩ := hok.arc_step hlt (a := .drop) hpos
      have hsole : s.sole b = decide (buffer.arc.rc = 1) := by simp only [State.sole, hb]
      simp only [finish, bind, Except.bind, onArc_eq hb hstep, hsole]
      by_cases hone : buffer.arc.rc = 1
      · have hnumber : (ThinArc.act buffer.arc .drop).number =
            ThinArc.oneMore .destroying (ThinArc.oneLess .held buffer.arc.number) := if_pos hone
        simp only [hone, decide_true, if_true]
        refine ⟨h.arc_ends hlt hb hpos (fun role => ?_)
          (fun b' role hne => (number_ends_of_ne hj b' role hne).1 .destroying) (hset .destroying)
          rfl hok.available hok.taken, _, rfl, hr.of_handles (.of_set hb rfl rfl rfl) rfl⟩
        rw [hnumber]
        exact (number_ends hok hj role).1 .destroying
      · have hnumber : (ThinArc.act buffer.arc .drop).number =
            ThinArc.oneLess .held buffer.arc.number := if_neg hone
        simp only [hone, decide_false, Bool.false_eq_true, if_false]
        refine ⟨h.arc_ends hlt hb hpos (fun role => ?_)
          (fun b' role hne => (number_ends_of_ne hj b' role hne).2) herase rfl hok.available
          hok.taken, _, rfl, hr.of_handles (.of_set hb rfl rfl rfl) rfl⟩
        rw [hnumber]
        exact (number_ends hok hj role).2
    | destroying =>
      obtain ⟨hstep, -⟩ := hok.arc_step hlt (a := .destroy) hpos
      have hpos' : 0 < buffer.arc.number .destroying := by
        rw [hok.number]
        exact hpos
      obtain ⟨hdropped, htaken⟩ := hok.arc.present hpos' (by simp)
      have havailable : buffer.status = .available := by
        by_contra hne
        have := (hok.taken hne).1
        omega
      have hkeepers : s.keepers b = 0 := (hok.available havailable).2.trans htaken
      have htake := take_eq (s := { s with buffers := s.buffers.set b { buffer with
          arc := ThinArc.act buffer.arc .destroy } })
        (List.getElem?_set_self (List.getElem?_eq_some_iff.mp hb).1) havailable .freed false
      simp only [finish, bind, Except.bind, onArc_eq hb hstep, htake, List.set_set]
      refine ⟨h.arc_ends hlt hb hpos (fun role => (number_ends hok hj role).1 .deallocating)
        (fun b' role hne => (number_ends_of_ne hj b' role hne).1 .deallocating) (hset .deallocating)
        rfl (fun heq => by cases heq) (fun _ => ⟨?_, hkeepers⟩), _, rfl, ?_⟩
      · show buffer.arc.dropped + 1 + buffer.arc.taken = 1
        omega
      · refine ⟨hr.length_eq, fun k y slot hk hslot => (hr.slot k y slot hk hslot).of_set rfl ?_⟩
        exact fun _ hactive => not_inside_of_destroying h hok hpos hk hactive
    | deallocating =>
      obtain ⟨hstep, -⟩ := hok.arc_step hlt (a := .dealloc) hpos
      simp only [finish, bind, Except.bind, onArc_eq hb hstep]
      refine ⟨h.arc_ends hlt hb hpos (fun role => (number_ends hok hj role).2)
        (fun b' role hne => (number_ends_of_ne hj b' role hne).2) herase rfl hok.available
        hok.taken, _, rfl, hr.of_handles (.of_set hb rfl rfl rfl) rfl⟩

/-- **Every action is sound**, as long as there are not too many clones. -/
theorem sound_step (h : Inv s) (hr : Refines s slots) (hlt : s.clones < 2 ^ w) (a : Action) :
    Sound s slots a (step s a) := by
  cases a with
  | make init => exact sound_make h hr init
  | clone i => exact sound_clone h hr hlt i
  | usingValue i part utf8 => exact sound_usingValue h hr hlt i part utf8
  | edit i e => exact sound_edit h hr i e
  | intoVec i => exact sound_intoVec h hr hlt i
  | drop i => exact sound_drop h hr i
  | forget i => exact sound_forget h hr hlt i
  | next i => exact sound_next h hr hlt i
  | finish j => exact sound_finish h hr hlt j

end Calls

end Sharing

end Vinezombie
