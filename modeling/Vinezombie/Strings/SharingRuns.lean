import Vinezombie.Strings.SharingCalls

/-!
# Strings that share memory are as good as values

Runs of the actions of `Sharing.step`, with calls of any number of threads between each other.

* `as_values`: strings in memory have the values that the same calls give to strings without memory,
  and no memory is used that is not there.
* `left_step`: calls end.  `frees`: when they have ended and there are no strings, all memory is
  given back, or has become that of a `Vec`.
* `not_erased`: what is dropped is not erased.
-/

namespace Vinezombie

namespace Sharing

open Library.Machine

variable {w : ℕ}

/-! ## What a step does to buffers -/

/-- The calls that clone an owner. -/
def Action.clones : Action → Bool
  | .clone _ | .usingValue _ _ _ => true
  | _ => false

/-- A buffer is erased. -/
def Erases (s : State w) : Action → Prop
  | .next i => ∃ x, s.handles[i]? = some x ∧ x.pc = .unwrapped ∧ x.secret = true
  | _ => False

/-- A property of buffers that new ones have, and that is kept by accesses to their blocks and by
those who take them. -/
structure Keeping (s : State w) (a : Action) (P : Buffer w → Prop) : Prop where
  fresh : ∀ value, P ⟨ThinArc.new, value, .available, value⟩
  arc : ∀ (buffer : Buffer w) act arc, (act = .forget → ∃ i, a = .forget i) → P buffer →
    ThinArc.step buffer.arc act = .ok arc → P { buffer with arc := arc }
  take : ∀ (buffer : Buffer w) status, P buffer → P { buffer with status := status }
  erase : Erases s a → ∀ (buffer : Buffer w), P buffer →
    P { buffer with cells := List.replicate buffer.cells.length 0 }

section Primitives

variable {s s' : State w} {P : Buffer w → Prop}

/-- The clones and buffers of a state, when it has these. -/
def Within (P : Buffer w → Prop) (n : ℕ) (s : State w) : Prop :=
  s.clones ≤ n ∧ ∀ buffer ∈ s.buffers, P buffer

theorem within_onArc {n b : ℕ} {act : ThinArc.Action} (h : Within P n s)
    (harc : ∀ (buffer : Buffer w) arc, P buffer → ThinArc.step buffer.arc act = .ok arc →
      P { buffer with arc := arc }) (hstep : s.onArc b act = .ok s') : Within P n s' := by
  unfold State.onArc at hstep
  split at hstep
  · rename_i buffer hb
    split at hstep
    · rename_i arc hact
      obtain rfl := Except.ok.inj hstep
      refine ⟨h.1, fun buffer' hbuffer' => ?_⟩
      rcases mem_set_cases hbuffer' with hold | rfl
      · exact h.2 buffer' hold
      · exact harc buffer arc (h.2 buffer (List.mem_of_getElem? hb)) hact
    · cases hstep
  · cases hstep

theorem within_take {n b : ℕ} {status : Status} {wipe : Bool} (h : Within P n s)
    (htake : ∀ (buffer : Buffer w), P buffer → P { buffer with status := status })
    (herase : wipe = true → ∀ (buffer : Buffer w), P buffer →
      P { buffer with cells := List.replicate buffer.cells.length 0 })
    (hstep : s.take b status wipe = .ok s') : Within P n s' := by
  unfold State.take at hstep
  split at hstep
  · rename_i buffer hb
    split at hstep
    · obtain rfl := Except.ok.inj hstep
      refine ⟨h.1, fun buffer' hbuffer' => ?_⟩
      have hP := h.2 buffer (List.mem_of_getElem? hb)
      rcases mem_set_cases hbuffer' with hold | rfl
      · exact h.2 buffer' hold
      · cases wipe with
        | true => exact htake _ (herase rfl buffer hP)
        | false => exact htake buffer hP
    · cases hstep
  · cases hstep

theorem within_fromVec {n : ℕ} (h : Within P n s)
    (hfresh : ∀ value, P ⟨ThinArc.new, value, .available, value⟩) (value : List UInt8) :
    Within P n (s.fromVec value).2.2 := by
  unfold State.fromVec
  split
  · exact h
  · refine ⟨h.1, fun buffer hbuffer => ?_⟩
    rcases List.mem_append.mp hbuffer with hold | hnew
    · exact h.2 buffer hold
    · rw [List.mem_singleton.mp hnew]
      exact hfresh value

theorem within_cloneOwnership {n : ℕ} {ownership : Option ℕ} (h : Within P n s)
    (harc : ∀ (buffer : Buffer w) arc, P buffer → ThinArc.step buffer.arc .clone = .ok arc →
      P { buffer with arc := arc }) (hstep : s.cloneOwnership ownership = .ok s') :
    Within P (n + 1) s' := by
  cases ownership with
  | none =>
    obtain rfl := Except.ok.inj hstep
    exact ⟨Nat.le_succ_of_le h.1, h.2⟩
  | some b =>
    have hmore : Within P (n + 1) { s with clones := s.clones + 1 } := ⟨Nat.succ_le_succ h.1, h.2⟩
    exact within_onArc hmore harc hstep

end Primitives

theorem within_step {s s' : State w} {a : Action} {P : Buffer w → Prop} {n : ℕ}
    (hkeeping : Keeping s a P) (h : Within P n s) (hstep : step s a = .ok s') :
    Within P (n + if a.clones then 1 else 0) s' := by
  have harc {act : ThinArc.Action} (hact : act ≠ .forget) (buffer : Buffer w) (arc) (hP : P buffer)
      (hstep : ThinArc.step buffer.arc act = .ok arc) : P { buffer with arc := arc } :=
    hkeeping.arc buffer act arc (fun heq => absurd heq hact) hP hstep
  cases a with
  | make init =>
    cases init with
    | borrow value utf8 =>
      obtain rfl := Except.ok.inj hstep
      exact h
    | alloc value utf8 secret =>
      obtain rfl := Except.ok.inj hstep
      exact within_fromVec h hkeeping.fresh value
  | clone i =>
    obtain ⟨x, -, hrest⟩ := bind_ok hstep
    obtain ⟨s₁, hs₁, hrest⟩ := bind_ok hrest
    obtain rfl := Except.ok.inj hrest
    exact (within_cloneOwnership h (harc (by simp)) hs₁ : Within P _ s₁)
  | usingValue i part utf8 =>
    obtain ⟨x, -, hrest⟩ := bind_ok hstep
    obtain ⟨value, -, hrest⟩ := bind_ok hrest
    split at hrest
    · split at hrest
      · obtain rfl := Except.ok.inj hrest
        exact ⟨Nat.le_succ_of_le h.1, h.2⟩
      · obtain ⟨s₁, hs₁, hrest⟩ := bind_ok hrest
        obtain rfl := Except.ok.inj hrest
        exact (within_cloneOwnership h (harc (by simp)) hs₁ : Within P _ s₁)
    · cases hrest
  | edit i e =>
    obtain ⟨x, -, hrest⟩ := bind_ok hstep
    obtain ⟨value, -, hrest⟩ := bind_ok hrest
    obtain rfl := Except.ok.inj hrest
    cases e.outcome (x.bytes value) with
    | keep => exact h
    | part start len => exact h
    | fresh v => exact within_fromVec h hkeeping.fresh v
  | intoVec i =>
    obtain ⟨x, -, hrest⟩ := bind_ok hstep
    split at hrest
    · obtain ⟨value, -, hrest⟩ := bind_ok hrest
      obtain rfl := Except.ok.inj hrest
      exact h
    · obtain ⟨s₁, hs₁, hrest⟩ := bind_ok hrest
      obtain rfl := Except.ok.inj hrest
      exact (within_onArc h (harc (by simp)) hs₁ : Within P _ s₁)
  | drop i =>
    obtain ⟨x, -, hrest⟩ := bind_ok hstep
    obtain rfl := Except.ok.inj hrest
    exact h
  | forget i =>
    obtain ⟨x, -, hrest⟩ := bind_ok hstep
    split at hrest
    · obtain rfl := Except.ok.inj hrest
      exact h
    · obtain ⟨s₁, hs₁, hrest⟩ := bind_ok hrest
      obtain rfl := Except.ok.inj hrest
      exact (within_onArc h (fun buffer arc => hkeeping.arc buffer .forget arc fun _ => ⟨i, rfl⟩)
        hs₁ : Within P _ s₁)
  | next i =>
    unfold step at hstep
    dsimp only at hstep
    split at hstep
    swap
    · cases hstep
    rename_i x hi
    unfold next at hstep
    split at hstep
    · obtain ⟨s₁, hs₁, hrest⟩ := bind_ok hstep
      obtain rfl := Except.ok.inj hrest
      exact (within_onArc h (harc (by simp)) hs₁ : Within P _ s₁)
    · obtain ⟨s₁, hs₁, hrest⟩ := bind_ok hstep
      obtain rfl := Except.ok.inj hrest
      exact (within_onArc h (harc (by simp)) hs₁ : Within P _ s₁)
    · rename_i hpc _
      obtain ⟨value, -, hrest⟩ := bind_ok hstep
      split at hrest
      · obtain ⟨s₁, hs₁, hrest⟩ := bind_ok hrest
        obtain rfl := Except.ok.inj hrest
        exact (within_take h (fun buffer => hkeeping.take buffer .given) (by simp) hs₁ :
          Within P _ s₁)
      · obtain ⟨s₁, hs₁, hrest⟩ := bind_ok hrest
        obtain rfl := Except.ok.inj hrest
        exact (within_take h (fun buffer => hkeeping.take buffer .freed)
          (fun hsecret => hkeeping.erase ⟨x, hi, hpc, hsecret⟩) hs₁ : Within P _ s₁)
    · obtain ⟨value, -, hrest⟩ := bind_ok hstep
      obtain rfl := Except.ok.inj hrest
      exact h
    · cases hstep
  | finish j =>
    unfold step at hstep
    dsimp only at hstep
    split at hstep
    swap
    · cases hstep
    rename_i b pc hj
    cases pc with
    | releasing =>
      obtain ⟨s₁, hs₁, hrest⟩ := bind_ok hstep
      obtain rfl := Except.ok.inj hrest
      exact (within_onArc h (harc (by simp)) hs₁ : Within P _ s₁)
    | destroying =>
      obtain ⟨s₁, hs₁, hrest⟩ := bind_ok hstep
      obtain ⟨s₂, hs₂, hrest⟩ := bind_ok hrest
      obtain rfl := Except.ok.inj hrest
      have hwithin : Within P n s₁ := within_onArc h (harc (by simp)) hs₁
      exact (within_take hwithin (fun buffer => hkeeping.take buffer .freed) (by simp) hs₂ :
        Within P _ s₂)
    | deallocating =>
      obtain ⟨s₁, hs₁, hrest⟩ := bind_ok hstep
      obtain rfl := Except.ok.inj hrest
      exact (within_onArc h (harc (by simp)) hs₁ : Within P _ s₁)

/-- **What all buffers keep over a run.** -/
theorem within_run {P : Buffer w → Prop} {as : List Action} (hkeeping : ∀ s, ∀ a ∈ as, Keeping s a P)
    {s s' : State w} {n : ℕ} (h : Within P n s) (hrun : as.foldlM step s = .ok s') :
    Within P (n + as.countP Action.clones) s' := by
  induction as generalizing s n with
  | nil =>
    obtain rfl := Except.ok.inj hrun
    exact h
  | cons a as ih =>
    obtain ⟨s₁, hs₁, hrest⟩ := foldlM_cons_ok hrun
    have hnext := ih (fun s a ha => hkeeping s a (List.mem_cons_of_mem _ ha))
      (within_step (hkeeping s a List.mem_cons_self) h hs₁) hrest
    rwa [Nat.add_assoc, Nat.add_comm _ (as.countP _), ← List.countP_cons] at hnext

theorem clones_run {as : List Action} {s : State w} (hrun : as.foldlM step new = .ok s) :
    s.clones ≤ as.countP Action.clones := by
  have hkeeping (s : State w) (a : Action) : Keeping s a fun _ => True :=
    ⟨fun _ => trivial, fun _ _ _ _ _ _ => trivial, fun _ _ _ => trivial, fun _ _ _ => trivial⟩
  have h := within_run (n := 0) (fun s a _ => hkeeping s a) ⟨Nat.le_refl _, fun _ _ => trivial⟩ hrun
  exact Nat.zero_add (as.countP Action.clones) ▸ h.1

/-! ## Values -/

theorem Values.run_concat (as : List Action) (a : Action) (slots : List Slot) :
    Values.run slots (as ++ [a]) = (Values.run slots as).bind fun slots => Values.step slots a := by
  induction as generalizing slots with
  | nil =>
    show (Values.step slots a).bind some = Values.step slots a
    exact Option.bind_fun_some _
  | cons b as ih =>
    show (Values.step slots b).bind (fun slots => Values.run slots (as ++ [a])) = _
    simp only [ih]
    exact (Option.bind_assoc ..).symm

/-- The invariant, over runs. -/
theorem sound_run {as : List Action} {s : State w} (hlt : as.countP Action.clones < 2 ^ w)
    (hrun : as.foldlM step new = .ok s) :
    Inv s ∧ ∃ slots, Values.run [] as = some slots ∧ Refines s slots := by
  induction as using List.reverseRecOn generalizing s with
  | nil =>
    obtain rfl := Except.ok.inj hrun
    exact ⟨inv_new, [], rfl, refines_new⟩
  | append_singleton as a ih =>
    rw [List.countP_append] at hlt
    cases hbefore : as.foldlM step (new : State w) with
    | error e =>
      rw [List.foldlM_append, hbefore] at hrun
      cases hrun
    | ok s₁ =>
      rw [foldlM_concat hbefore] at hrun
      obtain ⟨hinv, slots, hslots, hrefines⟩ := ih (by omega) hbefore
      have hclones := clones_run hbefore
      have hsound := sound_step hinv hrefines (by omega) a
      rw [hrun] at hsound
      obtain ⟨hinv', slots', hstep, hrefines'⟩ := hsound
      refine ⟨hinv', slots', ?_, hrefines'⟩
      rw [Values.run_concat, hslots]
      exact hstep

/-- **Strings that share memory are as good as values.**  As long as fewer owners have been cloned
than there are words, strings have the values that the same calls give to strings without memory, no
memory is used that is not there, and every call is possible that is possible on values. -/
theorem as_values {as : List Action} (hlt : as.countP Action.clones < 2 ^ w) :
    as.foldlM step (new : State w) ≠ .error .fault ∧
      ∀ s : State w, as.foldlM step new = .ok s →
        (∃ slots, Values.run [] as = some slots ∧ Refines s slots ∧
          ∀ a, (∃ s', step s a = .ok s') ∨ Impossible s slots a) ∧
        ∀ buffer ∈ s.buffers, buffer.arc.misused = false := by
  constructor
  · intro hfault
    obtain ⟨before, a, after, s, rfl, hbefore, herror⟩ := exists_of_foldlM_error hfault
    rw [List.countP_append] at hlt
    obtain ⟨hinv, slots, -, hrefines⟩ := sound_run (by omega) hbefore
    have hclones := clones_run hbefore
    have hsound := sound_step hinv hrefines (by omega) a
    rw [herror] at hsound
    cases hsound.1
  · intro s hrun
    obtain ⟨hinv, slots, hslots, hrefines⟩ := sound_run hlt hrun
    refine ⟨⟨slots, hslots, hrefines, fun a => ?_⟩, fun buffer hbuffer => ?_⟩
    · have hsound := sound_step hinv hrefines (Nat.lt_of_le_of_lt (clones_run hrun) hlt) a
      cases hstep : step s a with
      | error e =>
        rw [hstep] at hsound
        exact .inr hsound.2
      | ok s' => exact .inl ⟨s', rfl⟩
    · obtain ⟨b, hb⟩ := List.mem_iff_getElem?.mp hbuffer
      exact (hinv.buffers b buffer hb).arc.misused

/-- A part of a secret string is made into a `Vec` while the string is dropped. -/
def cuts : List Action :=
  [.make (.alloc [112, 97, 115, 115] .valid true), .usingValue 0 (.slice 0 2) .preserve, .intoVec 1,
    .drop 0, .next 1, .finish 0, .finish 0]

theorem as_values_cuts : ∃ s : State 64, cuts.foldlM step new = .ok s ∧
    ∃ slots, Values.run [] cuts = some slots ∧ Refines s slots := by
  obtain ⟨s, hs⟩ : ∃ s : State 64, cuts.foldlM step new = .ok s := ⟨_, rfl⟩
  obtain ⟨⟨slots, hslots, hrefines, -⟩, -⟩ := (as_values (by decide)).2 s hs
  exact ⟨s, hs, slots, hslots, hrefines⟩

/-! ## Calls end -/

/-- How many accesses there are still. -/
def Pc.left : Pc → ℕ
  | .copying => 4
  | .reading => 3
  | .freeing => 2
  | .unwrapped => 1
  | .live | .vec _ | .gone => 0

/-- How many accesses there are still of a drop. -/
def End.left : End → ℕ
  | .releasing => 3
  | .destroying => 2
  | .deallocating => 1

/-- How many accesses there are still of all calls. -/
def State.left (s : State w) : ℕ :=
  (s.handles.map fun x => x.pc.left).sum + (s.ends.map fun e => e.2.left).sum

/-- What is left of calls. -/
def Action.Resumes : Action → Prop
  | .next _ | .finish _ => True
  | _ => False

theorem sum_map_set {α : Type} (f : α → ℕ) {l : List α} {i : ℕ} {x : α} (h : l[i]? = some x)
    (y : α) : ((l.set i y).map f).sum + f x = (l.map f).sum + f y := by
  induction l generalizing i with
  | nil => cases h
  | cons z l ih =>
    cases i with
    | zero =>
      obtain rfl := Option.some.inj h
      simp only [List.set_cons_zero, List.map_cons, List.sum_cons]
      omega
    | succ i =>
      have := ih (i := i) h
      simp only [List.set_cons_succ, List.map_cons, List.sum_cons]
      omega

theorem sum_map_eraseIdx {α : Type} (f : α → ℕ) {l : List α} {i : ℕ} {x : α} (h : l[i]? = some x) :
    ((l.eraseIdx i).map f).sum + f x = (l.map f).sum := by
  induction l generalizing i with
  | nil => cases h
  | cons z l ih =>
    cases i with
    | zero =>
      obtain rfl := Option.some.inj h
      simp only [List.eraseIdx_cons_zero, List.map_cons, List.sum_cons]
      omega
    | succ i =>
      have := ih (i := i) h
      simp only [List.eraseIdx_cons_succ, List.map_cons, List.sum_cons]
      omega

section Left

variable {s s' : State w}

theorem onArc_same {b : ℕ} {act : ThinArc.Action} (h : s.onArc b act = .ok s') :
    s'.handles = s.handles ∧ s'.ends = s.ends := by
  unfold State.onArc at h
  split at h
  · split at h
    · obtain rfl := Except.ok.inj h
      exact ⟨rfl, rfl⟩
    · cases h
  · cases h

theorem take_same {b : ℕ} {status : Status} {wipe : Bool} (h : s.take b status wipe = .ok s') :
    s'.handles = s.handles ∧ s'.ends = s.ends := by
  unfold State.take at h
  split at h
  · split at h
    · obtain rfl := Except.ok.inj h
      exact ⟨rfl, rfl⟩
    · cases h
  · cases h

/-- **An access is one less.** -/
theorem left_step {a : Action} (ha : a.Resumes) (hstep : step s a = .ok s') : s'.left < s.left := by
  have hset {i : ℕ} {x y : Handle} {s₁ : State w} (hi : s.handles[i]? = some x)
      (hsame : s₁.handles = s.handles ∧ s₁.ends = s.ends) (hless : y.pc.left < x.pc.left) :
      (s₁.set i y).left < s.left := by
    have hsum := sum_map_set (fun x : Handle => x.pc.left) hi y
    simp only [State.left, State.set, hsame.1, hsame.2]
    omega
  have hset' {j b : ℕ} {pc pc' : End} {s₁ : State w} (hj : s.ends[j]? = some (b, pc))
      (hsame : s₁.handles = s.handles ∧ s₁.ends = s.ends) (hless : pc'.left < pc.left) :
      ({ s₁ with ends := s₁.ends.set j (b, pc') } : State w).left < s.left := by
    have hsum := sum_map_set (fun e : ℕ × End => e.2.left) hj (b, pc')
    simp only [State.left, hsame.1, hsame.2]
    dsimp only at hsum
    omega
  have herase {j b : ℕ} {pc : End} {s₁ : State w} (hj : s.ends[j]? = some (b, pc))
      (hsame : s₁.handles = s.handles ∧ s₁.ends = s.ends) (hpos : 0 < pc.left) :
      ({ s₁ with ends := s₁.ends.eraseIdx j } : State w).left < s.left := by
    have hsum := sum_map_eraseIdx (fun e : ℕ × End => e.2.left) hj
    simp only [State.left, hsame.1, hsame.2]
    dsimp only at hsum
    omega
  cases a with
  | make | clone | usingValue | edit | intoVec | drop | forget => cases ha
  | next i =>
    unfold step at hstep
    dsimp only at hstep
    split at hstep
    swap
    · cases hstep
    rename_i x hi
    unfold next at hstep
    split at hstep
    · rename_i hpc _
      obtain ⟨s₁, hs₁, hrest⟩ := bind_ok hstep
      obtain rfl := Except.ok.inj hrest
      exact hset hi (onArc_same hs₁) (by rw [hpc]; exact Nat.lt_succ_self _)
    · rename_i hpc _
      obtain ⟨s₁, hs₁, hrest⟩ := bind_ok hstep
      obtain rfl := Except.ok.inj hrest
      exact hset hi (onArc_same hs₁) (by rw [hpc]; exact Nat.lt_succ_self _)
    · rename_i hpc _
      obtain ⟨value, -, hrest⟩ := bind_ok hstep
      split at hrest
      · obtain ⟨s₁, hs₁, hrest⟩ := bind_ok hrest
        obtain rfl := Except.ok.inj hrest
        exact hset hi (take_same hs₁) (by rw [hpc]; exact Nat.one_pos)
      · obtain ⟨s₁, hs₁, hrest⟩ := bind_ok hrest
        obtain rfl := Except.ok.inj hrest
        exact hset hi (take_same hs₁) (by rw [hpc]; exact Nat.one_pos)
    · rename_i b hpc _
      obtain ⟨value, -, hrest⟩ := bind_ok hstep
      obtain rfl := Except.ok.inj hrest
      -- the owner is dropped after the bytes are copied
      have hsum := sum_map_set (fun x : Handle => x.pc.left) hi { x with pc := .vec value }
      simp only [State.left, State.set, State.release, Option.map_some, Option.toList_some,
        List.map_append, List.sum_append, List.map_singleton, List.sum_singleton]
      simp only [hpc, Pc.left, End.left] at hsum ⊢
      omega
    · cases hstep
  | finish j =>
    unfold step at hstep
    dsimp only at hstep
    split at hstep
    swap
    · cases hstep
    rename_i b pc hj
    cases pc with
    | releasing =>
      obtain ⟨s₁, hs₁, hrest⟩ := bind_ok hstep
      obtain rfl := Except.ok.inj hrest
      by_cases hlast : s.sole b = true
      · rw [if_pos hlast]
        exact hset' hj (onArc_same hs₁) (by decide)
      · rw [if_neg hlast]
        exact herase hj (onArc_same hs₁) (by decide)
    | destroying =>
      obtain ⟨s₁, hs₁, hrest⟩ := bind_ok hstep
      obtain ⟨s₂, hs₂, hrest⟩ := bind_ok hrest
      obtain rfl := Except.ok.inj hrest
      obtain ⟨hhandles, hends⟩ := onArc_same hs₁
      obtain ⟨hhandles', hends'⟩ := take_same hs₂
      exact hset' hj ⟨hhandles'.trans hhandles, hends'.trans hends⟩ (by decide)
    | deallocating =>
      obtain ⟨s₁, hs₁, hrest⟩ := bind_ok hstep
      obtain rfl := Except.ok.inj hrest
      exact herase hj (onArc_same hs₁) (by decide)

theorem left_run {as : List Action} (has : ∀ a ∈ as, a.Resumes) (hrun : as.foldlM step s = .ok s') :
    as.length + s'.left ≤ s.left := by
  induction as generalizing s with
  | nil =>
    obtain rfl := Except.ok.inj hrun
    exact Nat.le_of_eq (Nat.zero_add _)
  | cons a as ih =>
    obtain ⟨s₁, hs₁, hrest⟩ := foldlM_cons_ok hrun
    have hless := left_step (has a List.mem_cons_self) hs₁
    have := ih (fun a ha => has a (List.mem_cons_of_mem _ ha)) hrest
    rw [List.length_cons]
    omega

end Left

/-! ## Memory is given back -/

theorem forgotten_run {as : List Action} {s : State w} (hforget : ∀ i, .forget i ∉ as)
    (hrun : as.foldlM step new = .ok s) : ∀ buffer ∈ s.buffers, buffer.arc.forgotten = 0 := by
  have hkeeping (s : State w) (a : Action) (ha : a ∈ as) :
      Keeping s a fun buffer => buffer.arc.forgotten = 0 := by
    refine ⟨fun _ => rfl, fun buffer act arc hact hnone hstep => ?_, fun _ _ hnone => hnone,
      fun _ _ hnone => hnone⟩
    unfold ThinArc.step at hstep
    split at hstep
    swap
    · cases hstep
    obtain rfl := Except.ok.inj hstep
    cases act with
    | forget =>
      obtain ⟨i, rfl⟩ := hact rfl
      exact absurd ha (hforget i)
    | tryUnwrap =>
      show (if _ then _ else _ : ThinArc.State w).forgotten = 0
      split
      · exact hnone
      · exact hnone
    | clone | deref | drop | destroy | read | dealloc => exact hnone
  exact (within_run (n := 0) hkeeping ⟨Nat.le_refl _, by simp [new]⟩ hrun).2

/-- There are no strings, and no calls are under way. -/
theorem freed_of_done {as : List Action} {s : State w} (hlt : as.countP Action.clones < 2 ^ w)
    (hrun : as.foldlM step new = .ok s) (hforget : ∀ i, .forget i ∉ as)
    (hgone : ∀ slots, Values.run [] as = some slots → ∀ b, .string b ∉ slots)
    (hdone : ∀ a : Action, a.Resumes → ∀ s', step s a ≠ .ok s') :
    ∀ buffer ∈ s.buffers, buffer.status ≠ .available ∧ buffer.arc.freed = 1 ∧
      buffer.arc.dropped + buffer.arc.taken = 1 := by
  obtain ⟨hinv, slots, hslots, hrefines⟩ := sound_run hlt hrun
  have hclones := clones_run hrun
  have himpossible (a : Action) (ha : a.Resumes) : Impossible s slots a := by
    have hsound := sound_step hinv hrefines (by omega) a
    cases hstep : step s a with
    | error e =>
      rw [hstep] at hsound
      exact hsound.2
    | ok s' => exact absurd hstep (hdone a ha s')
  have hends : s.ends = [] :=
    List.length_eq_zero_iff.mp (Nat.le_zero.mp (himpossible (.finish 0) trivial))
  have hhandles (x : Handle) (hx : x ∈ s.handles) : x.role = none ∧ x.kept = none := by
    obtain ⟨i, hi⟩ := List.mem_iff_getElem?.mp hx
    obtain ⟨slot, hslot, hshows⟩ := hrefines.slot_of hi
    cases hshows with
    | string _ _ => exact absurd (List.mem_of_getElem? hslot) (hgone slots hslots _)
    | converting hpc _ => exact absurd hpc (himpossible (.next i) trivial x hi)
    | vec hpc => exact ⟨by simp [Handle.role, hpc], by simp [Handle.kept, hpc]⟩
    | gone hpc => exact ⟨by simp [Handle.role, hpc], by simp [Handle.kept, hpc]⟩
  intro buffer hbuffer
  obtain ⟨b, hb⟩ := List.mem_iff_getElem?.mp hbuffer
  have hok := hinv.buffers b buffer hb
  have hnumber (role : ThinArc.Role) : buffer.arc.number role = 0 := by
    rw [hok.number, State.number, hends, List.countP_nil, Nat.add_zero]
    refine List.countP_eq_zero.mpr fun x hx => ?_
    simp [(hhandles x hx).1]
  have hkeepers : s.keepers b = 0 := by
    refine List.countP_eq_zero.mpr fun x hx => ?_
    simp [(hhandles x hx).2]
  have hforgotten := forgotten_run hforget hrun buffer hbuffer
  have hover : buffer.arc.dropped + buffer.arc.taken = 1 ∧ buffer.arc.freed = 1 := by
    cases hok.arc.phase with
    | shared _ hpos _ _ _ _ _ =>
      rw [hnumber, hforgotten] at hpos
      exact absurd hpos (Nat.lt_irrefl 0)
    | last role _ hnumber' _ _ _ _ =>
      have := hnumber role
      rw [hnumber', ThinArc.oneMore_self] at this
      cases this
    | ending hnumber' _ _ _ =>
      have := hnumber .deallocating
      rw [hnumber', ThinArc.oneMore_self] at this
      cases this
    | done _ _ hvalue hfreed => exact ⟨hvalue, hfreed⟩
  refine ⟨fun havailable => ?_, hover.2, hover.1⟩
  obtain ⟨hdropped, htaken⟩ := hok.available havailable
  omega

theorem Values.run_resumes {as rest : List Action} (hrest : ∀ a ∈ rest, a.Resumes)
    (slots : List Slot) : Values.run slots (as ++ rest) = Values.run slots as := by
  induction rest using List.reverseRecOn with
  | nil => rw [List.append_nil]
  | append_singleton rest a ih =>
    rw [← List.append_assoc, Values.run_concat,
      ih fun a ha => hrest a (List.mem_append_left _ ha)]
    have ha := hrest a (List.mem_append_right _ (List.mem_singleton_self a))
    cases a with
    | next | finish => exact Option.bind_fun_some _
    | make | clone | usingValue | edit | intoVec | drop | forget => cases ha

/-- **All memory is given back.**  When all strings have been dropped or made into `Vec`s, what is
left of the calls ends, in whichever order, and then each block was freed once, and each buffer has
been freed or is that of a `Vec`. -/
theorem frees {as : List Action} {s : State w} (hlt : as.countP Action.clones < 2 ^ w)
    (hrun : as.foldlM step new = .ok s) (hforget : ∀ i, .forget i ∉ as)
    (hgone : ∀ slots, Values.run [] as = some slots → ∀ b, .string b ∉ slots) {rest : List Action}
    {s' : State w} (hrest : ∀ a ∈ rest, a.Resumes) (hrun' : rest.foldlM step s = .ok s') :
    rest.length ≤ s.left ∧
      ((∀ a : Action, a.Resumes → ∀ s'', step s' a ≠ .ok s'') →
        ∀ buffer ∈ s'.buffers, buffer.status ≠ .available ∧ buffer.arc.freed = 1 ∧
          buffer.arc.dropped + buffer.arc.taken = 1) := by
  refine ⟨Nat.le_trans (Nat.le_add_right _ _) (left_run hrest hrun'), fun hdone => ?_⟩
  have hnone : rest.countP Action.clones = 0 := by
    refine List.countP_eq_zero.mpr fun a ha => ?_
    have hresumes := hrest a ha
    cases a with
    | next | finish => simp [Action.clones]
    | make | clone | usingValue | edit | intoVec | drop | forget => cases hresumes
  have hwhole : (as ++ rest).foldlM step new = .ok s' := by
    rw [List.foldlM_append, hrun]
    exact hrun'
  refine freed_of_done (by rw [List.countP_append]; omega) hwhole (fun i hi => ?_)
    (fun slots hslots => ?_) hdone
  · rcases List.mem_append.mp hi with hold | hnew
    · exact hforget i hold
    · exact hrest _ hnew
  · rw [Values.run_resumes hrest] at hslots
    exact hgone slots hslots

/-- A string is dropped while a part of it is made into a `Vec`. -/
theorem frees_cut : ∃ s s' : State 64,
    [Action.make (.alloc [112, 97, 115, 115] .valid true), .usingValue 0 (.slice 0 2) .preserve,
      .drop 0, .intoVec 1].foldlM step new = .ok s ∧
    [Action.next 1, .finish 0, .finish 0, .finish 0, .finish 0].foldlM step s = .ok s' ∧
    s'.buffers ≠ [] ∧
      ∀ buffer ∈ s'.buffers, buffer.status ≠ .available ∧ buffer.arc.freed = 1 := by
  obtain ⟨s, s', hs, hs', hbuffers, hdone⟩ : ∃ s s' : State 64,
      [Action.make (.alloc [112, 97, 115, 115] .valid true), .usingValue 0 (.slice 0 2) .preserve,
        .drop 0, .intoVec 1].foldlM step new = .ok s ∧
      [Action.next 1, .finish 0, .finish 0, .finish 0, .finish 0].foldlM step s = .ok s' ∧
      s'.buffers ≠ [] ∧ ∀ a : Action, a.Resumes → ∀ s'', step s' a ≠ .ok s'' := by
    refine ⟨_, _, rfl, rfl, List.cons_ne_nil _ _, fun a ha s'' hstep => ?_⟩
    cases a with
    | next i =>
      rcases i with _ | _ | i
      all_goals exact nomatch (show Except.error Stop.blocked = Except.ok s'' from hstep)
    | finish j => exact nomatch (show Except.error Stop.blocked = Except.ok s'' from hstep)
    | make | clone | usingValue | edit | intoVec | drop | forget => cases ha
  refine ⟨s, s', hs, hs', hbuffers, fun buffer hbuffer => ?_⟩
  have hgone (slots : List Slot) (hslots : Values.run [] [Action.make (.alloc [112, 97, 115, 115]
      .valid true), .usingValue 0 (.slice 0 2) .preserve, .drop 0, .intoVec 1] = some slots)
      (b : Bytes) : .string b ∉ slots := by
    obtain rfl : [Slot.gone, .vec [112, 97]] = slots := Option.some.inj hslots
    simp
  obtain ⟨-, hfreed⟩ := frees (by decide) hs (by simp) hgone (by simp [Action.Resumes]) hs'
  obtain ⟨hstatus, hone, -⟩ := hfreed hdone buffer hbuffer
  exact ⟨hstatus, hone⟩

/-! ## Nothing is erased -/

/-- Nobody is in a call with a string. -/
def State.Settled (s : State w) : Prop := ∀ x ∈ s.handles, x.pc = .live ∨ x.pc = .gone

section Settled

variable {s s' : State w}

theorem State.Settled.push (h : s.Settled) {x : Handle} (hx : x.pc = .live ∨ x.pc = .gone) :
    (s.push x).Settled := by
  intro y hy
  rcases List.mem_append.mp hy with hold | hnew
  · exact h y hold
  · rwa [List.mem_singleton.mp hnew]

theorem State.Settled.set (h : s.Settled) {i : ℕ} {x : Handle} (hx : x.pc = .live ∨ x.pc = .gone) :
    (s.set i x).Settled := by
  intro y hy
  rcases mem_set_cases hy with hold | rfl
  · exact h y hold
  · exact hx

theorem State.Settled.of_handles (h : s.Settled) (hhandles : s'.handles = s.handles) :
    s'.Settled := by
  intro x hx
  exact h x (hhandles ▸ hx)

theorem pc_of_live {i : ℕ} {x : Handle} (h : s.live i = .ok x) : x.pc = .live := by
  unfold State.live at h
  split at h
  · split at h
    · obtain rfl := Except.ok.inj h
      assumption
    · cases h
  · cases h

theorem handles_fromVec (value : List UInt8) : (s.fromVec value).2.2.handles = s.handles := by
  unfold State.fromVec
  split
  · rfl
  · rfl

theorem handles_cloneOwnership {ownership : Option ℕ} (h : s.cloneOwnership ownership = .ok s') :
    s'.handles = s.handles := by
  cases ownership with
  | none =>
    obtain rfl := Except.ok.inj h
    rfl
  | some b => exact (onArc_same h).1

theorem handles_finish {j b : ℕ} {pc : End} (h : finish s j b pc = .ok s') :
    s'.handles = s.handles := by
  cases pc with
  | releasing | deallocating =>
    obtain ⟨s₁, hs₁, hrest⟩ := bind_ok h
    obtain rfl := Except.ok.inj hrest
    exact (onArc_same hs₁).1
  | destroying =>
    obtain ⟨s₁, hs₁, hrest⟩ := bind_ok h
    obtain ⟨s₂, hs₂, hrest⟩ := bind_ok hrest
    obtain rfl := Except.ok.inj hrest
    exact (take_same hs₂).1.trans (onArc_same hs₁).1

/-- There is no access that a call has still to make. -/
theorem State.Settled.next_eq (h : s.Settled) {i : ℕ} {x : Handle} (hi : s.handles[i]? = some x) :
    next s i x = .error .blocked := by
  rcases h x (List.mem_of_getElem? hi) with hlive | hgone
  · simp [next, hlive]
  · simp [next, hgone]

theorem State.Settled.edited (h : s.Settled) {x : Handle} (hpc : x.pc = .live) (i : ℕ) (b : Bytes)
    (outcome : Outcome) : (Sharing.edited s i x b outcome).Settled := by
  cases outcome with
  | keep => exact h.set (.inl hpc)
  | part start len => exact h.set (.inl hpc)
  | fresh v =>
    have hset := (h.of_handles (handles_fromVec v)).set (i := i)
      (x := ⟨.live, (s.fromVec v).1, (s.fromVec v).2.1, b.utf8, b.isSecret⟩) (.inl rfl)
    exact hset.of_handles rfl

/-- **Only `into_vec` is a call of more than one access** whose string is still there. -/
theorem State.Settled.step (h : s.Settled) {a : Action} (hnone : ∀ i, a ≠ .intoVec i)
    (hstep : Sharing.step s a = .ok s') : s'.Settled := by
  cases a with
  | make init =>
    cases init with
    | borrow value utf8 =>
      obtain rfl := Except.ok.inj hstep
      exact h.push (.inl rfl)
    | alloc value utf8 secret =>
      obtain rfl := Except.ok.inj hstep
      exact (h.of_handles (handles_fromVec value)).push (.inl rfl)
  | clone i =>
    obtain ⟨x, hx, hrest⟩ := bind_ok hstep
    obtain ⟨s₁, hs₁, hrest⟩ := bind_ok hrest
    obtain rfl := Except.ok.inj hrest
    exact (h.of_handles (handles_cloneOwnership hs₁)).push (.inl (pc_of_live hx))
  | usingValue i part utf8 =>
    obtain ⟨x, hx, hrest⟩ := bind_ok hstep
    have hpc := pc_of_live hx
    obtain ⟨value, -, hrest⟩ := bind_ok hrest
    split at hrest
    · split at hrest
      · obtain rfl := Except.ok.inj hrest
        exact h.push (.inl hpc)
      · obtain ⟨s₁, hs₁, hrest⟩ := bind_ok hrest
        obtain rfl := Except.ok.inj hrest
        exact (h.of_handles (handles_cloneOwnership hs₁)).push (.inl hpc)
    · cases hrest
  | edit i e =>
    obtain ⟨x, hx, hrest⟩ := bind_ok hstep
    obtain ⟨value, -, hrest⟩ := bind_ok hrest
    obtain rfl := Except.ok.inj hrest
    exact h.edited (pc_of_live hx) i _ _
  | intoVec i => exact absurd rfl (hnone i)
  | drop i =>
    obtain ⟨x, -, hrest⟩ := bind_ok hstep
    obtain rfl := Except.ok.inj hrest
    exact (h.set (i := i) (x := { x with pc := .gone }) (.inr rfl)).of_handles rfl
  | forget i =>
    obtain ⟨x, -, hrest⟩ := bind_ok hstep
    split at hrest
    · obtain rfl := Except.ok.inj hrest
      exact h.set (.inr rfl)
    · obtain ⟨s₁, hs₁, hrest⟩ := bind_ok hrest
      obtain rfl := Except.ok.inj hrest
      exact (h.of_handles (onArc_same hs₁).1).set (.inr rfl)
  | next i =>
    unfold Sharing.step at hstep
    dsimp only at hstep
    split at hstep
    · rename_i hi
      rw [h.next_eq hi] at hstep
      cases hstep
    · cases hstep
  | finish j =>
    unfold Sharing.step at hstep
    dsimp only at hstep
    split at hstep
    · exact h.of_handles (handles_finish hstep)
    · cases hstep

/-- Nobody erases anything but `into_vec`. -/
theorem not_erased_step (h : s.Settled) {a : Action} (hnone : ∀ i, a ≠ .intoVec i)
    (hsame : ∀ buffer ∈ s.buffers, buffer.cells = buffer.contents) (hstep : step s a = .ok s') :
    ∀ buffer ∈ s'.buffers, buffer.cells = buffer.contents := by
  have hkeeping : Keeping s a fun buffer => buffer.cells = buffer.contents := by
    refine ⟨fun _ => rfl, fun _ _ _ _ hcells _ => hcells, fun _ _ hcells => hcells,
      fun herases => ?_⟩
    cases a with
    | next i =>
      obtain ⟨x, hi, hunwrapped, -⟩ := herases
      have hpc := h x (List.mem_of_getElem? hi)
      simp [hunwrapped] at hpc
    | make | clone | usingValue | edit | intoVec | drop | forget | finish => cases herases
  exact (within_step hkeeping ⟨Nat.le_refl _, hsame⟩ hstep).2

end Settled

/-- **What is dropped is not erased.**  Unless a string is made into a `Vec`, all buffers, and those
that have been freed, have the bytes that they were made of, be they of secret strings. -/
theorem not_erased {as : List Action} {s : State w} (hrun : as.foldlM step new = .ok s)
    (hnone : ∀ i, .intoVec i ∉ as) : ∀ buffer ∈ s.buffers, buffer.cells = buffer.contents := by
  have hall : ∀ (as : List Action) (s₀ : State w), (∀ i, .intoVec i ∉ as) → s₀.Settled →
      (∀ buffer ∈ s₀.buffers, buffer.cells = buffer.contents) → as.foldlM step s₀ = .ok s →
      ∀ buffer ∈ s.buffers, buffer.cells = buffer.contents := by
    intro as
    induction as with
    | nil =>
      intro s₀ _ _ hsame hrun
      obtain rfl := Except.ok.inj hrun
      exact hsame
    | cons a as ih =>
      intro s₀ hnone hsettled hsame hrun
      obtain ⟨s₁, hs₁, hrest⟩ := foldlM_cons_ok hrun
      have hne (i : ℕ) : a ≠ .intoVec i := fun heq => hnone i (heq ▸ List.mem_cons_self)
      exact ih s₁ (fun i hi => hnone i (List.mem_cons_of_mem _ hi)) (hsettled.step hne hs₁)
        (not_erased_step hsettled hne hsame hs₁) hrest
  exact hall as new hnone (by simp [State.Settled, new]) (by simp [new]) hrun

/-- A secret string is dropped. -/
theorem not_erased_secret : ∃ s : State 64,
    [Action.make (.alloc [112, 97, 115, 115] .valid true), .drop 0, .finish 0, .finish 0,
      .finish 0].foldlM step new = .ok s ∧
    ∃ buffer ∈ s.buffers, buffer.status = .freed ∧ buffer.cells = [112, 97, 115, 115] := by
  obtain ⟨s, hs, buffer, hbuffer, hfreed, hcontents⟩ : ∃ s : State 64,
      [Action.make (.alloc [112, 97, 115, 115] .valid true), .drop 0, .finish 0, .finish 0,
        .finish 0].foldlM step new = .ok s ∧ ∃ buffer ∈ s.buffers, buffer.status = .freed ∧
          buffer.contents = [112, 97, 115, 115] :=
    ⟨_, rfl, _, List.mem_singleton_self _, rfl, rfl⟩
  have hcells := not_erased hs (by simp) buffer hbuffer
  exact ⟨s, hs, buffer, hbuffer, hfreed, hcells.trans hcontents⟩

end Sharing

end Vinezombie
