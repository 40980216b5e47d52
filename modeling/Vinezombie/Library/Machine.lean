import Mathlib.Logic.Relation
import Mathlib.Order.Basic

/-!
# Machines that are fed inputs one by one

A machine answers each input with an output and a next state.  The inputs of a run are a list; a run
has the list of its outputs and the state it ends in.

Two machines are compared in lockstep.  `Lockstep` says, of a relation between their states, that an
input which is good for the state it arrives in is answered alike and keeps the states related, and
that any other input is answered differently.  Then two related machines answer a whole run alike
exactly when each of its inputs is good (`Lockstep.outputs_eq_iff`), and in that case end in related
states (`Lockstep.final`).

A machine that may fail stops there; `Reach` is the set of states it can be in when it has not, and
`Reach.invariant` the rule for invariants.  `Meets` says of a run that each input is good for the
state it arrives in; `Meets.mono`, `meets_iff_of_keeps`, `meets_iff_forall_split`,
`meets_iff_forall_isPrefix`, `foldlM_ok_of_meets` and `foldlM_invariant` are the rules for such
runs, the last with the inputs seen so far.
-/

namespace Library.Machine

universe u

variable {σ τ α β : Type u}

/-! ## Runs -/

section Total

variable (step : σ → α → β × σ)

/-- The outputs of a run. -/
def outputs : σ → List α → List β
  | _, [] => []
  | s, a :: as => (step s a).1 :: outputs (step s a).2 as

/-- The state in which a run ends. -/
def final : σ → List α → σ
  | s, [] => s
  | s, a :: as => final (step s a).2 as

/-- Every input of a run is good for the state it arrives in. -/
def Throughout (Good : σ → α → Prop) : σ → List α → Prop
  | _, [] => True
  | s, a :: as => Good s a ∧ Throughout Good (step s a).2 as

/-- Inputs that are fed through a function. -/
theorem outputs_map {γ : Type u} (f : γ → α) (s : σ) (cs : List γ) :
    outputs step s (cs.map f) = outputs (fun s c => step s (f c)) s cs := by
  induction cs generalizing s with
  | nil => rfl
  | cons c cs ih => rw [List.map_cons, outputs, outputs, ih]

theorem final_eq_foldl (as : List α) (s : σ) :
    final step s as = as.foldl (fun s a => (step s a).2) s := by
  induction as generalizing s with
  | nil => rfl
  | cons a as ih => exact ih _

theorem throughout_of_forall {step : σ → α → β × σ} {Good : σ → α → Prop}
    (hgood : ∀ s a, Good s a) (as : List α) (s : σ) : Throughout step Good s as := by
  induction as generalizing s with
  | nil => trivial
  | cons a as ih => exact ⟨hgood s a, ih _⟩

end Total

/-! ## Two machines in lockstep -/

/-- What two machines do with one input when their states are related. -/
structure Lockstep (step : σ → α → β × σ) (step' : τ → α → β × τ) (R : σ → τ → Prop)
    (Good : σ → α → Prop) : Prop where
  /-- A good input is answered alike and keeps the states related. -/
  agree : ∀ s t a, R s t → Good s a →
    (step s a).1 = (step' t a).1 ∧ R (step s a).2 (step' t a).2
  /-- Any other input is answered differently. -/
  differ : ∀ s t a, R s t → ¬ Good s a → (step s a).1 ≠ (step' t a).1

namespace Lockstep

variable {step : σ → α → β × σ} {step' : τ → α → β × τ} {R : σ → τ → Prop} {Good : σ → α → Prop}

theorem final (h : Lockstep step step' R Good) {s : σ} {t : τ} (as : List α) (hR : R s t)
    (hgood : Throughout step Good s as) : R (final step s as) (final step' t as) := by
  induction as generalizing s t with
  | nil => exact hR
  | cons a as ih => exact ih (h.agree s t a hR hgood.1).2 hgood.2

/-- **Two machines answer a run alike exactly when each input is good.** -/
theorem outputs_eq_iff (h : Lockstep step step' R Good) {s : σ} {t : τ} (as : List α)
    (hR : R s t) : outputs step s as = outputs step' t as ↔ Throughout step Good s as := by
  induction as generalizing s t with
  | nil => simp [outputs, Throughout]
  | cons a as ih =>
    simp only [outputs, Throughout, List.cons.injEq]
    by_cases ha : Good s a
    · obtain ⟨hout, hnext⟩ := h.agree s t a hR ha
      rw [ih hnext]
      simp [ha, hout]
    · exact iff_of_false (fun hh => h.differ s t a hR ha hh.1) (fun hh => ha hh.1)

end Lockstep

/-! ## Machines that may fail -/

section Partial

variable {ε : Type u}

/-- The states that a machine can be in: the first ones, and those a step leads to. -/
inductive Reach (Init : σ → Prop) (step : σ → α → Except ε σ) : σ → Prop
  | init {s : σ} : Init s → Reach Init step s
  | step {s s' : σ} (a : α) : Reach Init step s → step s a = .ok s' → Reach Init step s'

/-- **The rule for invariants.** -/
theorem Reach.invariant {Init : σ → Prop} {step : σ → α → Except ε σ} (Inv : σ → Prop)
    (hinit : ∀ s, Init s → Inv s) (hstep : ∀ s a s', Inv s → step s a = .ok s' → Inv s') {s : σ}
    (h : Reach Init step s) : Inv s := by
  induction h with
  | init hs => exact hinit _ hs
  | step a _ hs ih => exact hstep _ a _ ih hs

/-- The parts of a step that does not fail. -/
theorem bind_ok {ρ ρ' : Type u} {x : Except ε ρ} {f : ρ → Except ε ρ'} {b : ρ'}
    (h : x >>= f = .ok b) : ∃ a, x = .ok a ∧ f a = .ok b := by
  cases x with
  | error e => exact absurd h (by simp [bind, Except.bind])
  | ok a => exact ⟨a, rfl, h⟩

/-- The first step of a run that does not fail, and the rest of it. -/
theorem foldlM_cons_ok {step : σ → α → Except ε σ} {a : α} {as : List α} {s s' : σ}
    (h : (a :: as).foldlM step s = .ok s') :
    ∃ s₁, step s a = .ok s₁ ∧ as.foldlM step s₁ = .ok s' := by
  rw [List.foldlM_cons] at h
  cases hs : step s a with
  | error e =>
    rw [hs] at h
    exact absurd h (by simp [bind, Except.bind])
  | ok s₁ =>
    rw [hs] at h
    exact ⟨s₁, rfl, h⟩

/-- A run that does not fail leads from a state that can be reached to another one. -/
theorem Reach.foldlM {Init : σ → Prop} {step : σ → α → Except ε σ} {as : List α} {s s' : σ}
    (h : Reach Init step s) (hrun : as.foldlM step s = .ok s') : Reach Init step s' := by
  induction as generalizing s with
  | nil =>
    rw [← Except.ok.inj hrun]
    exact h
  | cons a as ih =>
    obtain ⟨s₁, hs, hrest⟩ := foldlM_cons_ok hrun
    exact ih (h.step a hs) hrest

/-- Every input of a run is good for the state it arrives in, as long as the machine goes on. -/
def Meets (step : σ → α → Except ε σ) (Good : σ → α → Prop) : σ → List α → Prop
  | _, [] => True
  | s, a :: as => Good s a ∧ ∀ s', step s a = .ok s' → Meets step Good s' as

theorem meets_of_forall {step : σ → α → Except ε σ} {Good : σ → α → Prop}
    (hgood : ∀ s a, Good s a) (as : List α) (s : σ) : Meets step Good s as := by
  induction as generalizing s with
  | nil => trivial
  | cons a as ih => exact ⟨hgood s a, fun s' _ => ih s'⟩

theorem Meets.of_append {step : σ → α → Except ε σ} {Good : σ → α → Prop} {as bs : List α}
    {s : σ} (h : Meets step Good s (as ++ bs)) : Meets step Good s as := by
  induction as generalizing s with
  | nil => trivial
  | cons a as ih => exact ⟨h.1, fun s' hs' => ih (h.2 s' hs')⟩

/-- A run after which there is one more input. -/
theorem foldlM_concat {step : σ → α → Except ε σ} {as : List α} {a : α} {s s' : σ}
    (h : as.foldlM step s = .ok s') : (as ++ [a]).foldlM step s = step s' a := by
  rw [List.foldlM_append, h]
  show [a].foldlM step s' = step s' a
  rw [List.foldlM_cons]
  cases step s' a with
  | error e => rfl
  | ok s'' => rfl

/-- **Each input of a run**, with the state that it arrives in. -/
theorem meets_iff_forall_split {step : σ → α → Except ε σ} {Good : σ → α → Prop} {as : List α}
    {s : σ} : Meets step Good s as ↔ ∀ before a after s', as = before ++ a :: after →
      before.foldlM step s = .ok s' → Good s' a := by
  induction as generalizing s with
  | nil => exact iff_of_true trivial fun before a after s' h => absurd h (by simp)
  | cons a as ih =>
    constructor
    · rintro ⟨ha, has⟩ before b after s' hsplit hrun
      cases before with
      | nil =>
        obtain ⟨rfl, -⟩ := List.cons.inj hsplit
        rwa [← Except.ok.inj hrun]
      | cons c before =>
        obtain ⟨rfl, htail⟩ := List.cons.inj hsplit
        obtain ⟨s₁, hs₁, hrest⟩ := foldlM_cons_ok hrun
        exact ih.mp (has s₁ hs₁) before b after s' htail hrest
    · intro h
      refine ⟨h [] a as s rfl rfl, fun s₁ hs₁ => ih.mpr fun before b after s' hsplit hrun => ?_⟩
      refine h (a :: before) b after s' (by rw [hsplit, List.cons_append]) ?_
      rw [List.foldlM_cons, hs₁]
      exact hrun

/-- A run that fails does so at one of its inputs. -/
theorem exists_of_foldlM_error {step : σ → α → Except ε σ} {as : List α} {s : σ} {e : ε}
    (h : as.foldlM step s = .error e) : ∃ before a after s', as = before ++ a :: after ∧
      before.foldlM step s = .ok s' ∧ step s' a = .error e := by
  induction as generalizing s with
  | nil => exact absurd h (by simp [pure, Except.pure])
  | cons a as ih =>
    cases hs : step s a with
    | error e' =>
      rw [List.foldlM_cons, hs] at h
      exact ⟨[], a, as, s, rfl, rfl, hs.trans h⟩
    | ok s₁ =>
      rw [List.foldlM_cons, hs] at h
      obtain ⟨before, b, after, s', rfl, hrun, herror⟩ := ih h
      refine ⟨a :: before, b, after, s', rfl, ?_, herror⟩
      rw [List.foldlM_cons, hs]
      exact hrun

/-- **The rule for what a run of good inputs shows**, with an invariant. -/
theorem Meets.mono {step : σ → α → Except ε σ} {Good Shown : σ → α → Prop} (Inv : σ → Prop)
    (hshown : ∀ s a, Inv s → Good s a → Shown s a)
    (hstep : ∀ s a s', Inv s → Good s a → step s a = .ok s' → Inv s') {as : List α} {s : σ}
    (hinv : Inv s) (h : Meets step Good s as) : Meets step Shown s as := by
  induction as generalizing s with
  | nil => trivial
  | cons a as ih =>
    exact ⟨hshown s a hinv h.1, fun s' hs' => ih (hstep s a s' hinv h.1 hs') (h.2 s' hs')⟩

/-- **A property is kept throughout a run exactly if each input is good**, where the good inputs are
those that keep it. -/
theorem meets_iff_of_keeps {step : σ → α → Except ε σ} {Good : σ → α → Prop} (Inv : σ → Prop)
    (hgood : ∀ s a, Inv s → (Good s a ↔ ∀ s', step s a = .ok s' → Inv s')) {as : List α} {s : σ}
    (hinv : Inv s) :
    Meets step Good s as ↔ Meets step (fun s a => ∀ s', step s a = .ok s' → Inv s') s as := by
  induction as generalizing s with
  | nil => exact Iff.rfl
  | cons a as ih =>
    constructor
    · rintro ⟨ha, has⟩
      have hkeeps := (hgood s a hinv).mp ha
      exact ⟨hkeeps, fun s' hs' => (ih (hkeeps s' hs')).mp (has s' hs')⟩
    · rintro ⟨hkeeps, has⟩
      exact ⟨(hgood s a hinv).mpr hkeeps, fun s' hs' => (ih (hkeeps s' hs')).mpr (has s' hs')⟩

/-- What is kept throughout a run holds in every state that a part of the run leads to. -/
theorem meets_iff_forall_isPrefix {step : σ → α → Except ε σ} {P : σ → Prop} {as : List α} {s : σ}
    (hs : P s) :
    Meets step (fun s a => ∀ s', step s a = .ok s' → P s') s as ↔
      ∀ bs, bs <+: as → ∀ s', bs.foldlM step s = .ok s' → P s' := by
  induction as generalizing s with
  | nil =>
    refine iff_of_true trivial fun bs hbs s' hrun => ?_
    rw [List.prefix_nil.mp hbs] at hrun
    rwa [← Except.ok.inj hrun]
  | cons a as ih =>
    constructor
    · rintro ⟨ha, has⟩ bs hbs s' hrun
      cases bs with
      | nil => rwa [← Except.ok.inj hrun]
      | cons b bs =>
        obtain ⟨rfl, htail⟩ := List.cons_prefix_cons.mp hbs
        obtain ⟨s₁, hs₁, hrest⟩ := foldlM_cons_ok hrun
        exact (ih (ha s₁ hs₁)).mp (has s₁ hs₁) bs htail s' hrest
    · intro h
      have hcons : ∀ bs s₁ s', step s a = .ok s₁ → bs.foldlM step s₁ = .ok s' →
          (a :: bs).foldlM step s = .ok s' := by
        intro bs s₁ s' hs₁ hrest
        rw [List.foldlM_cons, hs₁]
        exact hrest
      have ha : ∀ s₁, step s a = .ok s₁ → P s₁ := fun s₁ hs₁ =>
        h [a] (List.cons_prefix_cons.mpr ⟨rfl, List.nil_prefix⟩) s₁ (hcons [] s₁ s₁ hs₁ rfl)
      exact ⟨ha, fun s₁ hs₁ => (ih (ha s₁ hs₁)).mpr fun bs hbs s' hrest =>
        h (a :: bs) (List.cons_prefix_cons.mpr ⟨rfl, hbs⟩) s' (hcons bs s₁ s' hs₁ hrest)⟩

/-- **The rule for runs of good inputs**, with an invariant that may speak about the inputs so
far. -/
theorem foldlM_invariant {step : σ → α → Except ε σ} {Good : σ → α → Prop}
    (Inv : List α → σ → Prop)
    (hstep : ∀ seen s a s', Inv seen s → Good s a → step s a = .ok s' → Inv (seen ++ [a]) s') :
    ∀ (as seen : List α) (s s' : σ), Inv seen s → Meets step Good s as →
      as.foldlM step s = .ok s' → Inv (seen ++ as) s' := by
  intro as
  induction as with
  | nil =>
    intro seen s s' hinv _ hrun
    rw [List.append_nil, ← Except.ok.inj hrun]
    exact hinv
  | cons a as ih =>
    intro seen s s' hinv hgood hrun
    obtain ⟨s₁, hs, hrest⟩ := foldlM_cons_ok hrun
    have hinv₁ := hstep seen s a s₁ hinv hgood.1 hs
    have hend := ih (seen ++ [a]) s₁ s' hinv₁ (hgood.2 s₁ hs) hrest
    rwa [List.append_assoc] at hend

end Partial

end Library.Machine
