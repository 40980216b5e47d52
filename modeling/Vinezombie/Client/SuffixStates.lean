import Mathlib.Algebra.Order.BigOperators.Group.List
import Mathlib.Algebra.Order.Group.Nat
import Vinezombie.Client.Suffix
import Vinezombie.Library.Generator

/-!
# The states of a suffix generator

The states that a generator goes through, from the one that `transform` makes until its limit is
used up.  Where it has something to append, its arithmetic does not wrap in any of them
(`SuffixGen.Bounded`).

* `SuffixGen.bytes_calcNext`: the nick of a state that is reached.
* `SuffixGen.yields_nicks`: what a generator yields.
* `Suffix.bounded_transform`: the limit is large enough for one nick, and small enough for a byte.
-/

namespace Vinezombie

open Library.BijectiveRadix Library.Generator

namespace SuffixGen

variable (self : SuffixGen)

/-! ## The states that are reached -/

/-- There are nicks left, and the count of `Seq` fits into a byte until the limit is used up: the
arithmetic does not wrap. -/
def Bounded : Prop :=
  self.limit ≠ 0 ∧ (self.cfg.strategy = .seq → self.state.toNat + self.limit.toNat ≤ 255)

/-- A count is bounded, unless there is nothing to append. -/
def Counted : Prop :=
  self.cfg.strategy = .seq → active self.cfg.suffixes = [] ∨ self.Bounded

variable {self}

/-- **One nick**: the prefix and what is made of the numbers. -/
theorem bytes_calcNext (h : self.Counted) :
    self.calcNext.1.bytes = self.prefixNick.bytes ++ pieces self.numbers := by
  unfold calcNext numbers
  cases hstrategy : self.cfg.strategy with
  | rng seed =>
    have hloop := bytes_rngLoop self.state self.cfg.suffixes 0 self.prefixNick
    exact hloop
  | seq =>
    dsimp only
    rcases h hstrategy with hnil | ⟨hlimit, hbound⟩
    · rw [seqLoop_of_active_nil hnil, hnil]
      exact (List.append_nil _).symm
    · have hle := hbound hstrategy
      have hpos : 1 ≤ self.limit.toNat :=
        Nat.one_le_iff_ne_zero.mpr fun h0 => hlimit (UInt8.toNat_inj.mp h0)
      have hstate : (self.state + 1).toNat = self.state.toNat + 1 := by
        rw [UInt32.toNat_add]
        exact Nat.mod_eq_of_lt (by change self.state.toNat + 1 < 2 ^ 32; omega)
      rw [bytes_seqLoop _ _ _ (by omega) (by omega), hstate]

theorem nextNick_snd_of_eq_zero (h : self.limit - 1 = 0) : self.nextNick.2 = none :=
  if_neg (not_not.mpr h)

theorem nextNick_snd_of_ne_zero (h : self.limit - 1 ≠ 0) :
    self.nextNick.2 = some { self with state := self.calcNext.2, limit := self.limit - 1 } :=
  if_pos h

/-- What the next state of a generator is. -/
theorem nextNick_snd_eq_some {g : SuffixGen} (h : self.nextNick.2 = some g) :
    self.limit - 1 ≠ 0 ∧
      g = { self with state := self.calcNext.2, limit := self.limit - 1 } := by
  by_cases hlimit : self.limit - 1 = 0
  · rw [nextNick_snd_of_eq_zero hlimit] at h
    exact absurd h (by simp)
  · rw [nextNick_snd_of_ne_zero hlimit] at h
    exact ⟨hlimit, (Option.some.inj h).symm⟩

theorem toNat_limit_sub_one (h : self.limit ≠ 0) :
    (self.limit - 1).toNat = self.limit.toNat - 1 := by
  have hpos : 1 ≤ self.limit.toNat :=
    Nat.one_le_iff_ne_zero.mpr fun h0 => h (UInt8.toNat_inj.mp h0)
  exact UInt8.toNat_sub_of_le self.limit 1 (UInt8.le_iff_toNat_le.mpr hpos)

/-- The state after one nick of `Seq`. -/
theorem toNat_calcNext_snd (hseq : self.cfg.strategy = .seq) (h : self.state.toNat < 255) :
    self.calcNext.2.toNat = self.state.toNat + 1 := by
  have hsnd : self.calcNext.2 = self.state + 1 := by
    unfold calcNext
    rw [hseq]
  rw [hsnd, UInt32.toNat_add]
  exact Nat.mod_eq_of_lt (by change self.state.toNat + 1 < 2 ^ 32; omega)

/-- **One step** keeps a generator bounded. -/
theorem Bounded.nextNick (h : self.Bounded) {g : SuffixGen} (hg : self.nextNick.2 = some g) :
    g.Bounded := by
  obtain ⟨hlimit, rfl⟩ := nextNick_snd_eq_some hg
  refine ⟨hlimit, fun hseq => ?_⟩
  have hle := h.2 hseq
  have hpos : 1 ≤ self.limit.toNat :=
    Nat.one_le_iff_ne_zero.mpr fun h0 => h.1 (UInt8.toNat_inj.mp h0)
  have hstate : self.calcNext.2.toNat = self.state.toNat + 1 :=
    toNat_calcNext_snd hseq (by omega)
  have hlimit' : (self.limit - 1).toNat = self.limit.toNat - 1 := toNat_limit_sub_one h.1
  change self.calcNext.2.toNat + (self.limit - 1).toNat ≤ 255
  omega

theorem Counted.nextNick (h : self.Counted) {g : SuffixGen} (hg : self.nextNick.2 = some g) :
    g.Counted := by
  obtain ⟨-, hcfg⟩ := nextNick_snd_eq_some hg
  intro hseq
  rw [hcfg] at hseq
  refine (h hseq).imp (fun hnil => ?_) fun hbounded => hbounded.nextNick hg
  rw [hcfg]
  exact hnil

/-- A generator that is left of another one after some nicks. -/
def Later : SuffixGen → SuffixGen → Prop :=
  Relation.ReflTransGen fun g g' => g.nextNick.2 = some g'

/-- **A run** keeps the configuration and the prefix, and the count within a byte. -/
theorem Later.counted {g : SuffixGen} (h : Later self g) (hself : self.Counted) :
    g.Counted ∧ g.cfg = self.cfg ∧ g.prefixNick = self.prefixNick := by
  induction h with
  | refl => exact ⟨hself, rfl, rfl⟩
  | tail _ hstep ih =>
    obtain ⟨-, hg⟩ := nextNick_snd_eq_some hstep
    refine ⟨ih.1.nextNick hstep, ?_, ?_⟩
    · rw [hg]
      exact ih.2.1
    · rw [hg]
      exact ih.2.2

/-! ## What a generator yields -/

/-- Asking a generator of this kind for a nick does not fail. -/
def step (self : SuffixGen) : Except Empty (Nick × Option SuffixGen) := .ok self.nextNick

/-- The nicks of a number of states, from one state on. -/
def nicksFrom (cfg : Suffix) (prefixNick : Nick) : ℕ → UInt32 → List Nick
  | 0, _ => []
  | limit + 1, state =>
    let (nick, state) := (SuffixGen.mk cfg prefixNick state 0).calcNext
    nick :: nicksFrom cfg prefixNick limit state

/-- The nicks until the limit is used up.  A limit of zero wraps. -/
def nicks (self : SuffixGen) : List Nick :=
  nicksFrom self.cfg self.prefixNick ((self.limit - 1).toNat + 1) self.state

/-- **What a generator yields.** -/
theorem yields_nicks (self : SuffixGen) : Yields step (some self) self.nicks := by
  have hstep : step self = .ok (self.calcNext.1, self.nextNick.2) := rfl
  induction hlimit : (self.limit - 1).toNat generalizing self with
  | zero =>
    have hnext : self.nextNick.2 = none := nextNick_snd_of_eq_zero (UInt8.toNat_inj.mp hlimit)
    rw [hnext] at hstep
    rw [nicks, hlimit]
    exact .next hstep .done
  | succ n ih =>
    have hne : self.limit - 1 ≠ 0 := by
      intro hzero
      rw [hzero] at hlimit
      exact absurd hlimit (by simp)
    have hrest : (self.limit - 1 - 1).toNat = n := by
      rw [@toNat_limit_sub_one { self with limit := self.limit - 1 } hne]
      change (self.limit - 1).toNat - 1 = n
      omega
    have hyields := ih { self with state := self.calcNext.2, limit := self.limit - 1 } rfl hrest
    rw [nicks] at hyields
    dsimp only at hyields
    rw [hrest] at hyields
    rw [nextNick_snd_of_ne_zero hne] at hstep
    rw [nicks, hlimit]
    exact .next hstep hyields

theorem isPrefix_append (t : SuffixType) (num : UInt8) (nick : Nick) :
    nick.bytes <+: (t.append num nick).bytes := by
  rw [SuffixType.bytes_append]
  exact List.prefix_append _ _

theorem isPrefix_rngLoop (state : UInt32) (cycle : Bool) (nick : Nick)
    (suffixes : List SuffixType) :
    nick.bytes <+: (rngLoop state cycle nick suffixes).1.bytes := by
  induction suffixes generalizing state cycle nick with
  | nil => exact List.prefix_rfl
  | cons suffix rest ih =>
    rw [rngLoop]
    split
    · exact (isPrefix_append suffix _ nick).trans (ih _ _ _)
    · exact (isPrefix_append suffix _ nick).trans (ih _ _ _)

theorem isPrefix_seqLoop (count : UInt32) (nick : Nick) (suffixes : List SuffixType) :
    nick.bytes <+: (seqLoop count nick suffixes).bytes := by
  induction suffixes generalizing count nick with
  | nil => exact List.prefix_rfl
  | cons suffix rest ih =>
    rw [seqLoop]
    split
    · exact ih count nick
    · dsimp only
      split
      · exact isPrefix_append suffix _ nick
      · exact (isPrefix_append suffix _ nick).trans (ih _ _)

/-- **Every nick begins with the prefix**, also in states that are not reached. -/
theorem isPrefix_calcNext (self : SuffixGen) :
    self.prefixNick.bytes <+: self.calcNext.1.bytes := by
  unfold calcNext
  cases self.cfg.strategy with
  | rng seed => exact isPrefix_rngLoop self.state true self.prefixNick self.cfg.suffixes
  | seq => exact isPrefix_seqLoop (self.state + 1) self.prefixNick self.cfg.suffixes

theorem isPrefix_of_mem_nicks {nick : Nick} (h : nick ∈ self.nicks) :
    self.prefixNick.bytes <+: nick.bytes := by
  have hstep : ∀ (g : SuffixGen) (nick : Nick) (o : Option SuffixGen),
      g.prefixNick = self.prefixNick → step g = .ok (nick, o) →
      self.prefixNick.bytes <+: nick.bytes ∧ ∀ g', o = some g' → g'.prefixNick = self.prefixNick := by
    intro g nick o hsame hnick
    obtain ⟨rfl, rfl⟩ := Prod.mk.inj (Except.ok.inj hnick)
    refine ⟨hsame ▸ g.isPrefix_calcNext, fun g' hg' => ?_⟩
    obtain ⟨-, rfl⟩ := nextNick_snd_eq_some hg'
    exact hsame
  refine self.yields_nicks.invariant hstep ?_ nick h
  rintro g ⟨rfl⟩
  rfl

end SuffixGen

/-! ## The limit -/

/-- Adding up numbers that stop at 255. -/
theorem toNat_foldl_saturatingAdd (f : SuffixType → UInt8) (suffixes : List SuffixType)
    (count : UInt8) :
    (suffixes.foldl (fun count suffix => saturatingAdd count (f suffix)) count).toNat =
      min 255 (count.toNat + (suffixes.map fun suffix => (f suffix).toNat).sum) := by
  have hadd : ∀ a b : UInt8, (saturatingAdd a b).toNat = min 255 (a.toNat + b.toNat) := by
    intro a b
    rw [saturatingAdd, UInt8.toNat_ofNat']
    exact Nat.mod_eq_of_lt (by omega)
  induction suffixes generalizing count with
  | nil =>
    have hlt := count.toNat_lt
    rw [List.foldl_nil, List.map_nil, List.sum_nil]
    omega
  | cons suffix rest ih =>
    rw [List.foldl_cons, ih, hadd, List.map_cons, List.sum_cons]
    omega

namespace Suffix

/-- A suffix type has something to append, where that decides whether there is a nick. -/
def Achievable (self : Suffix) : Prop :=
  self.strategy = .seq → self.suffixes = [] ∨ ∃ suffix ∈ self.suffixes, suffix.variance ≠ 0

variable (self : Suffix) (prefixNick : Nick) (fresh : UInt32)

/-- The limit of a generator is zero only if there is nothing to append. -/
theorem limit_transform_ne_zero (h : self.Achievable) :
    (self.transform prefixNick fresh).limit ≠ 0 := by
  unfold transform
  split
  · simp
  · rename_i hne
    cases hstrategy : self.strategy with
    | rng seed =>
      intro hzero
      have hfold : self.suffixes.foldl (fun count suffix =>
          saturatingAdd count (suffix.variance / 2)) 1 = 0 := hzero
      have hsum := toNat_foldl_saturatingAdd (fun suffix => suffix.variance / 2) self.suffixes 1
      rw [hfold] at hsum
      change 0 = min 255 (1 + _) at hsum
      omega
    | seq =>
      intro hzero
      have hfold : self.suffixes.foldl (fun count suffix =>
          saturatingAdd count suffix.variance) 0 = 0 := hzero
      have hsum := toNat_foldl_saturatingAdd SuffixType.variance self.suffixes 0
      rw [hfold] at hsum
      rcases h hstrategy with hnil | ⟨suffix, hmem, hvariance⟩
      · exact hne (by rw [hnil]; rfl)
      · have hle := List.single_le_sum (by simp) _
          (List.mem_map_of_mem (f := fun suffix : SuffixType => suffix.variance.toNat) hmem)
        have hpos : suffix.variance.toNat ≠ 0 := fun h0 => hvariance (UInt8.toNat_inj.mp h0)
        change 0 = min 255 (0 + _) at hsum
        omega

/-- A count starts with the state 0. -/
theorem transform_of_seq (hseq : (self.transform prefixNick fresh).cfg.strategy = .seq) :
    (self.transform prefixNick fresh).cfg = self ∧
      (self.transform prefixNick fresh).state = 0 := by
  unfold transform at hseq ⊢
  by_cases hne : self.suffixes.isEmpty
  · rw [if_pos hne] at hseq
    exact absurd hseq (by simp [default])
  · rw [if_neg hne] at hseq ⊢
    cases hstrategy : self.strategy with
    | rng seed =>
      rw [hstrategy] at hseq
      exact absurd (hstrategy.symm.trans hseq) (by simp)
    | seq => exact ⟨rfl, rfl⟩

/-- A generator with something to append is bounded at first. -/
theorem bounded_transform (h : self.Achievable) :
    (self.transform prefixNick fresh).Bounded := by
  refine ⟨self.limit_transform_ne_zero prefixNick fresh h, fun hseq => ?_⟩
  have hlt := (self.transform prefixNick fresh).limit.toNat_lt
  rw [(self.transform_of_seq prefixNick fresh hseq).2, UInt32.toNat_zero]
  omega

theorem counted_transform : (self.transform prefixNick fresh).Counted := by
  intro hseq
  have hcfg := (self.transform_of_seq prefixNick fresh hseq).1
  by_cases hactive : SuffixGen.active self.suffixes = []
  · rw [hcfg]
    exact .inl hactive
  · obtain ⟨suffix, hmem⟩ := List.exists_mem_of_ne_nil _ hactive
    obtain ⟨hmem, hvariance⟩ := List.mem_filter.mp hmem
    exact .inr (self.bounded_transform prefixNick fresh fun _ =>
      .inr ⟨suffix, hmem, of_decide_eq_true hvariance⟩)

end Suffix

end Vinezombie
