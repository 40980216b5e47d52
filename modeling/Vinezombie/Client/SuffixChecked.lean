import Vinezombie.Client.SuffixStates

/-!
# Suffix generators with checked arithmetic

`client/nick/suffix.rs` once more, with arithmetic that panics where it overflows, as it does in
debug builds.  What `append` adds stays within a byte for every number, and a count that is not zero
has one to take off.  The limit has one to take off in the first state unless `Seq` is given
suffixes, and all of them are empty choices.

* `SuffixGen.nextNickChecked_eq`: in the states of `Bounded` nothing overflows.
* `Suffix.checked_iff`: which configurations make generators that are exhausted without overflow.
-/

namespace Vinezombie

open Library.Generator

/-- The panic of arithmetic that overflows. -/
inductive Overflow where
  | overflow
  deriving DecidableEq, Repr

/-- `u8::add`. -/
def checkedAdd (a b : UInt8) : Except Overflow UInt8 :=
  if a.toNat + b.toNat < 256 then .ok (a + b) else .error .overflow

theorem checkedAdd_of_lt {a b : UInt8} (h : a.toNat + b.toNat < 256) :
    checkedAdd a b = .ok (a + b) := if_pos h

/-! ## Building nicks -/

namespace SuffixType

/-- What `append` pushes for a number. -/
def pushedChecked : SuffixType → UInt8 → Except Overflow (List UInt8)
  | .letter uppercase, num => do
    .ok [← checkedAdd (if uppercase then byte 'A' else byte 'a') (num % 26)]
  | .base8, num => do .ok [← checkedAdd (byte '0') (num &&& 7)]
  | .base10, num => do .ok [← checkedAdd (byte '0') (num % 10)]
  | .base16 uppercase, num => do
    let num := num &&& 15
    .ok [← if uppercase && 9 < num then checkedAdd (byte 'A') num
      else if !uppercase && 9 < num then checkedAdd (byte 'a') num
      else checkedAdd (byte '0') num]
  | .nonZeroBase8, num => do .ok [← checkedAdd (byte '1') (num % 7)]
  | .nonZeroBase10, num => do .ok [← checkedAdd (byte '1') (num % 9)]
  | .nonZeroBase16 uppercase, num => do
    let num := num % 15
    .ok [← if uppercase && 8 < num then checkedAdd (byte 'A') num
      else if !uppercase && 8 < num then checkedAdd (byte 'a') num
      else checkedAdd (byte '1') num]
  | .choice opts, num =>
    match opts[num.toNat % opts.length]? with
    | some opt => .ok opt.bytes
    | none => .ok []
  | .char c, _ => .ok (String.utf8EncodeChar c)

/-- `append`. -/
def appendChecked (t : SuffixType) (num : UInt8) (nick : Nick) : Except Overflow Nick := do
  .ok (nick.tryAppend (← t.pushedChecked num))

/-- A digit is added to a character of ASCII. -/
theorem checkedAdd_of_ascii {a b : UInt8} (ha : a.toNat < 128) (hb : b.toNat < 128) :
    checkedAdd a b = .ok (a + b) := checkedAdd_of_lt (by omega)

theorem toNat_mod_lt (num : UInt8) {n : UInt8} (hpos : 0 < n.toNat) (hn : n.toNat < 128) :
    (num % n).toNat < 128 := by
  rw [UInt8.toNat_mod]
  exact (Nat.mod_lt _ hpos).trans hn

theorem toNat_and_lt (num : UInt8) {n : UInt8} (hn : n.toNat < 128) : (num &&& n).toNat < 128 := by
  rw [UInt8.toNat_and]
  exact Nat.and_le_right.trans_lt hn

/-- **What `append` adds does not overflow.** -/
theorem pushedChecked_eq (t : SuffixType) (num : UInt8) :
    t.pushedChecked num = .ok (t.pushed num) := by
  cases t with
  | letter uppercase =>
    have hbase : (if uppercase then byte 'A' else byte 'a').toNat < 128 := by
      cases uppercase <;> decide
    rw [pushedChecked, checkedAdd_of_ascii hbase (toNat_mod_lt num (by decide) (by decide))]
    rfl
  | base8 =>
    rw [pushedChecked, checkedAdd_of_ascii (by decide) (toNat_and_lt num (by decide))]
    rfl
  | base10 =>
    rw [pushedChecked, checkedAdd_of_ascii (by decide) (toNat_mod_lt num (by decide) (by decide))]
    rfl
  | base16 uppercase =>
    have hnum := toNat_and_lt num (n := 15) (by decide)
    rw [pushedChecked, checkedAdd_of_ascii (by decide) hnum, checkedAdd_of_ascii (by decide) hnum,
      checkedAdd_of_ascii (by decide) hnum, pushed]
    split
    · rfl
    · split
      · rfl
      · rfl
  | nonZeroBase8 =>
    rw [pushedChecked, checkedAdd_of_ascii (by decide) (toNat_mod_lt num (by decide) (by decide))]
    rfl
  | nonZeroBase10 =>
    rw [pushedChecked, checkedAdd_of_ascii (by decide) (toNat_mod_lt num (by decide) (by decide))]
    rfl
  | nonZeroBase16 uppercase =>
    have hnum := toNat_mod_lt num (n := 15) (by decide) (by decide)
    rw [pushedChecked, checkedAdd_of_ascii (by decide) hnum, checkedAdd_of_ascii (by decide) hnum,
      checkedAdd_of_ascii (by decide) hnum, pushed]
    split
    · rfl
    · split
      · rfl
      · rfl
  | choice opts =>
    rw [pushedChecked, pushed]
    cases opts[num.toNat % opts.length]? with
    | none => rfl
    | some opt => rfl
  | char c => rfl

theorem appendChecked_eq (t : SuffixType) (num : UInt8) (nick : Nick) :
    t.appendChecked num nick = .ok (t.append num nick) := by
  rw [appendChecked, pushedChecked_eq]
  rfl

/-- There is nothing to append for an empty choice only. -/
theorem variance_eq_zero_iff (t : SuffixType) : t.variance = 0 ↔ t = .choice [] := by
  constructor
  · intro h
    cases t with
    | choice opts =>
      have hlength : (UInt8.ofNat (min 255 opts.length)).toNat = 0 := congrArg UInt8.toNat h
      rw [UInt8.toNat_ofNat', Nat.mod_eq_of_lt (by omega)] at hlength
      rw [List.eq_nil_of_length_eq_zero (show opts.length = 0 by omega)]
    | letter | base8 | base10 | base16 | nonZeroBase8 | nonZeroBase10 | nonZeroBase16 | char =>
      simp [variance] at h
  · rintro rfl
    rfl

end SuffixType

/-! ## Generators -/

namespace SuffixGen

/-- The loop of `calc_next` for `Rng`.  The arithmetic of the state is meant to wrap. -/
def rngLoopChecked (state : UInt32) (cycle : Bool) (nick : Nick) :
    List SuffixType → Except Overflow (Nick × UInt32)
  | [] => .ok (nick, state)
  | suffix :: rest =>
    if cycle then do
      let state := lcg state
      rngLoopChecked state false (← suffix.appendChecked (state >>> 16).toUInt8 nick) rest
    else do
      rngLoopChecked state true (← suffix.appendChecked (state >>> 24).toUInt8 nick) rest

/-- The loop of `calc_next` for `Seq`. -/
def seqLoopChecked (count : UInt32) (nick : Nick) : List SuffixType → Except Overflow Nick
  | [] => .ok nick
  | suffix :: rest =>
    let variance := suffix.variance
    if variance = 0 then seqLoopChecked count nick rest
    else if count = 0 then .error .overflow
    else do
      let count := count - 1
      let nick ← suffix.appendChecked (count.toUInt8 % variance) nick
      let count := count / variance.toUInt32
      if count = 0 then .ok nick else seqLoopChecked count nick rest

variable (self : SuffixGen)

/-- `calc_next`. -/
def calcNextChecked : Except Overflow (Nick × UInt32) :=
  match self.cfg.strategy with
  | .rng _ => rngLoopChecked self.state true self.prefixNick self.cfg.suffixes
  | .seq => do
    if self.state.toNat + 1 < 2 ^ 32 then
      let state := self.state + 1
      .ok (← seqLoopChecked state self.prefixNick self.cfg.suffixes, state)
    else .error .overflow

/-- `next_nick`. -/
def nextNickChecked : Except Overflow (Nick × Option SuffixGen) := do
  let (nick, state) ← self.calcNextChecked
  if self.limit = 0 then .error .overflow
  else
    let limit := self.limit - 1
    .ok (nick, if limit ≠ 0 then some { self with state, limit } else none)

theorem rngLoopChecked_eq (state : UInt32) (cycle : Bool) (nick : Nick)
    (suffixes : List SuffixType) :
    rngLoopChecked state cycle nick suffixes = .ok (rngLoop state cycle nick suffixes) := by
  induction suffixes generalizing state cycle nick with
  | nil => rfl
  | cons suffix rest ih =>
    cases cycle with
    | true =>
      rw [rngLoopChecked, rngLoop, if_pos rfl, if_pos rfl]
      dsimp only
      rw [SuffixType.appendChecked_eq]
      exact ih _ _ _
    | false =>
      rw [rngLoopChecked, rngLoop, if_neg (by decide), if_neg (by decide),
        SuffixType.appendChecked_eq]
      exact ih _ _ _

/-- The loop for `Seq` stops before a count of zero. -/
theorem seqLoopChecked_eq {count : UInt32} (hcount : count ≠ 0) (nick : Nick)
    (suffixes : List SuffixType) :
    seqLoopChecked count nick suffixes = .ok (seqLoop count nick suffixes) := by
  induction suffixes generalizing count nick with
  | nil => rfl
  | cons suffix rest ih =>
    rw [seqLoopChecked, seqLoop]
    dsimp only
    by_cases hvariance : suffix.variance = 0
    · rw [if_pos hvariance, if_pos hvariance]
      exact ih hcount nick
    · rw [if_neg hvariance, if_neg hvariance, if_neg hcount, SuffixType.appendChecked_eq]
      change (if _ then _ else _) = _
      by_cases hquotient : (count - 1) / suffix.variance.toUInt32 = 0
      · rw [if_pos hquotient, if_pos hquotient]
      · rw [if_neg hquotient, if_neg hquotient]
        exact ih hquotient _

variable {self}

/-- **No overflow** in a state that is bounded. -/
theorem nextNickChecked_eq (h : self.Bounded) : self.nextNickChecked = .ok self.nextNick := by
  have hcalc : self.calcNextChecked = .ok self.calcNext := by
    unfold calcNextChecked calcNext
    cases hstrategy : self.cfg.strategy with
    | rng seed => exact rngLoopChecked_eq _ _ _ _
    | seq =>
      have hle := h.2 hstrategy
      have hlt : self.state.toNat + 1 < 2 ^ 32 := by omega
      have hne : self.state + 1 ≠ 0 := by
        intro hzero
        have hstate := congrArg UInt32.toNat hzero
        rw [UInt32.toNat_add, UInt32.toNat_one, Nat.mod_eq_of_lt hlt, UInt32.toNat_zero] at hstate
        omega
      dsimp only
      rw [if_pos hlt, seqLoopChecked_eq hne]
      rfl
  rw [nextNickChecked, hcalc]
  exact if_neg h.1

/-- A limit of zero underflows. -/
theorem nextNickChecked_of_limit (h : self.limit = 0) (r : Nick × Option SuffixGen) :
    self.nextNickChecked ≠ .ok r := by
  unfold nextNickChecked
  cases self.calcNextChecked with
  | error e => exact fun hr => nomatch hr
  | ok next =>
    change (if self.limit = 0 then _ else _) ≠ _
    rw [if_pos h]
    exact fun hr => nomatch hr

/-- **A run** of a generator that is bounded is as long as its limit. -/
theorem Bounded.yields_checked (h : self.Bounded) :
    ∃ nicks, Yields nextNickChecked (some self) nicks ∧ nicks.length = self.limit.toNat := by
  have hstep := nextNickChecked_eq h
  induction hlimit : self.limit.toNat generalizing self with
  | zero => exact absurd (UInt8.toNat_inj.mp hlimit) h.1
  | succ n ih =>
    have hrest : (self.limit - 1).toNat = n := by
      rw [toNat_limit_sub_one h.1, hlimit, Nat.add_sub_cancel]
    by_cases hzero : self.limit - 1 = 0
    · have hnext := nextNick_snd_of_eq_zero hzero
      rw [hzero, UInt8.toNat_zero] at hrest
      refine ⟨[self.nextNick.1], .next (hstep.trans ?_) .done, congrArg (· + 1) hrest⟩
      rw [← hnext]
    · have hnext := nextNick_snd_of_ne_zero hzero
      have hbounded := h.nextNick hnext
      obtain ⟨nicks, hyields, hlength⟩ := ih hbounded (nextNickChecked_eq hbounded) hrest
      refine ⟨self.nextNick.1 :: nicks, .next (hstep.trans ?_) hyields, congrArg (· + 1) hlength⟩
      rw [← hnext]

end SuffixGen

/-! ## The generators of `transform` -/

namespace Suffix

/-- The limit for `Seq` where all suffixes are empty choices. -/
theorem limit_transform_eq_zero {self : Suffix} (hseq : self.strategy = .seq)
    (hne : self.suffixes ≠ []) (hempty : ∀ t ∈ self.suffixes, t = .choice []) (prefixNick : Nick)
    (fresh : UInt32) : (self.transform prefixNick fresh).limit = 0 := by
  have hfold : ∀ suffixes : List SuffixType, (∀ t ∈ suffixes, t = .choice []) →
      suffixes.foldl (fun count suffix => saturatingAdd count suffix.variance) 0 = 0 := by
    intro suffixes hall
    induction suffixes with
    | nil => rfl
    | cons t rest ih =>
      rw [List.foldl_cons, hall t List.mem_cons_self]
      exact ih fun t ht => hall t (List.mem_cons_of_mem _ ht)
  unfold transform
  rw [if_neg (by simpa using hne), hseq]
  exact hfold self.suffixes hempty

/-- **Without overflow**, and with at least one nick and at most 255: unless suffixes are given to
`Seq`, and all of them are empty choices. -/
theorem checked_iff (self : Suffix) (prefixNick : Nick) (fresh : UInt32) :
    (∃ nicks, Yields SuffixGen.nextNickChecked (some (self.transform prefixNick fresh)) nicks ∧
      1 ≤ nicks.length ∧ nicks.length ≤ 255) ↔
    (self.strategy = .seq → self.suffixes = [] ∨ ∃ t ∈ self.suffixes, t ≠ .choice []) := by
  constructor
  · rintro ⟨nicks, hyields, -⟩ hseq
    by_contra hcon
    obtain ⟨hne, hempty⟩ := not_or.mp hcon
    have hall : ∀ t ∈ self.suffixes, t = .choice [] := fun t ht =>
      by_contra fun hchoice => hempty ⟨t, ht, hchoice⟩
    have hlimit := limit_transform_eq_zero hseq hne hall prefixNick fresh
    cases hyields with
    | next hstep _ => exact SuffixGen.nextNickChecked_of_limit hlimit _ hstep
  · intro hcond
    have hachievable : self.Achievable := by
      intro hseq
      refine (hcond hseq).imp id ?_
      rintro ⟨t, ht, hchoice⟩
      exact ⟨t, ht, fun hzero => hchoice (t.variance_eq_zero_iff.mp hzero)⟩
    have hbounded := self.bounded_transform prefixNick fresh hachievable
    obtain ⟨nicks, hyields, hlength⟩ := hbounded.yields_checked
    have hpos : (self.transform prefixNick fresh).limit.toNat ≠ 0 := fun hzero =>
      hbounded.1 (UInt8.toNat_inj.mp hzero)
    have hlt := (self.transform prefixNick fresh).limit.toNat_lt
    exact ⟨nicks, hyields, by omega, by omega⟩

/-- An empty choice leaves nothing to take off the limit. -/
theorem seq_choice_nil_overflows :
    ¬∃ nicks, Yields SuffixGen.nextNickChecked
      (some (Suffix.transform ⟨.seq, [.choice []]⟩ fooNick 0)) nicks ∧
      1 ≤ nicks.length ∧ nicks.length ≤ 255 := by
  rintro ⟨nicks, hyields, -⟩
  cases hyields with
  | next hstep _ => exact SuffixGen.nextNickChecked_of_limit rfl _ hstep

end Suffix

end Vinezombie
