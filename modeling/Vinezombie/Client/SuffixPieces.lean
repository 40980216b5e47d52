import Vinezombie.Client.SuffixStates

/-!
# The alphabets of nick suffixes

Each variant of `SuffixType` says in its documentation what it appends.  `SuffixType.Alphabet` is
that text, and `SuffixType.Below` says for which numbers `append` keeps to it: for all of them but
the hexadecimal digits above nine, which are counted from `A` without taking ten off first.

* `SuffixGen.piecesDocumented_iff`: in which states of a generator the nick is what is documented.
-/

namespace Vinezombie

/-! ## What is documented -/

/-- A byte between two characters. -/
def Within (first last : Char) (b : UInt8) : Prop := byte first ≤ b ∧ b ≤ byte last

instance (first last : Char) (b : UInt8) : Decidable (Within first last b) :=
  inferInstanceAs (Decidable (_ ∧ _))

namespace SuffixType

/-- The documented bytes of the types that append one digit or letter. -/
def Digit : SuffixType → UInt8 → Prop
  | .letter uppercase, b => if uppercase then Within 'A' 'Z' b else Within 'a' 'z' b
  | .base8, b => Within '0' '7' b
  | .base10, b => Within '0' '9' b
  | .base16 uppercase, b =>
    Within '0' '9' b ∨ if uppercase then Within 'A' 'F' b else Within 'a' 'f' b
  | .nonZeroBase8, b => Within '1' '7' b
  | .nonZeroBase10, b => Within '1' '9' b
  | .nonZeroBase16 uppercase, b =>
    Within '1' '9' b ∨ if uppercase then Within 'A' 'F' b else Within 'a' 'f' b
  | .choice _, _ => False
  | .char _, _ => False

instance : (t : SuffixType) → (b : UInt8) → Decidable (t.Digit b)
  | .letter uppercase, b =>
    inferInstanceAs (Decidable (if uppercase then Within 'A' 'Z' b else Within 'a' 'z' b))
  | .base8, b => inferInstanceAs (Decidable (Within '0' '7' b))
  | .base10, b => inferInstanceAs (Decidable (Within '0' '9' b))
  | .base16 uppercase, b =>
    inferInstanceAs (Decidable (Within '0' '9' b ∨
      if uppercase then Within 'A' 'F' b else Within 'a' 'f' b))
  | .nonZeroBase8, b => inferInstanceAs (Decidable (Within '1' '7' b))
  | .nonZeroBase10, b => inferInstanceAs (Decidable (Within '1' '9' b))
  | .nonZeroBase16 uppercase, b =>
    inferInstanceAs (Decidable (Within '1' '9' b ∨
      if uppercase then Within 'A' 'F' b else Within 'a' 'f' b))
  | .choice _, _ => inferInstanceAs (Decidable False)
  | .char _, _ => inferInstanceAs (Decidable False)

/-- **The documented alphabet** of a suffix type.  `Choice` considers the first 256 elements, and has
nothing to append if there is none; a character that is not valid in a nick is not appended. -/
def Alphabet : SuffixType → List UInt8 → Prop
  | .choice opts, p => if opts = [] then p = [] else ∃ opt ∈ opts.take 256, p = opt.bytes
  | .char c, p =>
    p = if allValid (String.utf8EncodeChar c) then String.utf8EncodeChar c else []
  | t, p => ∃ b, p = [b] ∧ t.Digit b

/-- A number whose hexadecimal digit is a decimal one. -/
def Below : SuffixType → UInt8 → Prop
  | .base16 _, num => num &&& 15 ≤ 9
  | .nonZeroBase16 _, num => num % 15 ≤ 8
  | _, _ => True

instance : (t : SuffixType) → (num : UInt8) → Decidable (t.Below num)
  | .base16 _, num => inferInstanceAs (Decidable (num &&& 15 ≤ 9))
  | .nonZeroBase16 _, num => inferInstanceAs (Decidable (num % 15 ≤ 8))
  | .letter _, _ => inferInstanceAs (Decidable True)
  | .base8, _ => inferInstanceAs (Decidable True)
  | .base10, _ => inferInstanceAs (Decidable True)
  | .nonZeroBase8, _ => inferInstanceAs (Decidable True)
  | .nonZeroBase10, _ => inferInstanceAs (Decidable True)
  | .choice _, _ => inferInstanceAs (Decidable True)
  | .char _, _ => inferInstanceAs (Decidable True)

/-! ## What is appended -/

/-- Where one byte is pushed that is valid in a nick, the piece is that byte. -/
theorem alphabet_iff_below {t : SuffixType}
    (h : ∀ n < 256, allValid (t.pushed (UInt8.ofNat n)) = true ∧
      (t.Digit ((t.pushed (UInt8.ofNat n)).headD 0) ↔ t.Below (UInt8.ofNat n)))
    {num b : UInt8} (hpushed : t.pushed num = [b]) :
    (∃ c, t.piece num = [c] ∧ t.Digit c) ↔ t.Below num := by
  obtain ⟨hvalid, hdigit⟩ : allValid (t.pushed num) = true ∧
      (t.Digit ((t.pushed num).headD 0) ↔ t.Below num) :=
    @forall_byte (fun num => allValid (t.pushed num) = true ∧
      (t.Digit ((t.pushed num).headD 0) ↔ t.Below num)) h num
  have hpiece : t.piece num = [b] := by
    unfold piece
    rw [if_pos hvalid, hpushed]
  rw [hpushed, List.headD_cons] at hdigit
  rw [hpiece, ← hdigit]
  constructor
  · rintro ⟨c, hc, hdigit⟩
    rw [List.singleton_inj.mp hc]
    exact hdigit
  · exact fun hdigit => ⟨b, rfl, hdigit⟩

/-- One of the first 256 options is appended, if there is one. -/
theorem exists_piece_choice {opts : List Nick} (h : opts ≠ []) (num : UInt8) :
    ∃ opt ∈ opts.take 256, (choice opts).piece num = opt.bytes := by
  have hlt : num.toNat % opts.length < opts.length :=
    Nat.mod_lt _ (List.length_pos_of_ne_nil h)
  have hle : num.toNat % opts.length < 256 := (Nat.mod_le _ _).trans_lt num.toNat_lt
  have hget : opts[num.toNat % opts.length]? = some opts[num.toNat % opts.length] :=
    List.getElem?_eq_getElem hlt
  have hpushed : (choice opts).pushed num = opts[num.toNat % opts.length].bytes := by
    unfold pushed
    dsimp only
    rw [hget]
  refine ⟨opts[num.toNat % opts.length], ?_, ?_⟩
  · refine List.mem_iff_getElem?.mpr ⟨num.toNat % opts.length, ?_⟩
    rw [List.getElem?_take_of_lt hle, hget]
  · unfold piece
    rw [hpushed]
    exact if_pos (allValid_iff.mpr fun b hb =>
      opts[num.toNat % opts.length].isInvalid_eq_false hb)

/-- **One piece** is in the alphabet of its type exactly for the numbers below. -/
theorem alphabet_piece_iff (t : SuffixType) (num : UInt8) :
    t.Alphabet (t.piece num) ↔ t.Below num := by
  cases t with
  | letter uppercase =>
    cases uppercase with
    | false => exact alphabet_iff_below (by decide +kernel) rfl
    | true => exact alphabet_iff_below (by decide +kernel) rfl
  | base8 => exact alphabet_iff_below (by decide +kernel) rfl
  | base10 => exact alphabet_iff_below (by decide +kernel) rfl
  | base16 uppercase =>
    cases uppercase with
    | false => exact alphabet_iff_below (by decide +kernel) rfl
    | true => exact alphabet_iff_below (by decide +kernel) rfl
  | nonZeroBase8 => exact alphabet_iff_below (by decide +kernel) rfl
  | nonZeroBase10 => exact alphabet_iff_below (by decide +kernel) rfl
  | nonZeroBase16 uppercase =>
    cases uppercase with
    | false => exact alphabet_iff_below (by decide +kernel) rfl
    | true => exact alphabet_iff_below (by decide +kernel) rfl
  | choice opts =>
    refine iff_true_intro ?_
    by_cases h : opts = []
    · subst h
      rfl
    · have halphabet : (choice opts).Alphabet ((choice opts).piece num) =
          ∃ opt ∈ opts.take 256, (choice opts).piece num = opt.bytes := if_neg h
      rw [halphabet]
      exact exists_piece_choice h num
  | char c => exact iff_true_intro rfl

end SuffixType

/-! ## The nicks of a generator -/

namespace SuffixGen

/-- **What is documented of the nick of a state**: it is the prefix followed by one piece for each
suffix type that is used, in order, and each piece is in the alphabet of its type.  `Rng` uses all
suffix types, and `Seq` the first ones of those that have something to append. -/
structure PiecesDocumented (g : SuffixGen) : Prop where
  bytes : g.nextNick.1.bytes = g.prefixNick.bytes ++ pieces g.numbers
  all : g.cfg.strategy ≠ .seq → g.numbers.map Prod.fst = g.cfg.suffixes
  first : g.cfg.strategy = .seq → g.numbers.map Prod.fst <+: active g.cfg.suffixes
  alphabet : ∀ u ∈ g.numbers, u.1.Alphabet (u.1.piece u.2)

variable {self : SuffixGen}

/-- The suffix types that `Rng` uses. -/
theorem map_fst_numbers (h : self.cfg.strategy ≠ .seq) :
    self.numbers.map Prod.fst = self.cfg.suffixes := by
  unfold numbers
  cases hstrategy : self.cfg.strategy with
  | rng seed =>
    dsimp only
    rw [List.map_map]
    exact List.zipIdx_map_fst 0 self.cfg.suffixes
  | seq => exact absurd hstrategy h

/-- The suffix types that `Seq` uses. -/
theorem map_fst_numbers_isPrefix (h : self.cfg.strategy = .seq) :
    self.numbers.map Prod.fst <+: active self.cfg.suffixes := by
  unfold numbers
  rw [h]
  dsimp only
  rw [List.zip_eq_zip_take_min, List.map_fst_zip (by simp)]
  exact List.take_prefix _ _

/-- **In which states the nick is what is documented**: in those with a number below for each suffix
type that is used. -/
theorem piecesDocumented_iff {cfg : Suffix} {prefixNick : Nick} {fresh : UInt32} {g : SuffixGen}
    (h : Later (cfg.transform prefixNick fresh) g) :
    g.PiecesDocumented ↔ ∀ u ∈ g.numbers, u.1.Below u.2 := by
  constructor
  · intro hdocumented u hu
    exact (u.1.alphabet_piece_iff u.2).mp (hdocumented.alphabet u hu)
  · intro hbelow
    have hcounted := (h.counted (cfg.counted_transform prefixNick fresh)).1
    exact ⟨bytes_calcNext hcounted, map_fst_numbers, map_fst_numbers_isPrefix,
      fun u hu => (u.1.alphabet_piece_iff u.2).mpr (hbelow u hu)⟩

/-- The first nick of a count is in the alphabet. -/
theorem piecesDocumented_iff_seq :
    Later (Suffix.transform ⟨.seq, [.base16 true]⟩ fooNick 0)
        (Suffix.transform ⟨.seq, [.base16 true]⟩ fooNick 0) ∧
      ((Suffix.transform ⟨.seq, [.base16 true]⟩ fooNick 0).PiecesDocumented ↔
        ∀ u ∈ (Suffix.transform ⟨.seq, [.base16 true]⟩ fooNick 0).numbers, u.1.Below u.2) :=
  ⟨.refl, piecesDocumented_iff .refl⟩

/-- A hexadecimal digit from the seed 0 is 14, and `O` is appended for it. -/
theorem not_piecesDocumented_rng :
    (Suffix.transform ⟨.rng (some 0), [.base16 true]⟩ fooNick 0).nextNick.1.bytes =
        fooNick.bytes ++ [byte 'O'] ∧
      ¬ (Suffix.transform ⟨.rng (some 0), [.base16 true]⟩ fooNick 0).PiecesDocumented := by
  refine ⟨by decide +kernel, fun h => ?_⟩
  obtain ⟨b, hb, hdigit⟩ := h.alphabet (.base16 true, rngByte 0 0) List.mem_cons_self
  have hpiece : (SuffixType.base16 true).piece (rngByte 0 0) = [byte 'O'] := by decide +kernel
  rw [← List.singleton_inj.mp (hpiece.symm.trans hb)] at hdigit
  exact absurd hdigit (by decide +kernel)

end SuffixGen

end Vinezombie
