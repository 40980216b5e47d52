import Vinezombie.Library.BijectiveRadix
import Vinezombie.Strings.Bytes

/-!
# Nick suffixes

`client/nick/suffix.rs`.  A `Suffix` turns a nick into a generator of nicks that begin with it.  The
generator has a state, from which it computes a number for each suffix type of its configuration,
and the suffix type appends what belongs to the number: pseudorandom numbers, or the digits of a
count.

The arithmetic of the generator wraps, as it does in release builds.

* `SuffixType.append`, `SuffixGen.calcNext`: one piece of a nick, and one nick.
* `SuffixGen.numbers`: the numbers of a state in closed form, with `SuffixGen.bytes_rngLoop` and
  `SuffixGen.bytes_seqLoop`, that the loops append what is made of them.
-/

namespace Vinezombie

open Library.BijectiveRadix

/-! ## Building nicks -/

/-- There is no byte that is not valid in a nick. -/
def allValid (bs : List UInt8) : Bool := bs.all fun b => !StringType.nick.isInvalid b

theorem allValid_iff {bs : List UInt8} :
    allValid bs = true ↔ ∀ b ∈ bs, StringType.nick.isInvalid b = false := by
  simp [allValid]

/-- Bytes that a nick may contain can be appended to a nick. -/
def Nick.appendBytes (nick : Nick) (bs : List UInt8) (h : allValid bs = true) : Nick where
  bytes := nick.bytes ++ bs
  valid := by
    obtain ⟨b, rest, hbytes, hne⟩ := nick.exists_eq_cons rfl
    refine StringType.nick.findInvalid_eq_none_iff.mpr ⟨?_, fun c hc => ?_⟩
    · rw [hbytes, List.cons_append]
      exact argFirstCheck_cons_of_ne hne (rest ++ bs)
    · rcases List.mem_append.mp hc with hc | hc
      · exact nick.isInvalid_eq_false hc
      · exact allValid_iff.mp h c hc

/-- `try_push`, `try_push_char` and `append` of a `NickBuilder`: what is not valid is not appended,
and the error is dropped. -/
def Nick.tryAppend (nick : Nick) (bs : List UInt8) : Nick :=
  if h : allValid bs = true then nick.appendBytes bs h else nick

/-- A nick for examples. -/
def fooNick : Nick := ⟨[byte 'F', byte 'o', byte 'o'], by decide +kernel⟩

/-! ## Suffix types -/

/-- `SuffixType`. -/
inductive SuffixType where
  | letter (uppercase : Bool)
  | base8
  | base10
  | base16 (uppercase : Bool)
  | nonZeroBase8
  | nonZeroBase10
  | nonZeroBase16 (uppercase : Bool)
  | choice (opts : List Nick)
  | char (c : Char)

namespace SuffixType

/-- What `append` pushes for a number: a byte, an option, or a character. -/
def pushed : SuffixType → UInt8 → List UInt8
  | .letter uppercase, num => [(if uppercase then byte 'A' else byte 'a') + num % 26]
  | .base8, num => [byte '0' + (num &&& 7)]
  | .base10, num => [byte '0' + num % 10]
  | .base16 uppercase, num =>
    let num := num &&& 15
    [if uppercase && 9 < num then byte 'A' + num
      else if !uppercase && 9 < num then byte 'a' + num
      else byte '0' + num]
  | .nonZeroBase8, num => [byte '1' + num % 7]
  | .nonZeroBase10, num => [byte '1' + num % 9]
  | .nonZeroBase16 uppercase, num =>
    let num := num % 15
    [if uppercase && 8 < num then byte 'A' + num
      else if !uppercase && 8 < num then byte 'a' + num
      else byte '1' + num]
  | .choice opts, num =>
    match opts[num.toNat % opts.length]? with
    | some opt => opt.bytes
    | none => []
  | .char c, _ => String.utf8EncodeChar c

/-- `append`. -/
def append (t : SuffixType) (num : UInt8) (nick : Nick) : Nick := nick.tryAppend (t.pushed num)

/-- `variance`. -/
def variance : SuffixType → UInt8
  | .letter _ => 26
  | .base8 => 8
  | .base10 => 10
  | .base16 _ => 16
  | .nonZeroBase8 => 7
  | .nonZeroBase10 => 9
  | .nonZeroBase16 _ => 15
  | .choice opts => UInt8.ofNat (min 255 opts.length)
  | .char _ => 1

/-- The bytes that are really appended for a number. -/
def piece (t : SuffixType) (num : UInt8) : List UInt8 :=
  if allValid (t.pushed num) then t.pushed num else []

theorem bytes_append (t : SuffixType) (num : UInt8) (nick : Nick) :
    (t.append num nick).bytes = nick.bytes ++ t.piece num := by
  unfold append Nick.tryAppend piece
  split
  · rfl
  · exact (List.append_nil _).symm

end SuffixType

/-! ## Generators -/

/-- `SuffixStrategy`. -/
inductive SuffixStrategy where
  | rng (seed : Option UInt32)
  | seq
  deriving DecidableEq

/-- `Suffix`. -/
structure Suffix where
  strategy : SuffixStrategy
  suffixes : List SuffixType

/-- `SuffixGen`. -/
structure SuffixGen where
  cfg : Suffix
  prefixNick : Nick
  state : UInt32
  limit : UInt8

/-- `u8::saturating_add`. -/
def saturatingAdd (a b : UInt8) : UInt8 := UInt8.ofNat (min 255 (a.toNat + b.toNat))

namespace Suffix

/-- `Default`. -/
def default : Suffix := ⟨.rng none, []⟩

/-- `transform`.  Where there is no seed the source makes one from the nick, the machine and the
time, which is `fresh` here. -/
def transform (self : Suffix) (prefixNick : Nick) (fresh : UInt32) : SuffixGen :=
  if self.suffixes.isEmpty then ⟨default, prefixNick, 0, 1⟩
  else
    match self.strategy with
    | .rng seed =>
      let limit := self.suffixes.foldl (fun count suffix =>
        saturatingAdd count (suffix.variance / 2)) 1
      ⟨self, prefixNick, seed.getD fresh, limit⟩
    | .seq =>
      let limit := self.suffixes.foldl (fun count suffix => saturatingAdd count suffix.variance) 0
      ⟨self, prefixNick, 0, limit⟩

end Suffix

namespace SuffixGen

/-- One step of the linear congruential generator. -/
def lcg (state : UInt32) : UInt32 := state * 1664525 + 1013904223

/-- The loop of `calc_next` for `Rng`, with `cycle`. -/
def rngLoop (state : UInt32) (cycle : Bool) (nick : Nick) : List SuffixType → Nick × UInt32
  | [] => (nick, state)
  | suffix :: rest =>
    if cycle then
      let state := lcg state
      rngLoop state false (suffix.append (state >>> 16).toUInt8 nick) rest
    else rngLoop state true (suffix.append (state >>> 24).toUInt8 nick) rest

/-- The loop of `calc_next` for `Seq`, with `count`. -/
def seqLoop (count : UInt32) (nick : Nick) : List SuffixType → Nick
  | [] => nick
  | suffix :: rest =>
    let variance := suffix.variance
    if variance = 0 then seqLoop count nick rest
    else
      let count := count - 1
      let nick := suffix.append (count.toUInt8 % variance) nick
      let count := count / variance.toUInt32
      if count = 0 then nick else seqLoop count nick rest

variable (self : SuffixGen)

/-- `calc_next`. -/
def calcNext : Nick × UInt32 :=
  match self.cfg.strategy with
  | .rng _ => rngLoop self.state true self.prefixNick self.cfg.suffixes
  | .seq =>
    let state := self.state + 1
    (seqLoop state self.prefixNick self.cfg.suffixes, state)

/-- `next_nick`. -/
def nextNick : Nick × Option SuffixGen :=
  let (nick, state) := self.calcNext
  let limit := self.limit - 1
  (nick, if limit ≠ 0 then some { self with state, limit } else none)

/-- `peek`. -/
def peek : Nick := self.calcNext.1

/-- `handle_invalid`. -/
def handleInvalid (nick : Nick) : Option SuffixGen :=
  if self.prefixNick.bytes <+: nick.bytes then none else some self

/-! ## The numbers of a state -/

/-- The number that `Rng` takes for the suffix type at a place: one byte or the other of the state
after one step of the generator for two places. -/
def rngByte (state : UInt32) (i : ℕ) : UInt8 :=
  if i % 2 = 0 then (lcg^[i / 2 + 1] state >>> 16).toUInt8
  else (lcg^[i / 2 + 1] state >>> 24).toUInt8

/-- The suffix types that have something to append. -/
def active (suffixes : List SuffixType) : List SuffixType :=
  suffixes.filter fun suffix => suffix.variance ≠ 0

/-- The number of possibilities of each of them. -/
def radices (suffixes : List SuffixType) : List ℕ :=
  (active suffixes).map fun suffix => suffix.variance.toNat

/-- The suffix types that are used in a state, each with its number: all of them with bytes of the
generator, or the first ones with the digits of the count. -/
def numbers : List (SuffixType × UInt8) :=
  match self.cfg.strategy with
  | .rng _ => self.cfg.suffixes.zipIdx.map fun u => (u.1, rngByte self.state u.2)
  | .seq =>
    (active self.cfg.suffixes).zip
      ((digits (radices self.cfg.suffixes) (self.state.toNat + 1)).map UInt8.ofNat)

/-- What is made of numbers. -/
def pieces (numbers : List (SuffixType × UInt8)) : List UInt8 :=
  numbers.flatMap fun u => u.1.piece u.2

theorem pieces_cons (suffix : SuffixType) (num : UInt8) (rest : List (SuffixType × UInt8)) :
    pieces ((suffix, num) :: rest) = suffix.piece num ++ pieces rest := rfl

/-- The loop for `Rng` from a place on.  Before an even place one step has been made for each two
places in front of it. -/
theorem bytes_rngLoop (state : UInt32) (suffixes : List SuffixType) (i : ℕ) (nick : Nick) :
    (rngLoop (lcg^[(i + 1) / 2] state) (i % 2 == 0) nick suffixes).1.bytes =
      nick.bytes ++ pieces ((suffixes.zipIdx i).map fun u => (u.1, rngByte state u.2)) := by
  induction suffixes generalizing i nick with
  | nil => exact (List.append_nil _).symm
  | cons suffix rest ih =>
    rw [List.zipIdx_cons, List.map_cons, pieces_cons, ← List.append_assoc, rngLoop]
    have hparity : i % 2 = 0 ∨ i % 2 = 1 := Nat.mod_two_eq_zero_or_one i
    rcases hparity with heven | hodd
    · have hstate : lcg (lcg^[(i + 1) / 2] state) = lcg^[i / 2 + 1] state := by
        rw [Function.iterate_succ_apply', show (i + 1) / 2 = i / 2 by omega]
      have hnext := ih (i + 1) (suffix.append (rngByte state i) nick)
      rw [show (i + 1 + 1) / 2 = i / 2 + 1 by omega, show ((i + 1) % 2 == 0) = false by
        rw [beq_eq_false_iff_ne]; omega, SuffixType.bytes_append] at hnext
      rw [heven, if_pos (by decide)]
      dsimp only
      rw [hstate, ← hnext, rngByte, if_pos heven]
    · have hstate : lcg^[(i + 1) / 2] state = lcg^[i / 2 + 1] state := by
        rw [show (i + 1) / 2 = i / 2 + 1 by omega]
      have hnext := ih (i + 1) (suffix.append (rngByte state i) nick)
      rw [show (i + 1 + 1) / 2 = i / 2 + 1 by omega, show ((i + 1) % 2 == 0) = true by
        rw [beq_iff_eq]; omega, SuffixType.bytes_append] at hnext
      rw [hodd, if_neg (by decide), hstate, ← hnext, rngByte, if_neg (by omega)]

theorem active_cons_of_eq_zero {suffix : SuffixType} (h : suffix.variance = 0)
    (rest : List SuffixType) : active (suffix :: rest) = active rest := by
  rw [active, List.filter_cons_of_neg (by simpa using h)]
  rfl

theorem active_cons_of_ne_zero {suffix : SuffixType} (h : suffix.variance ≠ 0)
    (rest : List SuffixType) : active (suffix :: rest) = suffix :: active rest := by
  rw [active, List.filter_cons_of_pos (by simpa using h)]
  rfl

theorem radices_cons_of_ne_zero {suffix : SuffixType} (h : suffix.variance ≠ 0)
    (rest : List SuffixType) :
    radices (suffix :: rest) = suffix.variance.toNat :: radices rest := by
  rw [radices, active_cons_of_ne_zero h]
  rfl

theorem toNat_count_sub_one {count : UInt32} (hpos : 1 ≤ count.toNat) :
    (count - 1).toNat = count.toNat - 1 :=
  UInt32.toNat_sub_of_le count 1 (UInt32.le_iff_toNat_le.mpr hpos)

/-- The number that is taken off a count is a digit of it. -/
theorem digit_eq {count : UInt32} (hpos : 1 ≤ count.toNat) (hcount : count.toNat ≤ 255)
    (variance : UInt8) :
    (count - 1).toUInt8 % variance = UInt8.ofNat ((count.toNat - 1) % variance.toNat) := by
  refine UInt8.toNat_inj.mp ?_
  have hlt : (count.toNat - 1) % variance.toNat < 256 := (Nat.mod_le _ _).trans_lt (by omega)
  rw [UInt8.toNat_mod, UInt32.toNat_toUInt8, toNat_count_sub_one hpos, UInt8.toNat_ofNat',
    Nat.mod_eq_of_lt hlt, Nat.mod_eq_of_lt (show count.toNat - 1 < 2 ^ 8 by omega)]

/-- What is left of a count is the rest of its digits. -/
theorem toNat_quotient {count : UInt32} (hpos : 1 ≤ count.toNat) (variance : UInt8) :
    ((count - 1) / variance.toUInt32).toNat = (count.toNat - 1) / variance.toNat := by
  rw [UInt32.toNat_div, toNat_count_sub_one hpos, UInt8.toNat_toUInt32]

/-- The loop for `Seq`, for a count that fits into a byte. -/
theorem bytes_seqLoop (suffixes : List SuffixType) (count : UInt32) (nick : Nick)
    (hpos : 1 ≤ count.toNat) (hcount : count.toNat ≤ 255) :
    (seqLoop count nick suffixes).bytes =
      nick.bytes ++ pieces ((active suffixes).zip
        ((digits (radices suffixes) count.toNat).map UInt8.ofNat)) := by
  induction suffixes generalizing count nick with
  | nil => exact (List.append_nil _).symm
  | cons suffix rest ih =>
    rw [seqLoop]
    by_cases hvariance : suffix.variance = 0
    · rw [if_pos hvariance, radices, active_cons_of_eq_zero hvariance]
      exact ih count nick hpos hcount
    · have hquotient := toNat_quotient hpos suffix.variance
      have hzero : (count - 1) / suffix.variance.toUInt32 = 0 ↔
          (count.toNat - 1) / suffix.variance.toNat = 0 := by
        rw [← hquotient, ← UInt32.toNat_inj, UInt32.toNat_zero]
      rw [if_neg hvariance, active_cons_of_ne_zero hvariance, radices_cons_of_ne_zero hvariance,
        digits, List.map_cons, List.zip_cons_cons, pieces_cons, ← List.append_assoc,
        ← SuffixType.bytes_append, ← digit_eq hpos hcount]
      dsimp only
      by_cases hq : (count.toNat - 1) / suffix.variance.toNat = 0
      · rw [if_pos (hzero.mpr hq), if_pos hq]
        simp [pieces]
      · have hle : (count.toNat - 1) / suffix.variance.toNat ≤ 255 :=
          (Nat.div_le_self _ _).trans (by omega)
        rw [if_neg (mt hzero.mp hq), if_neg hq, ih _ _ (by omega) (by omega), hquotient]

/-- Nothing is appended where no suffix type has anything to append. -/
theorem seqLoop_of_active_nil {suffixes : List SuffixType} (h : active suffixes = [])
    (count : UInt32) (nick : Nick) : seqLoop count nick suffixes = nick := by
  induction suffixes with
  | nil => rfl
  | cons suffix rest ih =>
    by_cases hvariance : suffix.variance = 0
    · rw [active_cons_of_eq_zero hvariance] at h
      rw [seqLoop, if_pos hvariance]
      exact ih h
    · rw [active_cons_of_ne_zero hvariance] at h
      exact absurd h (List.cons_ne_nil _ _)

end SuffixGen

end Vinezombie
