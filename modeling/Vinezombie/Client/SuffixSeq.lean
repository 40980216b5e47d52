import Mathlib.Data.List.Nodup
import Vinezombie.Client.SuffixStates
import Vinezombie.Library.Utf8

/-!
# Counting nick suffixes

`SuffixStrategy::Seq` with suffix types that append one character each.  The nick of a count is the
prefix and the digits of a bijective numeral, least significant digit first: with the digits of one
place, then of two, and so on.

* `SuffixGen.seqWord`: the characters for a count, and `SuffixGen.seqWord_injOn`, that they tell
  counts apart.
* `SuffixGen.yields_seq`: what such a generator yields.
-/

namespace Vinezombie

open Library.BijectiveRadix Library.Generator

namespace SuffixType

/-- The types that append one character: all but `Choice`, with characters that are valid in a
nick. -/
def OneChar : SuffixType → Prop
  | .choice _ => False
  | .char c => allValid (String.utf8EncodeChar c) = true
  | _ => True

/-- The character that is appended for a number. -/
def charOf (t : SuffixType) (num : UInt8) : Char :=
  match t with
  | .char c => c
  | t => Char.ofNat ((t.pushed num).headD 0).toNat

/-- The piece for a number below the variance is a character. -/
theorem OneChar.piece_eq {t : SuffixType} (h : t.OneChar) :
    ∀ d < t.variance.toNat,
      t.piece (UInt8.ofNat d) = String.utf8EncodeChar (t.charOf (UInt8.ofNat d)) := by
  cases t with
  | letter uppercase =>
    cases uppercase with
    | false => decide +kernel
    | true => decide +kernel
  | base8 => decide +kernel
  | base10 => decide +kernel
  | base16 uppercase =>
    cases uppercase with
    | false => decide +kernel
    | true => decide +kernel
  | nonZeroBase8 => decide +kernel
  | nonZeroBase10 => decide +kernel
  | nonZeroBase16 uppercase =>
    cases uppercase with
    | false => decide +kernel
    | true => decide +kernel
  | choice opts => exact absurd h id
  | char c => exact fun _ _ => if_pos h

/-- Different numbers below the variance have different characters. -/
theorem OneChar.charOf_injOn {t : SuffixType} (h : t.OneChar) :
    ∀ d < t.variance.toNat, ∀ e < t.variance.toNat,
      t.charOf (UInt8.ofNat d) = t.charOf (UInt8.ofNat e) → d = e := by
  cases t with
  | letter uppercase =>
    cases uppercase with
    | false => decide +kernel
    | true => decide +kernel
  | base8 => decide +kernel
  | base10 => decide +kernel
  | base16 uppercase =>
    cases uppercase with
    | false => decide +kernel
    | true => decide +kernel
  | nonZeroBase8 => decide +kernel
  | nonZeroBase10 => decide +kernel
  | nonZeroBase16 uppercase =>
    cases uppercase with
    | false => decide +kernel
    | true => decide +kernel
  | choice opts => exact absurd h id
  | char c =>
    intro d hd e he _
    exact (Nat.lt_one_iff.mp hd).trans (Nat.lt_one_iff.mp he).symm

theorem OneChar.variance_ne_zero {t : SuffixType} (h : t.OneChar) : t.variance ≠ 0 := by
  cases t with
  | choice opts => exact absurd h id
  | _ => simp [variance]

end SuffixType

namespace SuffixGen

variable {suffixes : List SuffixType}

/-! ## The characters for a count -/

/-- The characters for the digits of a numeral. -/
def charsOf (suffixes : List SuffixType) (ds : List ℕ) : List Char :=
  List.zipWith (fun t d => t.charOf (UInt8.ofNat d)) suffixes ds

/-- The characters for a count. -/
def seqWord (suffixes : List SuffixType) (n : ℕ) : List Char :=
  charsOf suffixes (digits (radices suffixes) n)

theorem charsOf_cons (t : SuffixType) (rest : List SuffixType) (d : ℕ) (ds : List ℕ) :
    charsOf (t :: rest) (d :: ds) = t.charOf (UInt8.ofNat d) :: charsOf rest ds := rfl

theorem active_eq (hone : ∀ t ∈ suffixes, t.OneChar) : active suffixes = suffixes :=
  List.filter_eq_self.mpr fun t ht => decide_eq_true (hone t ht).variance_ne_zero

theorem radices_eq (hone : ∀ t ∈ suffixes, t.OneChar) :
    radices suffixes = suffixes.map fun t => t.variance.toNat := by
  rw [radices, active_eq hone]

theorem radices_pos (suffixes : List SuffixType) : ∀ v ∈ radices suffixes, 0 < v := by
  intro v hv
  obtain ⟨t, ht, rfl⟩ := List.mem_map.mp hv
  have hvariance : t.variance ≠ 0 := of_decide_eq_true (List.mem_filter.mp ht).2
  exact Nat.pos_of_ne_zero fun h0 => hvariance (UInt8.toNat_inj.mp h0)

/-- Digits of a numeral for the suffix types, or for the first ones of them. -/
def Digits (suffixes : List SuffixType) (ds : List ℕ) : Prop :=
  List.Forall₂ (fun d v => d < v) ds ((suffixes.map fun t => t.variance.toNat).take ds.length)

theorem digits_cons {t : SuffixType} {rest : List SuffixType} {d : ℕ} {ds : List ℕ}
    (h : Digits (t :: rest) (d :: ds)) : d < t.variance.toNat ∧ Digits rest ds := by
  unfold Digits at h
  rw [List.length_cons, List.map_cons, List.take_succ_cons] at h
  exact List.forall₂_cons.mp h

theorem digits_digits (hone : ∀ t ∈ suffixes, t.OneChar) (n : ℕ) :
    Digits suffixes (digits (radices suffixes) n) := by
  unfold Digits
  rw [← radices_eq hone]
  exact digits_lt (radices_pos suffixes) n

/-- What is appended for digits are the characters for them. -/
theorem pieces_zip (hone : ∀ t ∈ suffixes, t.OneChar) {ds : List ℕ} (hds : Digits suffixes ds) :
    pieces (suffixes.zip (ds.map UInt8.ofNat)) =
      (charsOf suffixes ds).flatMap String.utf8EncodeChar := by
  induction suffixes generalizing ds with
  | nil => rfl
  | cons t rest ih =>
    cases ds with
    | nil => rfl
    | cons d ds =>
      obtain ⟨hd, hds⟩ := digits_cons hds
      have hhead := (hone t List.mem_cons_self).piece_eq d hd
      have hrest := ih (fun u hu => hone u (List.mem_cons_of_mem t hu)) hds
      rw [List.map_cons, List.zip_cons_cons, pieces_cons, hhead, hrest, charsOf_cons,
        List.flatMap_cons]

/-- Different digits have different characters. -/
theorem charsOf_inj (hone : ∀ t ∈ suffixes, t.OneChar) {ds es : List ℕ}
    (hds : Digits suffixes ds) (hes : Digits suffixes es)
    (h : charsOf suffixes ds = charsOf suffixes es) : ds = es := by
  induction suffixes generalizing ds es with
  | nil =>
    unfold Digits at hds hes
    rw [List.map_nil, List.take_nil] at hds hes
    rw [List.forall₂_nil_right_iff.mp hds, List.forall₂_nil_right_iff.mp hes]
  | cons t rest ih =>
    cases ds with
    | nil =>
      cases es with
      | nil => rfl
      | cons e es => exact absurd (h.trans (charsOf_cons t rest e es)) (List.cons_ne_nil _ _).symm
    | cons d ds =>
      cases es with
      | nil => exact absurd (h.symm.trans (charsOf_cons t rest d ds)) (List.cons_ne_nil _ _).symm
      | cons e es =>
        rw [charsOf_cons, charsOf_cons] at h
        obtain ⟨hchar, hchars⟩ := List.cons.inj h
        obtain ⟨hd, hds⟩ := digits_cons hds
        obtain ⟨he, hes⟩ := digits_cons hes
        have hhead := (hone t List.mem_cons_self).charOf_injOn d hd e he hchar
        have htail := ih (fun u hu => hone u (List.mem_cons_of_mem t hu)) hds hes hchars
        rw [hhead, htail]

/-- The counts that have a word of their own. -/
structure IsCount (suffixes : List SuffixType) (n : ℕ) : Prop where
  pos : 1 ≤ n
  le : n ≤ 255
  le_capacity : n ≤ capacity (radices suffixes)

/-- There are as many of them as there are possibilities for single characters together, up to
255. -/
theorem isCount_of_mem_range' {n : ℕ}
    (h : n ∈ List.range' 1 (min 255 (radices suffixes).sum)) : IsCount suffixes n := by
  have hsum := sum_le_capacity (radices_pos suffixes)
  have hmem := List.mem_range'_1.mp h
  exact ⟨hmem.1, by omega, by omega⟩

/-- **Counts have different words.** -/
theorem seqWord_injOn (hone : ∀ t ∈ suffixes, t.OneChar) {n m : ℕ} (hn : IsCount suffixes n)
    (hm : IsCount suffixes m) (h : seqWord suffixes n = seqWord suffixes m) : n = m := by
  have hdigits := charsOf_inj hone (digits_digits hone n) (digits_digits hone m) h
  exact digits_injOn hn.pos hn.le_capacity hm.pos hm.le_capacity hdigits

theorem length_seqWord (hone : ∀ t ∈ suffixes, t.OneChar) (n : ℕ) :
    (seqWord suffixes n).length = (digits (radices suffixes) n).length := by
  have hle := length_digits_le (radices suffixes) n
  rw [radices_eq hone, List.length_map] at hle
  rw [seqWord, charsOf, List.length_zipWith, radices_eq hone]
  exact Nat.min_eq_right hle

/-- Words have at least one character, and at most one for each suffix type. -/
theorem length_seqWord_bounds (hne : suffixes ≠ []) (hone : ∀ t ∈ suffixes, t.OneChar) (n : ℕ) :
    1 ≤ (seqWord suffixes n).length ∧ (seqWord suffixes n).length ≤ suffixes.length := by
  have hradices : radices suffixes ≠ [] := by
    rw [radices_eq hone]
    exact fun hnil => hne (List.map_eq_nil_iff.mp hnil)
  have hle := length_digits_le (radices suffixes) n
  rw [radices_eq hone, List.length_map, ← radices_eq hone] at hle
  rw [length_seqWord hone]
  exact ⟨one_le_length_digits hradices n, hle⟩

/-- Greater counts do not have shorter words. -/
theorem length_seqWord_mono (hone : ∀ t ∈ suffixes, t.OneChar) {n m : ℕ} (h : n ≤ m) :
    (seqWord suffixes n).length ≤ (seqWord suffixes m).length := by
  rw [length_seqWord hone, length_seqWord hone]
  exact length_digits_mono _ h

/-! ## The nicks -/

/-- The nicks of the states of a count. -/
theorem nicksFrom_seq (prefixNick : Nick) (limit : ℕ) {state : ℕ} (h : state + limit ≤ 255) :
    nicksFrom ⟨.seq, suffixes⟩ prefixNick limit (UInt32.ofNat state) =
      (List.range' (state + 1) limit).map fun n =>
        seqLoop (UInt32.ofNat n) prefixNick suffixes := by
  induction limit generalizing state with
  | zero => rfl
  | succ limit ih =>
    have hstate : UInt32.ofNat state + 1 = UInt32.ofNat (state + 1) := (UInt32.ofNat_add state 1).symm
    rw [nicksFrom, List.range'_succ, List.map_cons, ← ih (by omega), ← hstate]
    rfl

/-- The nick of a count is the prefix and the characters for it. -/
theorem bytes_seqLoop_word (hone : ∀ t ∈ suffixes, t.OneChar) (prefixNick : Nick) {n : ℕ}
    (hn : IsCount suffixes n) :
    (seqLoop (UInt32.ofNat n) prefixNick suffixes).bytes =
      prefixNick.bytes ++ (seqWord suffixes n).flatMap String.utf8EncodeChar := by
  have hpos := hn.pos
  have hle := hn.le
  have hcount : (UInt32.ofNat n).toNat = n := by
    rw [UInt32.toNat_ofNat']
    exact Nat.mod_eq_of_lt (by omega)
  rw [bytes_seqLoop _ _ _ (by omega) (by omega), hcount, active_eq hone,
    pieces_zip hone (digits_digits hone n)]
  rfl

/-- Counts have different nicks. -/
theorem seqLoop_injOn (hone : ∀ t ∈ suffixes, t.OneChar) (prefixNick : Nick) {n m : ℕ}
    (hn : IsCount suffixes n) (hm : IsCount suffixes m)
    (h : seqLoop (UInt32.ofNat n) prefixNick suffixes =
      seqLoop (UInt32.ofNat m) prefixNick suffixes) : n = m := by
  have hbytes := congrArg Str.bytes h
  rw [bytes_seqLoop_word hone prefixNick hn, bytes_seqLoop_word hone prefixNick hm] at hbytes
  have hword := Library.Utf8.flatMap_utf8EncodeChar_inj (List.append_cancel_left hbytes)
  exact seqWord_injOn hone hn hm hword

/-- The generator of a count. -/
theorem transform_seq (hne : suffixes ≠ []) (prefixNick : Nick) (fresh : UInt32) :
    Suffix.transform ⟨.seq, suffixes⟩ prefixNick fresh =
      ⟨⟨.seq, suffixes⟩, prefixNick, 0, suffixes.foldl
        (fun count suffix => saturatingAdd count suffix.variance) 0⟩ := by
  cases suffixes with
  | nil => exact absurd rfl hne
  | cons t rest => rfl

theorem toNat_limit_seq (hne : suffixes ≠ []) (prefixNick : Nick) (fresh : UInt32) :
    (Suffix.transform ⟨.seq, suffixes⟩ prefixNick fresh).limit.toNat =
      min 255 (suffixes.map fun t => t.variance.toNat).sum := by
  rw [transform_seq hne]
  dsimp only
  rw [toNat_foldl_saturatingAdd SuffixType.variance suffixes 0, UInt8.toNat_zero, Nat.zero_add]

/-- A count yields the nicks of its states, one after the other. -/
theorem yields_seqLoop (hne : suffixes ≠ []) (hone : ∀ t ∈ suffixes, t.OneChar) (prefixNick : Nick)
    (fresh : UInt32) :
    Yields step (some (Suffix.transform ⟨.seq, suffixes⟩ prefixNick fresh))
      ((List.range' 1 (min 255 (suffixes.map fun t => t.variance.toNat).sum)).map fun n =>
        seqLoop (UInt32.ofNat n) prefixNick suffixes) := by
  have hpos : (Suffix.transform ⟨.seq, suffixes⟩ prefixNick fresh).limit ≠ 0 := by
    refine Suffix.limit_transform_ne_zero _ prefixNick fresh fun _ => .inr ?_
    obtain ⟨t, ht⟩ := List.exists_mem_of_ne_nil _ hne
    exact ⟨t, ht, (hone t ht).variance_ne_zero⟩
  have hlimit : ((Suffix.transform ⟨.seq, suffixes⟩ prefixNick fresh).limit - 1).toNat + 1 =
      min 255 (suffixes.map fun t => t.variance.toNat).sum := by
    have hne0 : (Suffix.transform ⟨.seq, suffixes⟩ prefixNick fresh).limit.toNat ≠ 0 :=
      fun h0 => hpos (UInt8.toNat_inj.mp h0)
    rw [toNat_limit_sub_one hpos, ← toNat_limit_seq hne prefixNick fresh]
    omega
  have hyields := yields_nicks (Suffix.transform ⟨.seq, suffixes⟩ prefixNick fresh)
  rw [nicks, hlimit, transform_seq hne] at hyields
  have hstates := @nicksFrom_seq suffixes prefixNick
    (min 255 (suffixes.map fun t => t.variance.toNat).sum) 0 (by omega)
  rw [transform_seq hne, ← hstates]
  exact hyields

/-- **What a count yields**, for suffix types that append one character each: as many nicks as there
are possibilities for single characters together, up to 255.  They are distinct, and each is the
prefix and at least one character; the number of characters does not decrease. -/
theorem yields_seq (hne : suffixes ≠ []) (hone : ∀ t ∈ suffixes, t.OneChar) (prefixNick : Nick)
    (fresh : UInt32) :
    ∃ (nicks : List Nick) (words : List (List Char)),
      Yields step (some (Suffix.transform ⟨.seq, suffixes⟩ prefixNick fresh)) nicks ∧
        nicks.length = min 255 (suffixes.map fun t => t.variance.toNat).sum ∧
        nicks.Nodup ∧
        nicks.map Str.bytes =
          words.map (fun word => prefixNick.bytes ++ word.flatMap String.utf8EncodeChar) ∧
        (∀ word ∈ words, 1 ≤ word.length ∧ word.length ≤ suffixes.length) ∧
        words.Pairwise fun word word' => word.length ≤ word'.length := by
  have hyields := yields_seqLoop hne hone prefixNick fresh
  rw [← radices_eq hone] at hyields ⊢
  refine ⟨_, (List.range' 1 (min 255 (radices suffixes).sum)).map (seqWord suffixes), hyields,
    ?_, ?_, ?_, ?_, ?_⟩
  · rw [List.length_map, List.length_range']
  · refine List.Nodup.map_on ?_ List.nodup_range'
    intro n hn m hm hnick
    exact seqLoop_injOn hone prefixNick (isCount_of_mem_range' hn) (isCount_of_mem_range' hm) hnick
  · rw [List.map_map, List.map_map]
    exact List.map_congr_left fun n hn =>
      bytes_seqLoop_word hone prefixNick (isCount_of_mem_range' hn)
  · intro word hword
    obtain ⟨n, -, rfl⟩ := List.mem_map.mp hword
    exact length_seqWord_bounds hne hone n
  · refine List.pairwise_map.mpr (List.pairwise_le_range'.imp ?_)
    intro n m hnm
    exact length_seqWord_mono hone hnm

/-- Up to two underscores and an octal digit. -/
theorem yields_seq_underscores :
    ∃ (nicks : List Nick) (words : List (List Char)),
      Yields step (some (Suffix.transform ⟨.seq, [.char '_', .char '_', .base8]⟩ fooNick 0)) nicks ∧
        nicks.length = 10 ∧
        nicks.Nodup ∧
        nicks.map Str.bytes =
          words.map (fun word => fooNick.bytes ++ word.flatMap String.utf8EncodeChar) ∧
        (∀ word ∈ words, 1 ≤ word.length ∧ word.length ≤ 3) ∧
        words.Pairwise fun word word' => word.length ≤ word'.length :=
  have hvalid : allValid (String.utf8EncodeChar '_') = true := by decide +kernel
  have hunderscore : (SuffixType.char '_').OneChar := hvalid
  have hbase8 : SuffixType.base8.OneChar := trivial
  yields_seq (List.cons_ne_nil _ _)
    (List.forall_mem_cons.mpr ⟨hunderscore, List.forall_mem_cons.mpr
      ⟨hunderscore, List.forall_mem_singleton.mpr hbase8⟩⟩) fooNick 0

end SuffixGen

end Vinezombie
