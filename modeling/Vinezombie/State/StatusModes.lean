import Vinezombie.Library.KeyedList
import Vinezombie.Message.Kind
import Vinezombie.State.ModeSetIter

/-!
# Status modes

`StatusModes` of `state/mode.rs`: a list of pairs of a mode and its prefix, which is read from the
value of a `PREFIX` token, `(` modes `)` prefixes.  The loop of the parser takes one prefix for each
character between the parentheses.  When the prefixes have run out, or one of them is not ASCII, it
goes on with NUL in the place of prefixes.

* `StatusModes.pairs`: the pairs that a value gives, character by character.
* `StatusModes.parse_eq_ok_iff`: a value is accepted exactly if no mode and no prefix, the
  substituted NUL included, is in two of its pairs.
* `StatusModes.parse_bijection`: what is accepted is a partial bijection, and which one.
* `StatusModes.parseCorrect_iff`: which lists of modes and prefixes are accepted.
-/

namespace Vinezombie

open Library.KeyedList Library.Utf8

/-- `NonZeroU8`. -/
abbrev NonZeroU8 := { p : UInt8 // p ≠ 0 }

/-- `u8::escape_ascii`.  The characters with an escape of their own are tab, CR, LF, the two quotes
and the backslash. -/
def escapeAscii (b : UInt8) : List UInt8 :=
  if b = 9 then [92, byte 't']
  else if b = 13 then [92, byte 'r']
  else if b = 10 then [92, byte 'n']
  else if b = 39 ∨ b = 34 ∨ b = 92 then [92, b]
  else if 32 ≤ b ∧ b < 127 then [b]
  else [92, byte 'x', hexDigit (b.toNat / 16), hexDigit (b.toNat % 16)]

/-- `StatusModes`. -/
structure StatusModes where
  map : List (Mode × UInt8)

namespace StatusModes

/-- `ParseError::InvalidField` as `parse` returns it. -/
def invalidValue (error : List UInt8) : ParseError := .invalidField "PREFIX value" error

/-- The error for a mode that is there already. -/
def duplicateMode (mode : Mode) : ParseError :=
  invalidValue (text "duplicate mode `" ++ [mode.letter] ++ text "`")

/-- The error for a prefix that is there already. -/
def duplicatePrefix (prefixByte : UInt8) : ParseError :=
  invalidValue (text "duplicate prefix `" ++ escapeAscii prefixByte ++ text "`")

/-- The prefix for the next character, with `skip_prefixes` and the prefixes that are left. -/
def nextPrefix (skipPrefixes : Bool) (prefixes : List UInt8) : UInt8 × Bool × List UInt8 :=
  if !skipPrefixes then
    match prefixes with
    | [] => (0, true, [])
    | p :: rest => if isAscii p then (p, false, rest) else (0, true, rest)
  else (0, true, prefixes)

/-- The loop over the pairs that were found: the first one that has the mode or the prefix. -/
def findDuplicate (mode : Mode) (prefixByte : UInt8) : List (Mode × UInt8) → Option ParseError
  | [] => none
  | (modeB, prefixB) :: rest =>
    if mode = modeB then some (duplicateMode mode)
    else if prefixByte = prefixB then some (duplicatePrefix prefixByte)
    else findDuplicate mode prefixByte rest

/-- The loop of `parse`.  When the modes have run out, the prefix that was fetched is dropped. -/
def parseLoop (map : List (Mode × UInt8)) (skipPrefixes : Bool) (prefixes : List UInt8) :
    List UInt8 → Except ParseError (List (Mode × UInt8))
  | [] => .ok map
  | b :: modes =>
    let next := nextPrefix skipPrefixes prefixes
    match Mode.new b with
    | none => parseLoop map next.2.1 next.2.2 modes
    | some mode =>
      match findDuplicate mode next.1 map with
      | some e => .error e
      | none => parseLoop (map ++ [(mode, next.1)]) next.2.1 next.2.2 modes

/-- `parse`.  A slice that is split always has a first part, so the error for an empty string after
the parenthesis does not occur. -/
def parse (arg : List UInt8) : Except ParseError StatusModes :=
  match arg with
  | [] => .error (invalidValue (text "missing leading '('"))
  | b :: arg =>
    if b = byte '(' then
      let modes := arg.takeWhile (· != byte ')')
      match arg.dropWhile (· != byte ')') with
      | [] => .error (invalidValue (text "missing closing ')'"))
      | _ :: prefixes => (parseLoop [] false prefixes modes).map .mk
    else .error (invalidValue (text "missing leading '('"))

variable (s : StatusModes)

/-- `contains`. -/
def contains (mode : Mode) : Bool := s.map.any fun pair => pair.1 = mode

/-- `get_prefix`. -/
def getPrefix (mode : Mode) : Option NonZeroU8 :=
  (s.map.find? fun pair => decide (pair.1 = mode)).bind fun pair =>
    if h : pair.2 ≠ 0 then some ⟨pair.2, h⟩ else none

/-- `get_mode`. -/
def getMode (prefixByte : NonZeroU8) : Option Mode :=
  (s.map.find? fun pair => decide (pair.2 = prefixByte.val)).map Prod.fst

/-! ## The pairs of a value -/

/-- The prefixes that are taken: those in front of the first one that is not ASCII. -/
def taken (prefixes : List UInt8) : List UInt8 := prefixes.takeWhile isAscii

/-- The letters among the modes, each with the prefix at its place, or NUL. -/
def pairs : List UInt8 → List UInt8 → List (Mode × UInt8)
  | [], _ => []
  | b :: modes, prefixes =>
    match Mode.new b with
    | none => pairs modes prefixes.tail
    | some mode => (mode, prefixes.headD 0) :: pairs modes prefixes.tail

/-- The prefixes that the loop has yet to take. -/
def upcoming (skipPrefixes : Bool) (prefixes : List UInt8) : List UInt8 :=
  if skipPrefixes then [] else taken prefixes

theorem nextPrefix_spec (skipPrefixes : Bool) (prefixes : List UInt8) :
    (nextPrefix skipPrefixes prefixes).1 = (upcoming skipPrefixes prefixes).headD 0 ∧
      upcoming (nextPrefix skipPrefixes prefixes).2.1 (nextPrefix skipPrefixes prefixes).2.2 =
        (upcoming skipPrefixes prefixes).tail := by
  cases skipPrefixes with
  | true => exact ⟨rfl, rfl⟩
  | false =>
    cases prefixes with
    | nil => exact ⟨rfl, rfl⟩
    | cons p rest =>
      by_cases hp : isAscii p = true
      · simp [nextPrefix, upcoming, taken, hp]
      · simp [nextPrefix, upcoming, taken, hp]

theorem findDuplicate_eq_none_iff {mode : Mode} {prefixByte : UInt8}
    {map : List (Mode × UInt8)} :
    findDuplicate mode prefixByte map = none ↔
      mode ∉ map.map Prod.fst ∧ prefixByte ∉ map.map Prod.snd := by
  induction map with
  | nil => simp [findDuplicate]
  | cons pair rest ih =>
    obtain ⟨modeB, prefixB⟩ := pair
    rw [findDuplicate, List.map_cons, List.map_cons, List.mem_cons, List.mem_cons, not_or, not_or]
    by_cases hmode : mode = modeB
    · simp [hmode]
    · by_cases hprefix : prefixByte = prefixB
      · simp [hmode, hprefix]
      · rw [if_neg hmode, if_neg hprefix, ih]
        simp [hmode, hprefix]

/-- No mode and no prefix is in two pairs. -/
def Distinct (map : List (Mode × UInt8)) : Prop :=
  (map.map Prod.fst).Nodup ∧ (map.map Prod.snd).Nodup

theorem distinct_append_singleton_iff {map : List (Mode × UInt8)} {mode : Mode} {p : UInt8} :
    Distinct (map ++ [(mode, p)]) ↔ Distinct map ∧ findDuplicate mode p map = none := by
  have hnodup : ∀ {α : Type} {l : List α} {a : α}, (l ++ [a]).Nodup ↔ l.Nodup ∧ a ∉ l := by
    intro α l a
    rw [List.nodup_append_comm, List.singleton_append, List.nodup_cons, and_comm]
  rw [Distinct, Distinct, findDuplicate_eq_none_iff, List.map_append, List.map_append,
    List.map_singleton, List.map_singleton, hnodup, hnodup]
  exact and_and_and_comm

theorem Distinct.of_append {map rest : List (Mode × UInt8)} (h : Distinct (map ++ rest)) :
    Distinct map := by
  rw [Distinct, List.map_append, List.map_append] at h
  exact ⟨(List.nodup_append.mp h.1).1, (List.nodup_append.mp h.2).1⟩

/-- **The loop**: it collects the pairs, and fails at the first one that has the mode or the prefix
of a pair in front of it. -/
theorem parseLoop_eq_ok_iff (modes : List UInt8) {map r : List (Mode × UInt8)}
    {skipPrefixes : Bool} {prefixes : List UInt8} (hmap : Distinct map) :
    parseLoop map skipPrefixes prefixes modes = .ok r ↔
      r = map ++ pairs modes (upcoming skipPrefixes prefixes) ∧ Distinct r := by
  induction modes generalizing map skipPrefixes prefixes with
  | nil =>
    rw [parseLoop, pairs, List.append_nil, Except.ok.injEq]
    constructor
    · rintro rfl
      exact ⟨rfl, hmap⟩
    · exact fun h => h.1.symm
  | cons b modes ih =>
    obtain ⟨hhead, htail⟩ := nextPrefix_spec skipPrefixes prefixes
    rw [parseLoop, pairs]
    cases hmode : Mode.new b with
    | none =>
      dsimp only
      rw [ih hmap, htail]
    | some mode =>
      dsimp only
      rw [hhead]
      cases hfind : findDuplicate mode ((upcoming skipPrefixes prefixes).headD 0) map with
      | some e =>
        refine iff_of_false (by simp) ?_
        rintro ⟨rfl, hdistinct⟩
        rw [List.append_cons] at hdistinct
        have hnone := (distinct_append_singleton_iff.mp hdistinct.of_append).2
        rw [hfind] at hnone
        exact absurd hnone (by simp)
      | none =>
        dsimp only
        rw [ih (distinct_append_singleton_iff.mpr ⟨hmap, hfind⟩), htail, ← List.append_cons]

/-! ## What is accepted -/

/-- A value with both of its parentheses. -/
def Form (arg modes prefixes : List UInt8) : Prop :=
  arg = byte '(' :: (modes ++ byte ')' :: prefixes) ∧ byte ')' ∉ modes

variable {arg modes prefixes : List UInt8} {s}

theorem parse_of_form (h : Form arg modes prefixes) :
    parse arg = (parseLoop [] false prefixes modes).map .mk := by
  obtain ⟨rfl, hmodes⟩ := h
  have hall : ∀ b ∈ modes, (b != byte ')') = true := fun b hb =>
    bne_iff_ne.mpr fun hb' => hmodes (hb' ▸ hb)
  have htake : (modes ++ byte ')' :: prefixes).takeWhile (· != byte ')') = modes :=
    Library.Scan.takeWhile_append_of_stop hall (by simp)
  have hdrop : (modes ++ byte ')' :: prefixes).dropWhile (· != byte ')') = byte ')' :: prefixes :=
    Library.Scan.dropWhile_append_of_stop hall (by simp)
  rw [parse, if_pos rfl, hdrop, htake]

/-- A value without one of its parentheses is rejected. -/
theorem exists_form_of_parse_ok (h : parse arg = .ok s) :
    ∃ modes prefixes, Form arg modes prefixes := by
  cases arg with
  | nil => exact absurd h (by simp [parse])
  | cons b arg =>
    by_cases hb : b = byte '('
    · cases hdrop : arg.dropWhile (· != byte ')') with
      | nil =>
        rw [parse, if_pos hb, hdrop] at h
        exact absurd h (by simp)
      | cons c prefixes =>
        have hhead : c ∈ (arg.dropWhile (· != byte ')')).head? := by rw [hdrop]; rfl
        obtain rfl : c = byte ')' := by
          simpa using Library.Scan.head?_dropWhile_eq_false hhead
        refine ⟨arg.takeWhile (· != byte ')'), prefixes, ?_, ?_⟩
        · rw [hb, ← hdrop, List.takeWhile_append_dropWhile]
        · exact fun hmem => by simpa using List.mem_takeWhile_imp hmem
    · rw [parse, if_neg hb] at h
      exact absurd h (by simp)

/-- **What `parse` accepts.** -/
theorem parse_eq_ok_iff_of_form (h : Form arg modes prefixes) :
    parse arg = .ok s ↔ s.map = pairs modes (taken prefixes) ∧ Distinct s.map := by
  have hloop : parseLoop [] false prefixes modes = .ok s.map ↔
      s.map = [] ++ pairs modes (upcoming false prefixes) ∧ Distinct s.map :=
    parseLoop_eq_ok_iff modes ⟨List.nodup_nil, List.nodup_nil⟩
  rw [List.nil_append] at hloop
  rw [parse_of_form h]
  refine Iff.trans ?_ hloop
  cases parseLoop [] false prefixes modes with
  | error e => simp [Except.map]
  | ok map =>
    obtain ⟨smap⟩ := s
    simp [Except.map]

/-! ## Both directions -/

/-- A pair has the prefix at the place of its mode. -/
theorem mem_pairs_iff {mode : Mode} {p : UInt8} :
    (mode, p) ∈ pairs modes prefixes ↔
      ∃ i : ℕ, modes[i]? = some mode.letter ∧ p = prefixes.getD i 0 := by
  induction modes generalizing prefixes with
  | nil => simp [pairs]
  | cons b modes ih =>
    have hshift : (∃ i : ℕ, modes[i]? = some mode.letter ∧ p = prefixes.tail.getD i 0) ↔
        ∃ i : ℕ, (b :: modes)[i + 1]? = some mode.letter ∧ p = prefixes.getD (i + 1) 0 := by
      simp only [List.getElem?_cons_succ, List.getD_eq_getElem?_getD, List.getElem?_tail]
    have hhead : prefixes.getD 0 0 = prefixes.headD 0 := by
      cases prefixes with
      | nil => rfl
      | cons q rest => rfl
    have hsplit : (∃ i : ℕ, (b :: modes)[i]? = some mode.letter ∧ p = prefixes.getD i 0) ↔
        (b = mode.letter ∧ p = prefixes.headD 0) ∨
          ∃ i : ℕ, (b :: modes)[i + 1]? = some mode.letter ∧ p = prefixes.getD (i + 1) 0 := by
      rw [← Nat.or_exists_add_one, List.getElem?_cons_zero, Option.some.injEq, hhead]
    rw [hsplit, ← hshift, ← ih, pairs]
    cases hmode : Mode.new b with
    | none =>
      have hne : ¬ b = mode.letter := by
        rintro rfl
        rw [mode.new_letter] at hmode
        exact absurd hmode (by simp)
      simp [hne]
    | some mode' =>
      dsimp only
      have hletter : b = mode.letter ↔ mode = mode' := by
        rw [← Mode.new_eq_some_iff.mp hmode]
        exact ⟨fun h => Mode.ext h.symm, fun h => h ▸ rfl⟩
      rw [List.mem_cons, Prod.mk.injEq, hletter]

/-- The modes of the pairs are the letters. -/
theorem map_fst_pairs (modes prefixes : List UInt8) :
    (pairs modes prefixes).map Prod.fst = modes.filterMap Mode.new := by
  induction modes generalizing prefixes with
  | nil => rfl
  | cons b modes ih =>
    rw [pairs, List.filterMap_cons]
    cases Mode.new b with
    | none => exact ih _
    | some mode => exact congrArg (mode :: ·) (ih _)

/-- What is taken at a place. -/
theorem getElem?_taken_eq_some_iff {i : ℕ} {p : UInt8} :
    (taken prefixes)[i]? = some p ↔
      prefixes[i]? = some p ∧ ∀ j ≤ i, ∀ q, prefixes[j]? = some q → isAscii q = true := by
  induction prefixes generalizing i with
  | nil => simp [taken]
  | cons q rest ih =>
    by_cases hq : isAscii q = true
    · have htaken : taken (q :: rest) = q :: taken rest := List.takeWhile_cons_of_pos hq
      rw [htaken]
      cases i with
      | zero =>
        simp only [List.getElem?_cons_zero, Nat.le_zero_eq, forall_eq, Option.some.injEq, forall_eq']
        exact ⟨fun h => ⟨h, hq⟩, fun h => h.1⟩
      | succ i =>
        rw [List.getElem?_cons_succ, List.getElem?_cons_succ, ih]
        refine and_congr_right fun _ => ⟨fun h j hj => ?_, fun h j hj => ?_⟩
        · cases j with
          | zero => simpa using hq
          | succ j => simpa using h j (by omega)
        · simpa using h (j + 1) (by omega)
    · have htaken : taken (q :: rest) = [] := List.takeWhile_cons_of_neg hq
      rw [htaken]
      refine iff_of_false (by simp) fun h => hq (h.2 0 (Nat.zero_le _) q rfl)

variable (hdistinct : Distinct s.map)

include hdistinct

theorem find?_fst_eq_some_iff {mode : Mode} {pair : Mode × UInt8} :
    (s.map.find? fun pair => decide (pair.1 = mode)) = some pair ↔
      pair ∈ s.map ∧ pair.1 = mode :=
  lookup_eq_some_iff hdistinct.1

theorem find?_snd_eq_some_iff {p : UInt8} {pair : Mode × UInt8} :
    (s.map.find? fun pair => decide (pair.2 = p)) = some pair ↔ pair ∈ s.map ∧ pair.2 = p := by
  have hkeys : (s.map.map fun pair => pair.2.toNat).Nodup := by
    have hmap := hdistinct.2.map (f := UInt8.toNat) fun _ _ h => UInt8.toNat_inj.mp h
    rwa [List.map_map] at hmap
  have hlookup := lookup_eq_some_iff (k := p.toNat) (e := pair) hkeys
  simpa only [lookup, UInt8.toNat_inj] using hlookup

theorem getPrefix_eq_some_iff {mode : Mode} {p : NonZeroU8} :
    s.getPrefix mode = some p ↔ (mode, p.val) ∈ s.map := by
  rw [getPrefix, Option.bind_eq_some_iff]
  constructor
  · rintro ⟨pair, hfind, hp⟩
    obtain ⟨hmem, hmode⟩ := (find?_fst_eq_some_iff hdistinct).mp hfind
    split at hp
    · rw [← Option.some.inj hp, ← hmode]
      exact hmem
    · exact absurd hp (by simp)
  · intro hmem
    exact ⟨_, (find?_fst_eq_some_iff hdistinct).mpr ⟨hmem, rfl⟩, dif_pos p.property⟩

theorem getMode_eq_some_iff {mode : Mode} {p : NonZeroU8} :
    s.getMode p = some mode ↔ (mode, p.val) ∈ s.map := by
  rw [getMode, Option.map_eq_some_iff]
  constructor
  · rintro ⟨pair, hfind, rfl⟩
    obtain ⟨hmem, hp⟩ := (find?_snd_eq_some_iff hdistinct).mp hfind
    rw [← hp]
    exact hmem
  · intro hmem
    exact ⟨_, (find?_snd_eq_some_iff hdistinct).mpr ⟨hmem, rfl⟩, rfl⟩

omit hdistinct

theorem contains_iff_of_form (hform : Form arg modes prefixes) (h : parse arg = .ok s)
    (mode : Mode) : s.contains mode = true ↔ mode.letter ∈ modes := by
  obtain ⟨hmap, -⟩ := (parse_eq_ok_iff_of_form hform).mp h
  have hfst : s.contains mode = true ↔ mode ∈ s.map.map Prod.fst := by
    simp [contains, List.mem_map]
  rw [hfst, hmap, map_fst_pairs, List.mem_filterMap]
  constructor
  · rintro ⟨b, hb, hmode⟩
    rwa [Mode.new_eq_some_iff.mp hmode]
  · exact fun hmem => ⟨mode.letter, hmem, mode.new_letter⟩

/-- **The prefix of a mode** is the byte at its place. -/
theorem getPrefix_iff_of_form (hform : Form arg modes prefixes) (h : parse arg = .ok s) {i : ℕ}
    {mode : Mode} (hi : modes[i]? = some mode.letter) (p : NonZeroU8) :
    s.getPrefix mode = some p ↔
      prefixes[i]? = some p.val ∧ ∀ j ≤ i, ∀ q, prefixes[j]? = some q → isAscii q = true := by
  obtain ⟨hmap, hdistinct⟩ := (parse_eq_ok_iff_of_form hform).mp h
  have hmem : (mode, (taken prefixes).getD i 0) ∈ s.map := by
    rw [hmap, mem_pairs_iff]
    exact ⟨i, hi, rfl⟩
  have hplace : (mode, p.val) ∈ s.map ↔ (taken prefixes).getD i 0 = p.val := by
    constructor
    · intro hp
      exact congrArg Prod.snd (eq_of_key_eq hdistinct.1 hmem hp rfl)
    · exact fun hp => hp ▸ hmem
  rw [getPrefix_eq_some_iff hdistinct, hplace, ← getElem?_taken_eq_some_iff,
    List.getD_eq_getElem?_getD]
  cases (taken prefixes)[i]? with
  | none => exact iff_of_false (fun hp => p.property hp.symm) (by simp)
  | some q => simp

/-- **What is accepted is a partial bijection** between modes and prefixes: of the letters between
the parentheses, and for each of them the byte at its place behind them, as long as the bytes up to
there are ASCII. -/
theorem parse_bijection {arg : List UInt8} {s : StatusModes} (h : parse arg = .ok s) :
    (∀ p mode, s.getMode p = some mode ↔ s.getPrefix mode = some p) ∧
      ∃ modes prefixes, Form arg modes prefixes ∧
        (∀ mode, s.contains mode = true ↔ mode.letter ∈ modes) ∧
        ∀ (i : ℕ) (mode : Mode), modes[i]? = some mode.letter → ∀ p : NonZeroU8,
          s.getPrefix mode = some p ↔ prefixes[i]? = some p.val ∧
            ∀ j ≤ i, ∀ q, prefixes[j]? = some q → isAscii q = true := by
  obtain ⟨modes, prefixes, hform⟩ := exists_form_of_parse_ok h
  obtain ⟨-, hdistinct⟩ := (parse_eq_ok_iff_of_form hform).mp h
  refine ⟨fun p mode => ?_, modes, prefixes, hform, contains_iff_of_form hform h,
    fun i mode hi p => getPrefix_iff_of_form hform h hi p⟩
  rw [getMode_eq_some_iff hdistinct, getPrefix_eq_some_iff hdistinct]

/-- The usual value, with a character between the parentheses that is not a letter. -/
theorem parse_bijection_ov :
    ∃ s, parse (text "(o1v)@-+") = .ok s ∧
      ∀ p mode, s.getMode p = some mode ↔ s.getPrefix mode = some p :=
  ⟨_, rfl, (@parse_bijection (text "(o1v)@-+") _ rfl).1⟩

/-! ## What is rejected -/

theorem Form.unique {modes' prefixes' : List UInt8} (h : Form arg modes prefixes)
    (h' : Form arg modes' prefixes') : modes = modes' ∧ prefixes = prefixes' := by
  obtain ⟨rfl, hmodes⟩ := h
  obtain ⟨heq, hmodes'⟩ := h'
  have htail := (List.cons.inj heq).2
  have hlist : modes = modes' := by
    have hall : ∀ l : List UInt8, byte ')' ∉ l → ∀ b ∈ l, (b != byte ')') = true :=
      fun l hl b hb => bne_iff_ne.mpr fun hb' => hl (hb' ▸ hb)
    have htake := congrArg (List.takeWhile (· != byte ')')) htail
    rwa [Library.Scan.takeWhile_append_of_stop (hall _ hmodes) (by simp),
      Library.Scan.takeWhile_append_of_stop (hall _ hmodes') (by simp)] at htake
  subst hlist
  exact ⟨rfl, (List.cons.inj (List.append_cancel_left htail)).2⟩

/-- A letter is given twice. -/
def RepeatsMode (modes : List UInt8) : Prop := ¬ (modes.filterMap Mode.new).Nodup

/-- The bytes that the pairs have in the place of a prefix. -/
def prefixBytes (modes prefixes : List UInt8) : List UInt8 :=
  (pairs modes (taken prefixes)).map Prod.snd

/-- Two letters have the same prefix. -/
def RepeatsPrefix (modes prefixes : List UInt8) : Prop :=
  ¬ ((prefixBytes modes prefixes).filter (· ≠ 0)).Nodup

/-- The number of letters without a prefix. -/
def bare (modes prefixes : List UInt8) : ℕ := (prefixBytes modes prefixes).count 0

/-- What the parser is meant to reject: values without one of the parentheses, and those that repeat
a mode or a prefix. -/
def RejectsOnly (arg : List UInt8) : Prop :=
  (∀ s, parse arg ≠ .ok s) → (¬ ∃ modes prefixes, Form arg modes prefixes) ∨
    ∃ modes prefixes, Form arg modes prefixes ∧ (RepeatsMode modes ∨ RepeatsPrefix modes prefixes)

/-- Bytes are distinct if those that are not NUL are, and there is one NUL at most. -/
theorem nodup_iff_filter_count {l : List UInt8} :
    l.Nodup ↔ (l.filter (· ≠ 0)).Nodup ∧ l.count 0 ≤ 1 := by
  rw [List.nodup_iff_count_le_one, List.nodup_iff_count_le_one]
  constructor
  · exact fun h => ⟨fun b => (List.Sublist.count_le b List.filter_sublist).trans (h b), h 0⟩
  · rintro ⟨hfilter, hzero⟩ b
    by_cases hb : b = 0
    · rwa [hb]
    · have hcount := hfilter b
      rwa [List.count_filter (by simpa using hb)] at hcount

/-- A value of the right form is accepted exactly if it does not repeat anything and one letter at
most has no prefix. -/
theorem exists_parse_ok_iff (h : Form arg modes prefixes) :
    (∃ s, parse arg = .ok s) ↔
      ¬ RepeatsMode modes ∧ ¬ RepeatsPrefix modes prefixes ∧ bare modes prefixes ≤ 1 := by
  have hpairs : Distinct (pairs modes (taken prefixes)) ↔
      ¬ RepeatsMode modes ∧ ¬ RepeatsPrefix modes prefixes ∧ bare modes prefixes ≤ 1 := by
    rw [Distinct, map_fst_pairs, RepeatsMode, not_not, RepeatsPrefix, not_not, bare,
      ← nodup_iff_filter_count, prefixBytes]
  rw [← hpairs]
  constructor
  · rintro ⟨s, hs⟩
    obtain ⟨hmap, hdistinct⟩ := (parse_eq_ok_iff_of_form h).mp hs
    rwa [← hmap]
  · exact fun hdistinct => ⟨⟨_⟩, (parse_eq_ok_iff_of_form h).mpr ⟨rfl, hdistinct⟩⟩

theorem rejectsOnly_iff (arg : List UInt8) :
    RejectsOnly arg ↔ ∀ modes prefixes, Form arg modes prefixes → ¬ RepeatsMode modes →
      ¬ RepeatsPrefix modes prefixes → bare modes prefixes ≤ 1 := by
  constructor
  · intro h modes prefixes hform hmode hprefix
    by_contra hbare
    have hnone : ∀ s, parse arg ≠ .ok s := fun s hs =>
      hbare ((exists_parse_ok_iff hform).mp ⟨s, hs⟩).2.2
    rcases h hnone with hno | ⟨modes', prefixes', hform', hrepeats⟩
    · exact hno ⟨modes, prefixes, hform⟩
    · obtain ⟨rfl, rfl⟩ := hform.unique hform'
      exact hrepeats.elim hmode hprefix
  · intro h hnone
    by_cases hform : ∃ modes prefixes, Form arg modes prefixes
    · obtain ⟨modes, prefixes, hform⟩ := hform
      refine .inr ⟨modes, prefixes, hform, ?_⟩
      by_contra hrepeats
      rw [not_or] at hrepeats
      obtain ⟨s, hs⟩ := (exists_parse_ok_iff hform).mpr
        ⟨hrepeats.1, hrepeats.2, h modes prefixes hform hrepeats.1 hrepeats.2⟩
      exact hnone s hs
    · exact .inl hform

/-- `(` modes `)` prefixes. -/
def value (M : List Mode) (P : List UInt8) : List UInt8 :=
  byte '(' :: (M.map Mode.letter ++ byte ')' :: P)

theorem form_value (M : List Mode) (P : List UInt8) : Form (value M P) (M.map Mode.letter) P := by
  refine ⟨rfl, fun h => ?_⟩
  obtain ⟨m, -, hm⟩ := List.mem_map.mp h
  have hvalid := m.valid
  rw [hm] at hvalid
  exact absurd hvalid (by decide)

theorem filterMap_new_map_letter (M : List Mode) :
    (M.map Mode.letter).filterMap Mode.new = M := by
  rw [List.filterMap_map]
  simp [Mode.new_letter]

/-- The prefixes are given to the first modes, and the others get NUL. -/
theorem map_snd_pairs (M : List Mode) (P : List UInt8) (hlen : P.length ≤ M.length) :
    (pairs (M.map Mode.letter) P).map Prod.snd = P ++ List.replicate (M.length - P.length) 0 := by
  induction M generalizing P with
  | nil =>
    rw [List.length_eq_zero_iff.mp (Nat.le_zero.mp hlen)]
    rfl
  | cons m M ih =>
    rw [List.map_cons, pairs, m.new_letter]
    dsimp only
    rw [List.map_cons]
    cases P with
    | nil =>
      rw [List.tail_nil, ih [] (Nat.zero_le _)]
      rfl
    | cons p P =>
      rw [List.tail_cons, ih P (Nat.le_of_succ_le_succ hlen), List.length_cons, List.length_cons,
        Nat.add_sub_add_right]
      rfl

/-- What `parse` is meant to do with a list of modes and one of prefixes: each mode is known, and
has the prefix at its place, if there is one. -/
def ParseCorrect (M : List Mode) (P : List UInt8) : Prop :=
  ∃ s, parse (value M P) = .ok s ∧ ∀ (i : ℕ) (mode : Mode), M[i]? = some mode →
    s.contains mode = true ∧ (s.getPrefix mode).map Subtype.val = P[i]?

/-- A value that is accepted is read as it is meant to be. -/
theorem parseCorrect_of_parse_ok {M : List Mode} {P : List UInt8}
    (hP : ∀ p ∈ P, p ≠ 0 ∧ isAscii p = true) (h : parse (value M P) = .ok s) :
    ParseCorrect M P := by
  have hform := form_value M P
  refine ⟨s, h, fun i mode hi => ?_⟩
  have hletter : (M.map Mode.letter)[i]? = some mode.letter := by
    rw [List.getElem?_map, hi]
    rfl
  constructor
  · exact (contains_iff_of_form hform h mode).mpr
      (List.mem_map_of_mem (List.mem_of_getElem? hi))
  · have hascii : ∀ j ≤ i, ∀ q, P[j]? = some q → isAscii q = true :=
      fun j _ q hq => (hP q (List.mem_of_getElem? hq)).2
    have hiff := getPrefix_iff_of_form hform h hletter
    cases hp : P[i]? with
    | none =>
      cases hget : s.getPrefix mode with
      | none => rfl
      | some p =>
        rw [hp] at hiff
        exact absurd ((hiff p).mp hget).1 (by simp)
    | some p =>
      have hne : p ≠ 0 := (hP p (List.mem_of_getElem? hp)).1
      rw [(hiff ⟨p, hne⟩).mpr ⟨hp, hascii⟩]
      rfl

/-- **Which values are accepted.**  Distinct modes are accepted with distinct prefixes for some of
them exactly if one mode at most has none; and no other value is rejected that has its parentheses
and repeats nothing. -/
theorem parseCorrect_iff {M : List Mode} {P : List UInt8} (hM : M.Nodup) (hP : P.Nodup)
    (hascii : ∀ p ∈ P, p ≠ 0 ∧ isAscii p = true) (hlen : P.length ≤ M.length)
    (arg : List UInt8) :
    (ParseCorrect M P ↔ M.length ≤ P.length + 1) ∧
      (RejectsOnly arg ↔ ∀ modes prefixes, Form arg modes prefixes → ¬ RepeatsMode modes →
        ¬ RepeatsPrefix modes prefixes → bare modes prefixes ≤ 1) := by
  refine ⟨?_, rejectsOnly_iff arg⟩
  have htaken : taken P = P := List.takeWhile_eq_self_iff.mpr fun p hp => (hascii p hp).2
  have hbytes : prefixBytes (M.map Mode.letter) P =
      P ++ List.replicate (M.length - P.length) 0 := by
    rw [prefixBytes, htaken, map_snd_pairs M P hlen]
  have hmode : ¬ RepeatsMode (M.map Mode.letter) := by
    rw [RepeatsMode, not_not, filterMap_new_map_letter]
    exact hM
  have hprefix : ¬ RepeatsPrefix (M.map Mode.letter) P := by
    have hfilter : P.filter (· ≠ 0) = P :=
      List.filter_eq_self.mpr fun p hp => decide_eq_true (hascii p hp).1
    rw [RepeatsPrefix, not_not, hbytes, List.filter_append, hfilter]
    simpa using hP
  have hbare : bare (M.map Mode.letter) P = M.length - P.length := by
    have hzero : P.count 0 = 0 := List.count_eq_zero.mpr fun hp => (hascii 0 hp).1 rfl
    rw [bare, hbytes, List.count_append, hzero, List.count_replicate_self, Nat.zero_add]
  have haccepted := exists_parse_ok_iff (form_value M P)
  rw [hbare] at haccepted
  constructor
  · rintro ⟨s, hs, -⟩
    have hle := (haccepted.mp ⟨s, hs⟩).2.2
    omega
  · intro hle
    obtain ⟨s, hs⟩ := haccepted.mpr ⟨hmode, hprefix, by omega⟩
    exact parseCorrect_of_parse_ok hascii hs

/-- The modes `o` and `v` with the prefix of the first one. -/
theorem parseCorrect_ov :
    (ParseCorrect [⟨byte 'o', rfl⟩, ⟨byte 'v', rfl⟩] [byte '@'] ↔ 2 ≤ 1 + 1) ∧
      (RejectsOnly (text "ov") ↔ ∀ modes prefixes, Form (text "ov") modes prefixes →
        ¬ RepeatsMode modes → ¬ RepeatsPrefix modes prefixes → bare modes prefixes ≤ 1) :=
  parseCorrect_iff (by decide) (by decide) (List.forall_mem_singleton.mpr (by decide)) (by decide)
    (text "ov")

/-- **A value that is rejected**: two modes without prefixes. -/
theorem not_parseCorrect_ov :
    parse (text "(ov)") = .error (duplicatePrefix 0) ∧
      ¬ ParseCorrect [⟨byte 'o', rfl⟩, ⟨byte 'v', rfl⟩] [] ∧ ¬ RejectsOnly (text "(ov)") := by
  have hparse : parse (text "(ov)") = .error (duplicatePrefix 0) := rfl
  refine ⟨hparse, ?_, fun h => ?_⟩
  · rintro ⟨s, hs, -⟩
    exact absurd (hs.symm.trans hparse) (by simp)
  · have hnone : ∀ s, parse (text "(ov)") ≠ .ok s := fun s hs =>
      absurd (hs.symm.trans hparse) (by simp)
    have hform : Form (text "(ov)") (text "ov") [] := ⟨rfl, by decide⟩
    rcases h hnone with hno | ⟨modes, prefixes, hform', hrepeats⟩
    · exact hno ⟨_, _, hform⟩
    · obtain ⟨rfl, rfl⟩ := hform.unique hform'
      rcases hrepeats with hmode | hprefix
      · exact hmode (by decide)
      · exact hprefix (by decide)

end StatusModes

end Vinezombie
