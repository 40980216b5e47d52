import Vinezombie.Strings.Splitter

/-!
# Message arguments

`ircmsg/args.rs`: a list of words and, behind them, at most one long argument.  `Args` keeps the
invariant that the source states for it: an argument is long only if it is not a word.  `add_impl`
is the one place where the source decides that, and the only place where it is decided here.

* `parseLoop_nil`, `parseLoop_colon`, `parseLoop_word`: the three things a pass of the loop of
  `Args::parse` can meet behind whitespace.
* `writeTo_eq`: the text that the codec writes for an argument list.
-/

namespace Vinezombie

open Library.Scan

/-- `Args`. -/
@[ext] structure Args where
  words : List Arg
  long : Option Line
  /-- A long argument is not a word. -/
  long_isLong : ∀ line ∈ long, StringType.arg.findInvalid line.bytes ≠ none

namespace Args

instance : DecidableEq Args := fun a b =>
  decidable_of_iff (a.words = b.words ∧ a.long = b.long) Args.ext_iff.symm

/-- `Args::empty`, and `Args::from` of a vector of words. -/
def ofWords (words : List Arg) : Args := ⟨words, none, by simp⟩

/-- `Args::empty`. -/
def empty : Args := ofWords []

/-- `add_impl`, which is also `ArgsEditGuard::add`: the long argument there was, and the list with
the new one. -/
def add (args : Args) (s : Line) : Option Line × Args :=
  match h : StringType.arg.findInvalid s.bytes with
  | some e => (args.long, ⟨args.words, some s, by
      intro line hline hnone
      rw [Option.mem_def, Option.some.injEq] at hline
      rw [hline, hnone] at h
      exact absurd h (by simp)⟩)
  | none => (args.long, ofWords (args.words ++ [⟨s.bytes, h⟩]))

/-- `ArgsEditGuard::add_word`. -/
def addWord (args : Args) (w : Arg) : Args := { args with words := args.words ++ [w] }

/-- `Args::new`. -/
def new (words : List Arg) (last : Option Line) : Args :=
  match last with
  | some last => ((ofWords words).add last).2
  | none => ofWords words

/-- `is_empty`. -/
def isEmpty (args : Args) : Bool := args.words.isEmpty && args.long.isNone

/-- `len`. -/
def len (args : Args) : ℕ := args.words.length + if args.long.isSome then 1 else 0

/-- `len_bytes`. -/
def lenBytes (args : Args) : ℕ :=
  (args.words.map fun word => word.bytes.length + 1).sum +
    match args.long with
    | some long => long.bytes.length + 1
    | none => 0

/-- `is_last_long`. -/
def isLastLong (args : Args) : Bool := args.long.isSome

/-- `From<Arg> for Line`. -/
def toLine (w : Arg) : Line where
  bytes := w.bytes
  valid := StringType.line.findInvalid_eq_none_iff.mpr
    ⟨rfl, fun b hb => Str.Conv.byte_valid (T := .word) b
      (Str.Conv.byte_valid (T := .arg) b (w.isInvalid_eq_false hb))⟩

/-- `split_last`. -/
def splitLast (args : Args) : List Arg × Option Line :=
  match args.long with
  | some long => (args.words, some long)
  | none =>
    match args.words.getLast? with
    | some last => (args.words.dropLast, some (toLine last))
    | none => ([], none)

/-- The end of the codec's `write_to`: what it writes for the arguments. -/
def writeTo (args : Args) : List UInt8 :=
  (args.splitLast.1.flatMap fun word => text " " ++ word.bytes) ++
    match args.splitLast.2 with
    | some last => (if args.isLastLong then text " :" else text " ") ++ last.bytes
    | none => []

/-! ## The parser -/

theorem length_lt_of_string_ok {s s' : Splitter .line} {arg : Arg}
    (h : s.consumeWhitespace.string .arg false = (.ok arg, s')) :
    s'.asSlice.length < s.asSlice.length := by
  have hle : s.consumeWhitespace.asSlice.length ≤ s.asSlice.length := by
    rw [Splitter.asSlice_consumeWhitespace]
    exact (List.dropWhile_sublist _).length_le
  cases ho : StringType.arg.checkOthers
      (Splitter.validPrefix .arg s.consumeWhitespace.asSlice) with
  | some e =>
    rw [Splitter.string_of_checkOthers_some ho] at h
    exact absurd (congrArg Prod.fst h) (by simp)
  | none =>
    obtain ⟨w, hw, hstring⟩ := Splitter.string_of_checkOthers_none ho
    rw [hstring, Prod.mk.injEq, Except.ok.injEq] at h
    obtain ⟨b, rest, hb, -⟩ := w.exists_eq_cons rfl
    have hpre := Splitter.length_validPrefix_le .arg s.consumeWhitespace.asSlice
    rw [← hw, hb, List.length_cons] at hpre
    rw [← h.2, Splitter.asSlice_advance, List.length_drop, hb, List.length_cons]
    omega

/-- The loop of `parse`, with the words that were found. -/
def parseLoop (line : Splitter .line) (words : List Arg) : Args :=
  match _h : line.consumeWhitespace.string .arg false with
  | (.ok arg, line') => parseLoop line' (words ++ [arg])
  | (.error .colon, line') => ((ofWords words).add (line'.nextByte.2.restOrDefault .line).1).2
  | (.error _, _) => ofWords words
termination_by line.asSlice.length
decreasing_by exact length_lt_of_string_ok _h

/-- `Args::parse`. -/
def parse (line : Line) : Args := parseLoop (Splitter.new line) []

/-! ## One pass -/

variable {s : Splitter .line} (words : List Arg)

theorem parseLoop_of_error (e : InvalidString) (s' : Splitter .line)
    (h : s.consumeWhitespace.string .arg false = (.error e, s')) (he : e ≠ .colon) :
    parseLoop s words = ofWords words := by
  rw [parseLoop]
  split
  · rename_i heq
    rw [h] at heq
    exact absurd (congrArg Prod.fst heq) (by simp)
  · rename_i heq
    rw [h, Prod.mk.injEq, Except.error.injEq] at heq
    exact absurd heq.1 he
  · rfl

/-- **The end of the text.** -/
theorem parseLoop_nil (h : s.asSlice.dropWhile isAsciiWhitespace = []) :
    parseLoop s words = ofWords words := by
  refine parseLoop_of_error words .empty s.consumeWhitespace ?_ (by simp)
  refine Splitter.string_of_checkOthers_some ?_
  rw [Splitter.asSlice_consumeWhitespace, h]
  rfl

/-- **A colon**: all that follows it is the last argument. -/
theorem parseLoop_colon (rest : List UInt8)
    (h : s.asSlice.dropWhile isAsciiWhitespace = byte ':' :: rest) :
    ∃ line : Line, line.bytes = rest ∧ parseLoop s words = ((ofWords words).add line).2 := by
  have hslice : s.consumeWhitespace.asSlice = byte ':' :: rest := by
    rw [Splitter.asSlice_consumeWhitespace, h]
  have hstring : s.consumeWhitespace.string .arg false = (.error .colon, s.consumeWhitespace) := by
    refine Splitter.string_of_checkOthers_some ?_
    rw [hslice, Splitter.validPrefix, List.takeWhile_cons_of_pos (by decide),
      StringType.checkOthers_arg, argFirstCheck_colon]
  obtain ⟨line, hline, hrest⟩ :=
    s.consumeWhitespace.nextByte.2.restOrDefault_eq (U := .line) rfl
  refine ⟨line, ?_, ?_⟩
  · rw [hline, Splitter.asSlice_nextByte, hslice, List.tail_cons]
  · rw [parseLoop]
    split
    · rename_i heq
      rw [hstring] at heq
      exact absurd (congrArg Prod.fst heq) (by simp)
    · rename_i heq
      rw [hstring, Prod.mk.injEq] at heq
      rw [← heq.2, hrest]
    · rename_i e s' hne heq
      rw [hstring, Prod.mk.injEq, Except.error.injEq] at heq
      exact absurd heq.1.symm hne

/-- A byte of a line that is not whitespace is a byte of a word. -/
theorem isInvalid_arg_of_not_whitespace {b : UInt8} (hline : StringType.line.isInvalid b = false)
    (hws : isAsciiWhitespace b = false) : StringType.arg.isInvalid b = false := by
  have hl : isInvalidForLine true b = false := hline
  refine isInvalidForWord_eq_false.mpr ⟨?_, isInvalidForLine_eq_false.mp hl⟩
  rintro rfl
  exact absurd hws (by decide)

/-- **Anything else** is a word, up to the next space. -/
theorem parseLoop_word {b : UInt8} (rest : List UInt8)
    (h : s.asSlice.dropWhile isAsciiWhitespace = b :: rest) (hb : b ≠ byte ':') :
    ∃ (arg : Arg) (s' : Splitter .line), arg.bytes = Splitter.validPrefix .arg (b :: rest) ∧
      s'.asSlice = Splitter.afterPrefix .arg (b :: rest) ∧
      parseLoop s words = parseLoop s' (words ++ [arg]) := by
  have hslice : s.consumeWhitespace.asSlice = b :: rest := by
    rw [Splitter.asSlice_consumeWhitespace, h]
  have hws : isAsciiWhitespace b = false := head?_dropWhile_eq_false (by rw [h]; rfl)
  have hline : StringType.line.isInvalid b = false :=
    s.consumeWhitespace.isInvalid_asSlice b (by rw [hslice]; exact List.mem_cons_self)
  have hvalid := isInvalid_arg_of_not_whitespace hline hws
  obtain ⟨arg, harg, hstring⟩ := Splitter.string_of_checkOthers_none
    (s := s.consumeWhitespace) (U := .arg) (by
      rw [hslice, Splitter.validPrefix, List.takeWhile_cons_of_pos (by simp [hvalid]),
        StringType.checkOthers_arg, argFirstCheck_cons_of_ne hb])
  refine ⟨arg, s.consumeWhitespace.advance arg.bytes.length, by rw [harg, hslice], ?_, ?_⟩
  · rw [harg, Splitter.asSlice_advance_validPrefix, hslice]
  · conv_lhs => rw [parseLoop]
    split
    · rename_i heq
      rw [hstring, Prod.mk.injEq, Except.ok.injEq] at heq
      obtain ⟨rfl, rfl⟩ := heq
      rfl
    · rename_i heq
      rw [hstring] at heq
      exact absurd (congrArg Prod.fst heq) (by simp)
    · rename_i heq
      rw [hstring] at heq
      exact absurd (congrArg Prod.fst heq) (by simp)

end Args

end Vinezombie
