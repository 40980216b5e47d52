import Vinezombie.Message.Args

/-!
# Arguments, written and parsed

`Args::parse` on the text that the codec writes for an argument list: each word behind a space, the
long argument behind a space and a colon.  The parser skips ASCII whitespace in front of a word,
which is more than the space that was written: a tab or a form feed may begin a word.

* `writeTo_eq`: the text.
* `parseLoop_text`: arguments whose words do not begin with whitespace come back.
* `len_parseLoop_le`: no more arguments are found than were written.
* `parse_asLine_eq_iff`: arguments come back exactly when no word begins with whitespace.
-/

namespace Vinezombie

open Library.Scan

namespace Args

/-! ## The text -/

/-- The text of words and a long argument. -/
def argsText (words : List Arg) (long : Option Line) : List UInt8 :=
  (words.flatMap fun word => text " " ++ word.bytes) ++
    match long with
    | some long => text " :" ++ long.bytes
    | none => []

/-- **The text that the codec writes** does not depend on how it splits off the last argument. -/
theorem writeTo_eq (args : Args) : args.writeTo = argsText args.words args.long := by
  unfold writeTo splitLast isLastLong argsText
  cases hl : args.long with
  | some long => simp
  | none =>
    cases hw : args.words.getLast? with
    | none => simp [List.getLast?_eq_none_iff.mp hw]
    | some last =>
      obtain ⟨init, hinit⟩ := List.getLast?_eq_some_iff.mp hw
      simp [hinit, toLine]

theorem argsText_cons (w : Arg) (ws : List Arg) (long : Option Line) :
    argsText (w :: ws) long = byte ' ' :: (w.bytes ++ argsText ws long) := by
  simp [argsText, text]

/-- A written word ends where the next argument begins. -/
theorem head?_argsText {ws : List Arg} {long : Option Line} {b : UInt8}
    (hb : b ∈ (argsText ws long).head?) : StringType.arg.isInvalid b = true := by
  have hspace : b = byte ' ' := by
    cases ws with
    | cons w ws =>
      rw [argsText_cons] at hb
      exact (Option.some.inj hb).symm
    | nil =>
      cases long with
      | none => exact absurd hb (by simp [argsText])
      | some long => exact (Option.some.inj hb).symm
  rw [hspace]
  decide

theorem argsText_valid {ws : List Arg} {long : Option Line} {b : UInt8}
    (hb : b ∈ argsText ws long) : StringType.line.isInvalid b = false := by
  rcases List.mem_append.mp hb with hb | hb
  · obtain ⟨w, -, hb⟩ := List.mem_flatMap.mp hb
    rcases List.mem_append.mp hb with hb | hb
    · obtain rfl : b = byte ' ' := by simpa [text] using hb
      decide
    · exact (toLine w).isInvalid_eq_false hb
  · cases long with
    | none => exact absurd hb (by simp)
    | some long =>
      rcases List.mem_append.mp hb with hb | hb
      · obtain rfl | rfl : b = byte ' ' ∨ b = byte ':' := by simpa [text] using hb
        · decide
        · decide
      · exact long.isInvalid_eq_false hb

/-- The text of the arguments as a line. -/
def asLine (args : Args) : Line where
  bytes := args.writeTo
  valid := StringType.line.findInvalid_eq_none_iff.mpr
    ⟨rfl, fun _ hb => argsText_valid (args.writeTo_eq ▸ hb)⟩

/-! ## Reading it -/

variable {s : Splitter .line} (words : List Arg) {ws : List Arg} {long : Option Line} {w : Arg}

/-- The word does not begin with whitespace. -/
def Unpadded (w : Arg) : Prop := ∀ b ∈ w.bytes.head?, isAsciiWhitespace b = false

instance (w : Arg) : Decidable (Unpadded w) :=
  inferInstanceAs (Decidable (∀ b ∈ w.bytes.head?, _))

theorem add_of_long {line : Line} (h : StringType.arg.findInvalid line.bytes ≠ none) :
    (add (ofWords words) line).2.words = words ∧ (add (ofWords words) line).2.long = some line := by
  unfold add
  split
  · exact ⟨rfl, rfl⟩
  · rename_i hnone
    exact absurd hnone h

theorem add_of_word {line : Line} (h : StringType.arg.findInvalid line.bytes = none) :
    (add (ofWords words) line).2 = ofWords (words ++ [⟨line.bytes, h⟩]) := by
  unfold add
  split
  · rename_i hsome
    rw [h] at hsome
    exact absurd hsome (by simp)
  · rfl

theorem len_add (line : Line) : (add (ofWords words) line).2.len = words.length + 1 := by
  by_cases h : StringType.arg.findInvalid line.bytes = none
  · rw [add_of_word words h]
    simp [len, ofWords]
  · obtain ⟨hw, hl⟩ := add_of_long words h
    simp [len, hw, hl]

/-- One pass over a word, or what is left of it without leading whitespace. -/
theorem parseLoop_stripped {b : UInt8} {rest : List UInt8}
    (hs : s.asSlice.dropWhile isAsciiWhitespace = b :: rest ++ argsText ws long)
    (hvalid : ∀ c ∈ b :: rest, StringType.arg.isInvalid c = false) (hb : b ≠ byte ':') :
    ∃ (arg : Arg) (s' : Splitter .line), arg.bytes = b :: rest ∧ s'.asSlice = argsText ws long ∧
      parseLoop s words = parseLoop s' (words ++ [arg]) := by
  obtain ⟨arg, s', harg, hs', hloop⟩ :=
    parseLoop_word words (rest ++ argsText ws long) hs hb
  rw [← List.cons_append] at harg hs'
  rw [Splitter.validPrefix_append hvalid fun c hc => head?_argsText hc] at harg
  rw [Splitter.afterPrefix_append hvalid fun c hc => head?_argsText hc] at hs'
  exact ⟨arg, s', harg, hs', hloop⟩

/-- One pass over a word that does not begin with whitespace. -/
theorem parseLoop_unpadded (hw : Unpadded w) (hs : s.asSlice = argsText (w :: ws) long) :
    ∃ s' : Splitter .line, s'.asSlice = argsText ws long ∧
      parseLoop s words = parseLoop s' (words ++ [w]) := by
  obtain ⟨b, rest, hbytes, hb⟩ := w.exists_eq_cons rfl
  have hstrip : s.asSlice.dropWhile isAsciiWhitespace = b :: rest ++ argsText ws long := by
    have hws : isAsciiWhitespace b = false := hw b (by rw [hbytes]; rfl)
    rw [hs, argsText_cons, hbytes, List.dropWhile_cons_of_pos (by decide), List.cons_append,
      List.dropWhile_cons_of_neg (by simp [hws])]
  obtain ⟨arg, s', harg, hs', hloop⟩ := parseLoop_stripped words hstrip
    (fun c hc => w.isInvalid_eq_false (hbytes ▸ hc)) hb
  have : arg = w := Str.ext (harg.trans hbytes.symm)
  exact ⟨s', hs', this ▸ hloop⟩

/-- The end of the text: the long argument, or nothing. -/
theorem parseLoop_long (hlong : ∀ line ∈ long, StringType.arg.findInvalid line.bytes ≠ none)
    (hs : s.asSlice = argsText [] long) :
    (parseLoop s words).words = words ∧ (parseLoop s words).long = long := by
  cases long with
  | none =>
    rw [parseLoop_nil words (by rw [hs]; rfl)]
    exact ⟨rfl, rfl⟩
  | some long =>
    have hstrip : s.asSlice.dropWhile isAsciiWhitespace = byte ':' :: long.bytes := by
      rw [hs]
      rfl
    obtain ⟨line, hline, hloop⟩ := parseLoop_colon words _ hstrip
    obtain rfl : line = long := Str.ext hline
    rw [hloop]
    exact add_of_long words (hlong line rfl)

/-- **Words that do not begin with whitespace come back.** -/
theorem parseLoop_text (hlong : ∀ line ∈ long, StringType.arg.findInvalid line.bytes ≠ none)
    {ws : List Arg} {s : Splitter .line} (words : List Arg) (hws : ∀ w ∈ ws, Unpadded w)
    (hs : s.asSlice = argsText ws long) :
    (parseLoop s words).words = words ++ ws ∧ (parseLoop s words).long = long := by
  induction ws generalizing s words with
  | nil =>
    rw [List.append_nil]
    exact parseLoop_long words hlong hs
  | cons w ws ih =>
    obtain ⟨s', hs', hloop⟩ := parseLoop_unpadded words (hws w List.mem_cons_self) hs
    have hrest := ih (words ++ [w]) (fun v hv => hws v (List.mem_cons_of_mem _ hv)) hs'
    rw [List.append_assoc, List.singleton_append] at hrest
    rw [hloop]
    exact hrest

/-- What whitespace leaves of a written word: nothing, something that begins with a colon, or a
word. -/
theorem dropWhile_argsText_cons (w : Arg) (ws : List Arg) (long : Option Line) :
    (argsText (w :: ws) long).dropWhile isAsciiWhitespace =
      if (w.bytes.dropWhile isAsciiWhitespace).isEmpty then
        (argsText ws long).dropWhile isAsciiWhitespace
      else w.bytes.dropWhile isAsciiWhitespace ++ argsText ws long := by
  rw [argsText_cons, List.dropWhile_cons_of_pos (by decide), List.dropWhile_append]

theorem isInvalid_of_mem_dropWhile {b : UInt8} (hb : b ∈ w.bytes.dropWhile isAsciiWhitespace) :
    StringType.arg.isInvalid b = false :=
  w.isInvalid_eq_false ((List.dropWhile_sublist _).mem hb)

/-- **No more arguments are found than were written.** -/
theorem len_parseLoop_le {ws : List Arg} {s : Splitter .line} (words : List Arg)
    (hs : s.asSlice.dropWhile isAsciiWhitespace =
      (argsText ws long).dropWhile isAsciiWhitespace) :
    (parseLoop s words).len ≤ words.length + ws.length + if long.isSome then 1 else 0 := by
  induction ws generalizing s words with
  | nil =>
    cases long with
    | none =>
      rw [parseLoop_nil words hs]
      simp [len, ofWords]
    | some long =>
      obtain ⟨line, -, hloop⟩ := parseLoop_colon words long.bytes hs
      rw [hloop, len_add]
      simp
  | cons w ws ih =>
    rw [dropWhile_argsText_cons] at hs
    cases hw : w.bytes.dropWhile isAsciiWhitespace with
    | nil =>
      rw [hw] at hs
      have hle := ih words hs
      rw [List.length_cons]
      omega
    | cons b rest =>
      rw [hw] at hs
      by_cases hb : b = byte ':'
      · subst hb
        obtain ⟨line, -, hloop⟩ := parseLoop_colon words _ hs
        rw [hloop, len_add, List.length_cons]
        omega
      · obtain ⟨arg, s', -, hs', hloop⟩ := parseLoop_stripped words hs
          (fun c hc => isInvalid_of_mem_dropWhile (hw ▸ hc)) hb
        have hle := ih (words ++ [arg]) (congrArg (List.dropWhile _) hs')
        rw [List.length_append, List.length_singleton] at hle
        rw [hloop, List.length_cons]
        omega

/-- The words that were found stay. -/
theorem isPrefix_words_parseLoop (s : Splitter .line) (words : List Arg) :
    words <+: (parseLoop s words).words := by
  fun_induction parseLoop s words with
  | case1 s words arg s' h ih => exact (List.prefix_append words [arg]).trans ih
  | case2 s words s' h =>
    by_cases hline : StringType.arg.findInvalid (s'.nextByte.2.restOrDefault .line).1.bytes = none
    · rw [add_of_word words hline]
      exact List.prefix_append _ _
    · exact ⟨[], by rw [List.append_nil, (add_of_long words hline).1]⟩
  | case3 s words e s' h hne => exact List.prefix_refl _

/-- **A word that begins with whitespace does not come back.** -/
theorem unpadded_of_parseLoop (hs : s.asSlice = argsText (w :: ws) long)
    (hwords : (parseLoop s words).words = words ++ w :: ws)
    (hlong : (parseLoop s words).long = long) : Unpadded w := by
  have hstrip := congrArg (List.dropWhile isAsciiWhitespace) hs
  rw [dropWhile_argsText_cons] at hstrip
  cases hw : w.bytes.dropWhile isAsciiWhitespace with
  | nil =>
    -- nothing is left of it
    rw [hw] at hstrip
    have hle := len_parseLoop_le words hstrip
    rw [len, hwords, hlong, List.length_append, List.length_cons] at hle
    omega
  | cons b rest =>
    rw [hw] at hstrip
    have hlt : rest.length < w.bytes.length := by
      have := (List.dropWhile_sublist (l := w.bytes) isAsciiWhitespace).length_le
      rw [hw, List.length_cons] at this
      omega
    by_cases hb : b = byte ':'
    · -- what is left of it is taken for a long argument
      subst hb
      obtain ⟨line, hline, hloop⟩ := parseLoop_colon words _ hstrip
      rw [hloop] at hwords hlong
      by_cases hword : StringType.arg.findInvalid line.bytes = none
      · rw [add_of_word words hword] at hwords hlong
        obtain ⟨harg, rfl⟩ : (⟨line.bytes, hword⟩ : Arg) = w ∧ ws = [] := by
          simpa [ofWords] using hwords
        obtain rfl : long = none := hlong.symm
        have : w.bytes = rest := by
          rw [← harg]
          simpa [argsText] using hline
        rw [this] at hlt
        exact absurd hlt (lt_irrefl _)
      · rw [(add_of_long words hword).1] at hwords
        exact absurd (congrArg List.length hwords) (by simp)
    · -- what is left of it is taken for the word
      obtain ⟨arg, s', harg, -, hloop⟩ := parseLoop_stripped words hstrip
        (fun c hc => isInvalid_of_mem_dropWhile (hw ▸ hc)) hb
      have hpre := isPrefix_words_parseLoop s' (words ++ [arg])
      rw [← hloop, hwords, List.prefix_append_right_inj, List.cons_prefix_cons] at hpre
      intro c hc
      rw [← hpre.1, harg] at hc
      exact head?_dropWhile_eq_false (l := w.bytes) (by rw [hw]; exact hc)

theorem forall_unpadded_of_parseLoop {ws : List Arg} {s : Splitter .line} (words : List Arg)
    (hs : s.asSlice = argsText ws long) (hwords : (parseLoop s words).words = words ++ ws)
    (hlong : (parseLoop s words).long = long) : ∀ w ∈ ws, Unpadded w := by
  induction ws generalizing s words with
  | nil => simp
  | cons w ws ih =>
    have hw := unpadded_of_parseLoop words hs hwords hlong
    obtain ⟨s', hs', hloop⟩ := parseLoop_unpadded words hw hs
    rw [hloop] at hwords hlong
    exact List.forall_mem_cons.mpr
      ⟨hw, ih _ hs' (hwords.trans (List.append_cons words w ws)) hlong⟩

/-- **Arguments survive being written and parsed exactly when no word begins with whitespace.** -/
theorem parse_asLine_eq_iff (args : Args) :
    parse args.asLine = args ↔ ∀ w ∈ args.words, Unpadded w := by
  have hs : (Splitter.new args.asLine).asSlice = argsText args.words args.long :=
    (Splitter.asSlice_new _).trans args.writeTo_eq
  rw [Args.ext_iff]
  constructor
  · rintro ⟨hwords, hlong⟩
    exact forall_unpadded_of_parseLoop [] hs hwords hlong
  · intro h
    exact parseLoop_text args.long_isLong [] h hs

/-- **A word that does not come back**: a tab and a letter. -/
theorem parse_asLine_tab_ne :
    parse (ofWords [.fromStr "\tx"]).asLine ≠ ofWords [.fromStr "\tx"] := by
  decide +kernel

end Args

end Vinezombie
