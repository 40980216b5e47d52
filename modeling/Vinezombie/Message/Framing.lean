import Vinezombie.Message.Codec

/-!
# Messages, written and parsed

What the codecs write for a message is one line, and the parser finds each part of the message where
it was written: no byte of a tag, a source, a kind or an argument is taken for a part of another.
Whether tags and arguments come back is a matter of their own parsers.

* `writeTo_valid`: the bytes that are written are bytes of a line.
* `parse_writeTo`: the parser on a written message.
* `ServerMsg.sendTo`, `ClientMsg.sendTo`: sending.
-/

namespace Vinezombie

open Library.Scan

namespace Codec

/-! ## The bytes that are written -/

/-- A byte of a word is a byte of a line. -/
theorem isInvalid_line_of_word {b : UInt8} (h : StringType.word.isInvalid b = false) :
    StringType.line.isInvalid b = false :=
  Str.Conv.byte_valid (T := .word) b h

theorem tags_writeTo_valid {tags : Tags} {b : UInt8} (hb : b ∈ tags.writeTo) :
    StringType.word.isInvalid b = false :=
  Tags.writePairs_valid (c := byte '@') (by decide) tags.pairs.vec b hb

/-- Letters and digits are bytes of a word, and begin nothing but a kind. -/
theorem isInvalid_word_of_alphanumeric {b : UInt8}
    (h : isAsciiDigit b = true ∨ isAsciiUppercase b = true) :
    StringType.word.isInvalid b = false ∧ isAsciiWhitespace b = false ∧ b ≠ byte '@' ∧
      b ≠ byte ':' := by
  have hclass : (isAsciiDigit b || isAsciiUppercase b) = true := by
    rwa [Bool.or_eq_true]
  have hword : isInvalidForWord true b = false :=
    isInvalidForWord_of_class (f := fun b => isAsciiDigit b || isAsciiUppercase b) hclass rfl
  rw [isAsciiDigit_iff, isAsciiUppercase_iff] at h
  have hne : ∀ c : UInt8, c.toNat < 48 ∨ (57 < c.toNat ∧ c.toNat < 65) → b ≠ c := by
    rintro c hc rfl
    omega
  obtain ⟨hspace, hcr, hlf, -⟩ := isInvalidForWord_eq_false.mp hword
  refine ⟨hword, ?_, hne _ (by decide), hne _ (by decide)⟩
  simp only [isAsciiWhitespace, Bool.or_eq_false_iff, beq_eq_false_iff_ne]
  exact ⟨⟨⟨⟨hspace, hne _ (by decide)⟩, hlf⟩, hne _ (by decide)⟩, hcr⟩

/-- **The bytes that are written for a message** are bytes of a line. -/
theorem writeTo_valid {tags : Tags} {source : Option Source} {kind : List UInt8} {args : Args}
    (hkind : ∀ b ∈ kind, isAsciiDigit b = true ∨ isAsciiUppercase b = true) :
    ∀ b ∈ writeTo tags source kind args, StringType.line.isInvalid b = false := by
  have hspace : StringType.line.isInvalid (byte ' ') = false := by decide
  intro b hb
  rcases List.mem_append.mp hb with hb | hb
  · split at hb
    · exact absurd hb (by simp)
    · rcases List.mem_append.mp hb with hb | hb
      · exact isInvalid_line_of_word (tags_writeTo_valid hb)
      · rw [List.mem_singleton.mp hb]
        exact hspace
  · rcases List.mem_append.mp hb with hb | hb
    · cases source with
      | none => exact absurd hb (by simp)
      | some source =>
        rcases List.mem_append.mp hb with hb | hb
        · rcases List.mem_append.mp hb with hb | hb
          · rw [List.mem_singleton.mp hb]
            decide
          · exact isInvalid_line_of_word (source.writeTo_valid b hb)
        · rw [List.mem_singleton.mp hb]
          exact hspace
    · rcases List.mem_append.mp hb with hb | hb
      · exact isInvalid_line_of_word (isInvalid_word_of_alphanumeric (hkind b hb)).1
      · rw [Args.writeTo_eq] at hb
        exact Args.argsText_valid hb

/-! ## Reading them -/

section Framing

variable {S K : Type} {fuel : ℕ} {parseSource : Word → Except ParseError S} {s : Splitter .line}
  {tags tags' : Tags} {src : Option S} {expectTags expectSource : Bool} {kind : List UInt8}
  {args : Args}

/-- A kind is what the parser finds first. -/
theorem dropWhile_kind (hne : kind ≠ [])
    (hkind : ∀ b ∈ kind, isAsciiDigit b = true ∨ isAsciiUppercase b = true) (rest : List UInt8) :
    (kind ++ rest).dropWhile isAsciiWhitespace = kind ++ rest := by
  obtain ⟨b, kind', rfl⟩ := List.exists_cons_of_ne_nil hne
  have hws := (isInvalid_word_of_alphanumeric (hkind b List.mem_cons_self)).2.1
  rw [List.cons_append, List.dropWhile_cons_of_neg (by simp [hws])]

/-- **The kind and the arguments.** -/
theorem parseLoop_at_kind (hne : kind ≠ [])
    (hkind : ∀ b ∈ kind, isAsciiDigit b = true ∨ isAsciiUppercase b = true)
    (hs : s.asSlice.dropWhile isAsciiWhitespace = kind ++ args.writeTo) :
    ∃ (word : Word) (hword : word.bytes ≠ []) (s' : Splitter .line),
      parseLoop fuel parseSource s tags src expectTags expectSource =
        some (.ok (tags, src, ⟨word, hword⟩, s')) ∧
      word.bytes = kind ∧ s'.asSlice = args.writeTo := by
  obtain ⟨word, s', hnext, hword, hs'⟩ := nextWord_of_eq hs
    (fun b hb => (isInvalid_word_of_alphanumeric (hkind b hb)).1)
    (fun b hb => by
      rw [Args.writeTo_eq] at hb
      exact Args.head?_argsText hb)
  have hfirst : ∀ b ∈ word.bytes.head?, b ≠ byte '@' ∧ b ≠ byte ':' := fun b hb =>
    (isInvalid_word_of_alphanumeric (hkind b (hword ▸ List.mem_of_mem_head? hb))).2.2
  refine ⟨word, hword ▸ hne, s', parseLoop_kind hnext (hword ▸ hne) ?_ ?_, hword, hs'⟩
  · exact fun hh => (hfirst _ hh.1).1 rfl
  · exact fun hh => (hfirst _ hh.1).2 rfl

/-- What `write_to` writes for a source. -/
def sourceText (source : Option Source) : List UInt8 :=
  match source with
  | some source => text ":" ++ source.writeTo ++ text " "
  | none => []

theorem writeTo_eq (tags : Tags) (source : Option Source) (kind : List UInt8) (args : Args) :
    writeTo tags source kind args = (if tags.isEmpty then [] else tags.writeTo ++ text " ") ++
      (sourceText source ++ (kind ++ args.writeTo)) := rfl

variable (fuel tags expectTags) in
/-- **The source**, if there is one, and what follows it. -/
theorem parseLoop_at_source (hne : kind ≠ [])
    (hkind : ∀ b ∈ kind, isAsciiDigit b = true ∨ isAsciiUppercase b = true)
    {source : Option Source}
    (hsource : ∀ x ∈ source, ∃ y, parseSource x.toWord = .ok y ∧ src = some y)
    (hnone : source = none → src = none)
    (hs : s.asSlice.dropWhile isAsciiWhitespace = sourceText source ++ (kind ++ args.writeTo)) :
    ∃ (word : Word) (hword : word.bytes ≠ []) (s' : Splitter .line),
      parseLoop fuel parseSource s tags none expectTags true =
        some (.ok (tags, src, ⟨word, hword⟩, s')) ∧
      word.bytes = kind ∧ s'.asSlice = args.writeTo := by
  cases source with
  | none =>
    rw [hnone rfl]
    exact parseLoop_at_kind hne hkind hs
  | some source =>
    obtain ⟨y, hy, rfl⟩ := hsource source rfl
    have hs₁ : s.asSlice.dropWhile isAsciiWhitespace =
        (byte ':' :: source.toWord.bytes) ++ byte ' ' :: (kind ++ args.writeTo) := by
      rw [hs]
      simp [sourceText, text, Source.toWord]
    obtain ⟨word₁, s₁, hnext, hword₁, hs₁'⟩ := nextWord_of_eq hs₁
      (by
        refine List.forall_mem_cons.mpr ⟨by decide, source.writeTo_valid⟩)
      (fun b hb => by
        rw [List.head?_cons, Option.mem_some_iff] at hb
        rw [← hb]
        decide)
    rw [parseLoop_source hnext hword₁, hy]
    refine parseLoop_at_kind hne hkind ?_
    rw [hs₁', List.dropWhile_cons_of_pos (by decide), dropWhile_kind hne hkind]

/-- The source part or the kind is what the parser finds behind the tags. -/
theorem dropWhile_source (hne : kind ≠ [])
    (hkind : ∀ b ∈ kind, isAsciiDigit b = true ∨ isAsciiUppercase b = true)
    (source : Option Source) (rest : List UInt8) :
    (sourceText source ++ (kind ++ rest)).dropWhile isAsciiWhitespace =
      sourceText source ++ (kind ++ rest) := by
  cases source with
  | none => exact dropWhile_kind hne hkind rest
  | some source =>
    simp only [sourceText, text]
    exact List.dropWhile_cons_of_neg (by decide)

/-- The text of tags that are not empty. -/
theorem tags_writeTo_eq {tags : Tags} (h : ¬ tags.isEmpty = true) :
    tags.writeTo = byte '@' :: tags.toWord.bytes := by
  show Tags.writePairs (text "@") tags.pairs.vec =
    byte '@' :: (Tags.writePairs (text "@") tags.pairs.vec).tail
  cases hv : tags.pairs.vec with
  | nil =>
    rw [Tags.isEmpty, FlatMap.isEmpty, hv] at h
    exact absurd rfl h
  | cons p ps =>
    rw [Tags.writePairs_cons]
    rfl

/-- A written message does not begin with whitespace. -/
theorem dropWhile_writeTo (hne : kind ≠ [])
    (hkind : ∀ b ∈ kind, isAsciiDigit b = true ∨ isAsciiUppercase b = true)
    (tags : Tags) (source : Option Source) (args : Args) :
    (writeTo tags source kind args).dropWhile isAsciiWhitespace =
      writeTo tags source kind args := by
  rw [writeTo_eq]
  by_cases hempty : tags.isEmpty = true
  · rw [if_pos hempty, List.nil_append, dropWhile_source hne hkind]
  · rw [if_neg hempty, tags_writeTo_eq hempty, List.cons_append, List.cons_append,
      List.dropWhile_cons_of_neg (by decide)]

theorem writeTo_ne_nil (hne : kind ≠ []) (tags : Tags) (source : Option Source) (args : Args) :
    writeTo tags source kind args ≠ [] := by
  simp [writeTo_eq, hne]

/-- The tags that the parser finds in a message that was written with `tags`. -/
def TagsRead (fuel : ℕ) (tags found : Tags) : Prop :=
  if tags.isEmpty then found = Tags.new else Tags.parse fuel tags.toWord = some found

/-- **The tags**, if there are any, and what follows them. -/
theorem parseLoop_at_tags (hne : kind ≠ [])
    (hkind : ∀ b ∈ kind, isAsciiDigit b = true ∨ isAsciiUppercase b = true)
    {source : Option Source}
    (hsource : ∀ x ∈ source, ∃ y, parseSource x.toWord = .ok y ∧ src = some y)
    (hnone : source = none → src = none) (tags : Tags)
    (hs : s.asSlice = writeTo tags source kind args) :
    ∃ (fuel : ℕ) (found : Tags) (word : Word) (hword : word.bytes ≠ []) (s' : Splitter .line),
      parseLoop fuel parseSource s Tags.new none true true =
        some (.ok (found, src, ⟨word, hword⟩, s')) ∧
      TagsRead fuel tags found ∧ word.bytes = kind ∧ s'.asSlice = args.writeTo := by
  have hstrip := congrArg (List.dropWhile isAsciiWhitespace) hs
  rw [dropWhile_writeTo hne hkind, writeTo_eq] at hstrip
  by_cases hempty : tags.isEmpty = true
  · have hs₁ : s.asSlice.dropWhile isAsciiWhitespace =
        sourceText source ++ (kind ++ args.writeTo) := by
      rw [hstrip, if_pos hempty, List.nil_append]
    obtain ⟨word, hword, s', hloop, hkind', hs'⟩ :=
      parseLoop_at_source 0 Tags.new true hne hkind hsource hnone hs₁
    exact ⟨0, Tags.new, word, hword, s', hloop, by rw [TagsRead, if_pos hempty], hkind', hs'⟩
  · have hs₁ : s.asSlice.dropWhile isAsciiWhitespace = (byte '@' :: tags.toWord.bytes) ++
        byte ' ' :: (sourceText source ++ (kind ++ args.writeTo)) := by
      rw [hstrip, if_neg hempty, tags_writeTo_eq hempty, List.append_assoc]
      rfl
    obtain ⟨word₁, s₁, hnext, hword₁, hs₁'⟩ := nextWord_of_eq hs₁
      (List.forall_mem_cons.mpr ⟨by decide, fun b hb => tags.toWord.isInvalid_eq_false hb⟩)
      (fun b hb => by
        rw [List.head?_cons, Option.mem_some_iff] at hb
        rw [← hb]
        decide)
    obtain ⟨fuel, hfound⟩ := Tags.parse_text tags
    have hs₂ : s₁.asSlice.dropWhile isAsciiWhitespace =
        sourceText source ++ (kind ++ args.writeTo) := by
      rw [hs₁', List.dropWhile_cons_of_pos (by decide), dropWhile_source hne hkind]
    obtain ⟨word, hword, s', hloop, hkind', hs'⟩ :=
      parseLoop_at_source fuel _ false hne hkind hsource hnone hs₂
    refine ⟨fuel, _, word, hword, s', ?_, by rw [TagsRead, if_neg hempty]; exact hfound, hkind',
      hs'⟩
    rw [parseLoop_tags hnext hword₁, hfound]
    exact hloop

variable (parseSource src kind args) in
/-- **The parser on a written message.** -/
theorem parse_writeTo (hne : kind ≠ [])
    (hkind : ∀ b ∈ kind, isAsciiDigit b = true ∨ isAsciiUppercase b = true)
    (source : Option Source)
    (hsource : ∀ x ∈ source, ∃ y, parseSource x.toWord = .ok y ∧ src = some y)
    (hnone : source = none → src = none) (tags : Tags)
    (parseKind : (word : Word) → word.bytes ≠ [] → Except ParseError K) {k : K}
    (hk : ∀ (word : Word) (hword : word.bytes ≠ []), word.bytes = kind →
      parseKind word hword = .ok k)
    (msg : Line) (hmsg : msg.bytes = writeTo tags source kind args) :
    ∃ fuel found, parse fuel msg parseSource parseKind =
        some (.ok (found, src, k, Args.parse args.asLine)) ∧
      TagsRead fuel tags found := by
  obtain ⟨fuel, found, word, hword, s', hloop, hfound, hkind', hs'⟩ :=
    parseLoop_at_tags hne hkind hsource hnone tags
      (s := Splitter.new msg) ((Splitter.asSlice_new msg).trans hmsg)
  obtain ⟨line, hline, hrest⟩ := s'.restOrDefault_eq (U := .line) rfl
  have hargs : line = args.asLine := Str.ext (hline.trans hs')
  refine ⟨fuel, found, ?_, hfound⟩
  simp only [parse, hloop, hk word hword hkind', hrest, hargs]

end Framing

/-! ## Sending -/

section Sending

variable {W ε : Type} (writeAll : W → List UInt8 → Except ε W)

/-- The two `send_to` functions, for a message that is written as `line`: the result of `write_all`,
and the buffer that is left. -/
def sendTo (line : List UInt8) (write : W) (buf : List UInt8) : Except ε W × List UInt8 :=
  match writeAll write (buf ++ line ++ text "\r\n") with
  | .ok write => (.ok write, [])
  | .error e => (.error e, buf ++ line ++ text "\r\n")

/-- The writer is given what is in the buffer, the line and its terminator, at once. -/
theorem sendTo_fst (line : List UInt8) (write : W) (buf : List UInt8) :
    (sendTo writeAll line write buf).1 = writeAll write (buf ++ line ++ text "\r\n") := by
  unfold sendTo
  cases writeAll write (buf ++ line ++ text "\r\n") with
  | ok write => rfl
  | error e => rfl

end Sending

end Codec

/-! ## The two kinds of messages -/

namespace ServerMsg

/-- What the codec writes for a message, as the line it is. -/
def toLine (m : ServerMsg) : Line where
  bytes := m.writeTo
  valid := StringType.line.findInvalid_eq_none_iff.mpr
    ⟨rfl, Codec.writeTo_valid fun _ => ServerMsgKindRaw.asBytes_alphanumeric⟩

/-- `ServerCodec::send_to`. -/
def sendTo {W ε : Type} (writeAll : W → List UInt8 → Except ε W) (m : ServerMsg) (write : W)
    (buf : List UInt8) : Except ε W × List UInt8 :=
  Codec.sendTo writeAll m.writeTo write buf

end ServerMsg

namespace ClientMsg

theorem cmd_alphanumeric {cmd : Cmd} {b : UInt8} (hb : b ∈ cmd.bytes) :
    isAsciiDigit b = true ∨ isAsciiUppercase b = true :=
  .inr (Cmd.isAsciiUppercase_of_mem hb)

/-- What the codec writes for a message, as the line it is. -/
def toLine (m : ClientMsg) : Line where
  bytes := m.writeTo
  valid := StringType.line.findInvalid_eq_none_iff.mpr
    ⟨rfl, Codec.writeTo_valid fun _ => cmd_alphanumeric⟩

/-- `ClientCodec::send_to`. -/
def sendTo {W ε : Type} (writeAll : W → List UInt8 → Except ε W) (m : ClientMsg) (write : W)
    (buf : List UInt8) : Except ε W × List UInt8 :=
  Codec.sendTo writeAll m.writeTo write buf

end ClientMsg

/-- The parser on a server message that was written. -/
theorem ServerMsg.parse_toLine (m : ServerMsg)
    (h : ∀ source ∈ m.source, ∀ uh ∈ source.userhost, uh.host.bytes ≠ []) :
    ∃ fuel m', ServerMsg.parse fuel m.toLine = some (.ok m') ∧ m'.kind = m.kind ∧
      m'.source = m.source ∧ Codec.TagsRead fuel m.tags m'.tags ∧
      m'.args = Args.parse m.args.asLine := by
  obtain ⟨fuel, found, hparse, hfound⟩ := Codec.parse_writeTo Source.parse m.source _ m.args
    m.kind.asBytes_ne_nil (fun _ => ServerMsgKindRaw.asBytes_alphanumeric) m.source
    (fun source hsource => ⟨source, source.parse_toWord (h source hsource), hsource⟩) id m.tags
    _ (fun word hword => ServerMsgKindRaw.parseKind_asBytes hword) m.toLine rfl
  refine ⟨fuel, ⟨found, m.source, m.kind, Args.parse m.args.asLine⟩, ?_, rfl, rfl, hfound, rfl⟩
  rw [ServerMsg.parse, hparse]
  rfl

/-- The parser on a client message that was written. -/
theorem ClientMsg.parse_toLine (m : ClientMsg) :
    ∃ fuel m', ClientMsg.parse fuel m.toLine = some (.ok m') ∧ m'.cmd = m.cmd ∧
      Codec.TagsRead fuel m.tags m'.tags ∧ m'.args = Args.parse m.args.asLine := by
  obtain ⟨b, rest, hbytes, -⟩ := m.cmd.exists_eq_cons rfl
  obtain ⟨fuel, found, hparse, hfound⟩ := Codec.parse_writeTo (S := Unit) (fun _ => .ok ()) none
    m.cmd.bytes m.args (by simp [hbytes]) (fun _ => ClientMsg.cmd_alphanumeric) none (by simp)
    (fun _ => rfl) m.tags ClientMsg.parseKind (k := m.cmd)
    (fun word hword hw => by rw [ClientMsg.parseKind, Cmd.fromWord_of_bytes_eq hword hw])
    m.toLine rfl
  refine ⟨fuel, ⟨found, m.cmd, Args.parse m.args.asLine⟩, ?_, rfl, hfound, rfl⟩
  rw [ClientMsg.parse, hparse]
  rfl

/-- **Framing.**  The parser finds the kind and the source of a written message, the tags that
`Tags::parse` finds in the text written for its tags, and the arguments that `Args::parse` finds in
the text written behind its kind. -/
theorem Codec.parse_toLine_framed :
    (∀ m : ServerMsg, (∀ source ∈ m.source, ∀ uh ∈ source.userhost, uh.host.bytes ≠ []) →
      ∃ fuel m', ServerMsg.parse fuel m.toLine = some (.ok m') ∧ m'.kind = m.kind ∧
        m'.source = m.source ∧
        (if m.tags.isEmpty then m'.tags = Tags.new
          else Tags.parse fuel m.tags.toWord = some m'.tags) ∧
        m'.args = Args.parse m.args.asLine) ∧
    ∀ m : ClientMsg,
      ∃ fuel m', ClientMsg.parse fuel m.toLine = some (.ok m') ∧ m'.cmd = m.cmd ∧
        (if m.tags.isEmpty then m'.tags = Tags.new
          else Tags.parse fuel m.tags.toWord = some m'.tags) ∧
        m'.args = Args.parse m.args.asLine :=
  ⟨fun m h => m.parse_toLine h, fun m => m.parse_toLine⟩

/-- A message whose source has a host. -/
theorem Codec.parse_toLine_framed_ping :
    ∃ fuel m', ServerMsg.parse fuel (ServerMsg.toLine ⟨Tags.new,
        some ⟨.fromStr "n", some ⟨none, .fromStr "h"⟩⟩,
        .cmd (.fromStr "PING"), Args.empty⟩) = some (.ok m') ∧
      m'.kind = .cmd (.fromStr "PING") := by
  obtain ⟨fuel, m', hparse, hkind, -⟩ := Codec.parse_toLine_framed.1 ⟨Tags.new,
    some ⟨.fromStr "n", some ⟨none, .fromStr "h"⟩⟩,
    .cmd (.fromStr "PING"), Args.empty⟩ (by decide)
  exact ⟨fuel, m', hparse, hkind⟩

/-- The bytes of a line. -/
theorem Line.ne_of_mem (line : Line) {b : UInt8} (hb : b ∈ line.bytes) :
    b ≠ byte '\r' ∧ b ≠ byte '\n' ∧ b ≠ 0 :=
  isInvalidForLine_eq_false.mp (line.isInvalid_eq_false hb)

theorem Tags.ne_space_of_mem_writeTo (tags : Tags) {b : UInt8} (hb : b ∈ tags.writeTo) :
    b ≠ byte ' ' :=
  (isInvalidForWord_eq_false.mp (Codec.tags_writeTo_valid hb)).1

/-- **No line injection.**  Nothing that a message contains makes the codec write a byte that ends a
line, or a space among the tags; sending a message hands the writer what was in the buffer, one line
and its terminator. -/
theorem Codec.writeTo_single_line :
    (∀ m : ServerMsg, (∀ b ∈ m.writeTo, b ≠ byte '\r' ∧ b ≠ byte '\n' ∧ b ≠ 0) ∧
      (∀ b ∈ m.tags.writeTo, b ≠ byte ' ') ∧
      ∀ (W ε : Type) (writeAll : W → List UInt8 → Except ε W) (write : W) (buf : List UInt8),
        (m.sendTo writeAll write buf).1 = writeAll write (buf ++ m.toLine.bytes ++ text "\r\n")) ∧
    ∀ m : ClientMsg, (∀ b ∈ m.writeTo, b ≠ byte '\r' ∧ b ≠ byte '\n' ∧ b ≠ 0) ∧
      (∀ b ∈ m.tags.writeTo, b ≠ byte ' ') ∧
      ∀ (W ε : Type) (writeAll : W → List UInt8 → Except ε W) (write : W) (buf : List UInt8),
        (m.sendTo writeAll write buf).1 =
          writeAll write (buf ++ m.toLine.bytes ++ text "\r\n") := by
  constructor
  · intro m
    exact ⟨fun b hb => m.toLine.ne_of_mem hb, fun b hb => m.tags.ne_space_of_mem_writeTo hb,
      fun W ε writeAll write buf => Codec.sendTo_fst writeAll m.writeTo write buf⟩
  · intro m
    exact ⟨fun b hb => m.toLine.ne_of_mem hb, fun b hb => m.tags.ne_space_of_mem_writeTo hb,
      fun W ε writeAll write buf => Codec.sendTo_fst writeAll m.writeTo write buf⟩

end Vinezombie
