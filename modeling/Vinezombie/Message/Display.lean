import Vinezombie.Message.Codec
import Vinezombie.Strings.Flagged

/-!
# Messages as they are printed

The `Display` implementations of `string/bytes.rs`, `ircmsg/tags.rs`, `ircmsg/args.rs`,
`ircmsg/source.rs`, `ircmsg/client.rs` and `ircmsg/server.rs`, by which messages get into logs.  A
secret string is printed as a placeholder, and so is one that is not UTF-8.

The strings of a message are here those of the source, with their flags.  Forgetting the flags gives
the messages of `Message.Codec`.

* `Bytes.display`, `Marked.ClientMsg.display`, `Marked.ServerMsg.display`: what is printed.
* `valid_escapeBytes_iff`: escaped text is UTF-8 exactly if the value is.
* `Marked.display_eq_writeTo`: what is not secret, and UTF-8, is printed as it is sent.
-/

namespace Vinezombie

open Library.Scan Library.Utf8

/-! ## Strings -/

/-- `DISPLAY_PLACEHOLDER`. -/
def displayPlaceholder : List UInt8 := text "<?>"

namespace Bytes

/-- `Display for Bytes`: the text that is printed. -/
def display (b : Bytes) : List UInt8 :=
  if b.isSecret then displayPlaceholder
  else
    match b.toUtf8.1 with
    | some s => s
    | none => displayPlaceholder

/-- `escape`, with the flags of the string. -/
def escape (b : Bytes) : Bytes :=
  if b.value.all fun c => (escapeByte c).isNone then b else .fromVec (escapeBytes b.value)

/-- `escape` as one of the methods of strings. -/
theorem apply_escape [Base64.Engine] {k : Flagged.Kind} (hk : k.into .noNul = true) (b : Bytes) :
    Flagged.StrOp.escape.apply (k, b) = some (.word, b.escape) := by
  simp only [Flagged.StrOp.apply, if_pos hk, escape]
  split
  · rfl
  · rfl

end Bytes

/-! ## Messages -/

namespace Marked

/-- A string of the source: bytes and flags, which the type admits. -/
structure Str (T : StringType) where
  raw : Bytes
  valid : T.findInvalid raw.value = none

/-- The string without its flags. -/
def Str.toStr {T : StringType} (s : Str T) : Vinezombie.Str T := ⟨s.raw.value, s.valid⟩

/-- `Tags`. -/
structure Tags where
  pairs : FlatMap (Str .key × Str .noNul)

namespace Tags

/-- The tags without the flags. -/
def toTags (t : Tags) : Vinezombie.Tags :=
  ⟨⟨t.pairs.vec.map fun (key, value) => (key.toStr, value.toStr)⟩⟩

/-- `is_empty`. -/
def isEmpty (t : Tags) : Bool := t.pairs.isEmpty

/-- The loop of `Display for Tags`, with the variable `prefix`. -/
def displayPairs (pre : List UInt8) : List (Str .key × Str .noNul) → List UInt8
  | [] => []
  | (key, value) :: rest =>
    (if !value.raw.value.isEmpty then
      pre ++ key.raw.display ++ text "=" ++ value.raw.escape.display
    else pre ++ key.raw.display) ++
    displayPairs (text ";") rest

/-- `Display for Tags`. -/
def display (t : Tags) : List UInt8 := displayPairs (text "@") t.pairs.vec

end Tags

/-- `Args`. -/
structure Args where
  words : List (Str .arg)
  long : Option (Str .line)
  /-- A long argument is not a word. -/
  long_isLong : ∀ line ∈ long, StringType.arg.findInvalid line.raw.value ≠ none

namespace Args

/-- The arguments without the flags. -/
def toArgs (args : Args) : Vinezombie.Args where
  words := args.words.map Str.toStr
  long := args.long.map Str.toStr
  long_isLong := by
    intro line hline
    obtain ⟨long, hlong, rfl⟩ := Option.map_eq_some_iff.mp hline
    exact args.long_isLong long hlong

/-- `is_empty`. -/
def isEmpty (args : Args) : Bool := args.words.isEmpty && args.long.isNone

/-- `Display for Args`. -/
def display (args : Args) : List UInt8 :=
  match args.long with
  | some long =>
    (args.words.flatMap fun arg => arg.raw.display ++ text " ") ++ (text ":" ++ long.raw.display)
  | none =>
    match args.words.getLast? with
    | some last =>
      (args.words.dropLast.flatMap fun arg => arg.raw.display ++ text " ") ++ last.raw.display
    | none => []

end Args

/-- `UserHost`. -/
structure UserHost where
  user : Option (Str .user)
  host : Str .word

/-- `Source`. -/
structure Source where
  nick : Str .nick
  userhost : Option UserHost

namespace Source

/-- The source without the flags. -/
def toSource (s : Source) : Vinezombie.Source where
  nick := s.nick.toStr
  userhost := s.userhost.map fun address => ⟨address.user.map Str.toStr, address.host.toStr⟩

/-- `Display for Source`. -/
def display (s : Source) : List UInt8 :=
  match s.userhost with
  | some address =>
    match address.user with
    | some user =>
      s.nick.raw.display ++ text "!" ++ user.raw.display ++ text "@" ++ address.host.raw.display
    | none => s.nick.raw.display ++ text "@" ++ address.host.raw.display
  | none => s.nick.raw.display

end Source

/-- `ClientMsg`. -/
structure ClientMsg where
  tags : Tags
  cmd : Str .cmd
  args : Args

namespace ClientMsg

/-- The message without the flags. -/
def toClientMsg (msg : ClientMsg) : Vinezombie.ClientMsg :=
  ⟨msg.tags.toTags, msg.cmd.toStr, msg.args.toArgs⟩

/-- `Display for ClientMsg`. -/
def display (msg : ClientMsg) : List UInt8 :=
  (if !msg.tags.isEmpty then msg.tags.display ++ text " " else []) ++
    msg.cmd.raw.display ++
    if !msg.args.isEmpty then text " " ++ msg.args.display else []

end ClientMsg

/-- `ServerMsg`.  The kind is printed through `as_arg`, which makes a string of its own, so it has
no flags here. -/
structure ServerMsg where
  tags : Tags
  source : Option Source
  kind : ServerMsgKindRaw
  args : Args

namespace ServerMsg

/-- The message without the flags. -/
def toServerMsg (msg : ServerMsg) : Vinezombie.ServerMsg :=
  ⟨msg.tags.toTags, msg.source.map Source.toSource, msg.kind, msg.args.toArgs⟩

/-- `Display for ServerMsg`. -/
def display (msg : ServerMsg) : List UInt8 :=
  (if !msg.tags.isEmpty then msg.tags.display ++ text " " else []) ++
    (match msg.source with
      | some src => text ":" ++ src.display ++ text " "
      | none => []) ++
    msg.kind.asBytes ++
    if !msg.args.isEmpty then text " " ++ msg.args.display else []

end ServerMsg

end Marked

/-! ## Escaped text -/

/-- What `escape` puts in place of a byte is ASCII, and stands for ASCII. -/
theorem isAscii_of_escapeByte {b esc : UInt8} (h : escapeByte b = some esc) :
    isAscii b = true ∧ isAscii esc = true := by
  rcases escapeByte_eq_some h with
    ⟨rfl, rfl⟩ | ⟨rfl, rfl⟩ | ⟨rfl, rfl⟩ | ⟨rfl, rfl⟩ | ⟨rfl, rfl⟩ <;> decide

theorem valid_append_flatMap_escapeOne_iff (l v : List UInt8) :
    Valid (l ++ v.flatMap escapeOne) ↔ Valid (l ++ v) := by
  induction v generalizing l with
  | nil => rfl
  | cons b v ih =>
    rw [List.flatMap_cons]
    cases hesc : escapeByte b with
    | none =>
      rw [escapeOne_of_none hesc, ← List.append_assoc, ih, List.append_assoc, List.singleton_append]
    | some esc =>
      -- the text may be cut at an escaped byte, and at both bytes of the escape
      obtain ⟨hb, hascii⟩ := isAscii_of_escapeByte hesc
      have hrest : Valid (v.flatMap escapeOne) ↔ Valid v := ih []
      rw [escapeOne_of_some hesc, List.cons_append, List.singleton_append,
        valid_append_cons_iff (by decide), valid_cons_iff hascii, valid_append_cons_iff hb, hrest]

/-- **Escaping** keeps a string UTF-8, and does not make it so. -/
theorem valid_escapeBytes_iff (v : List UInt8) : Valid (escapeBytes v) ↔ Valid v := by
  rw [escapeBytes_eq_flatMap]
  exact valid_append_flatMap_escapeOne_iff [] v

/-! ## What is printed of a string -/

namespace Bytes

theorem toUtf8_eq (b : Bytes) : b.toUtf8.1 = if b.toUtf8.1.isSome then some b.value else none := by
  unfold toUtf8
  split
  · rfl
  · rfl
  · split <;> rfl

theorem all_isNone_iff (b : Bytes) :
    (b.value.all fun c => (escapeByte c).isNone) = true ↔ ¬ ∃ c ∈ b.value, escapeByte c ≠ none := by
  simp

theorem display_fromVec (value : List UInt8) :
    (fromVec value).display = if Valid value then value else displayPlaceholder := by
  unfold display toUtf8
  simp only [fromVec, ofVec, isUtf8Lazy]
  by_cases hvalid : Valid value
  · simp [hvalid]
  · simp [hvalid]

end Bytes

/-! ## What is not secret is printed as it is sent -/

/-- A string that is not secret, is UTF-8 and is not taken for anything else. -/
def Bytes.Plain (b : Bytes) : Prop := b.isSecret = false ∧ b.utf8 ≠ .invalid ∧ Valid b.value

theorem Bytes.Plain.display_eq {b : Bytes} (h : b.Plain) : b.display = b.value := by
  obtain ⟨hsecret, hutf8, hvalid⟩ := h
  unfold display toUtf8 isUtf8Lazy
  rw [if_neg (by simp [hsecret])]
  cases hflag : b.utf8 with
  | valid => rfl
  | invalid => exact absurd hflag hutf8
  | unknown =>
    simp only [if_pos hvalid]

theorem Bytes.Plain.escape_display_eq {b : Bytes} (h : b.Plain) :
    b.escape.display = escapeBytes b.value := by
  unfold escape
  by_cases hesc : ∃ c ∈ b.value, escapeByte c ≠ none
  · rw [if_neg (by rw [all_isNone_iff]; exact not_not.mpr hesc), display_fromVec,
      if_pos ((valid_escapeBytes_iff _).mpr h.2.2)]
  · rw [if_pos ((all_isNone_iff b).mpr hesc), h.display_eq, escapeBytes_eq_flatMap,
      flatMap_escapeOne_of_none]
    simpa using hesc

namespace Marked

/-- All strings of the tags are printed as they are. -/
def Tags.Plain (t : Tags) : Prop := ∀ p ∈ t.pairs.vec, p.1.raw.Plain ∧ p.2.raw.Plain

/-- All arguments are printed as they are. -/
def Args.Plain (args : Args) : Prop :=
  (∀ w ∈ args.words, w.raw.Plain) ∧ ∀ l ∈ args.long, l.raw.Plain

/-- All parts of the source are printed as they are. -/
def Source.Plain (s : Source) : Prop :=
  s.nick.raw.Plain ∧
    ∀ address ∈ s.userhost, (∀ user ∈ address.user, user.raw.Plain) ∧ address.host.raw.Plain

theorem Tags.Plain.displayPairs_eq {pairs : List (Str .key × Str .noNul)} (pre : List UInt8)
    (h : ∀ p ∈ pairs, p.1.raw.Plain ∧ p.2.raw.Plain) :
    Tags.displayPairs pre pairs =
      Vinezombie.Tags.writePairs pre (pairs.map fun (key, value) => (key.toStr, value.toStr)) := by
  induction pairs generalizing pre with
  | nil => rfl
  | cons p pairs ih =>
    obtain ⟨key, value⟩ := p
    obtain ⟨⟨hkey, hvalue⟩, hrest⟩ := List.forall_mem_cons.mp h
    dsimp only at hkey hvalue
    rw [Tags.displayPairs, List.map_cons, Vinezombie.Tags.writePairs, ih _ hrest, hkey.display_eq,
      hvalue.escape_display_eq]
    have hempty : value.toStr.bytes.isEmpty = value.raw.value.isEmpty := rfl
    rw [hempty]
    cases value.raw.value.isEmpty with
    | true => simp [Str.toStr]
    | false => simp [Str.toStr, Vinezombie.escape]

theorem flatMap_append_eq {α : Type} (l : List α) (f : α → List UInt8) (sep : List UInt8) :
    sep ++ (l.flatMap fun a => f a ++ sep) = (l.flatMap fun a => sep ++ f a) ++ sep := by
  induction l with
  | nil => simp
  | cons a l ih =>
    rw [List.flatMap_cons, List.flatMap_cons, List.append_assoc, ih]
    simp

theorem flatMap_display_of_plain {l : List (Str .arg)} (h : ∀ w ∈ l, w.raw.Plain) :
    (l.flatMap fun w => w.raw.display ++ text " ") =
      (l.map Str.toStr).flatMap fun w => w.bytes ++ text " " := by
  rw [List.flatMap_map]
  exact List.flatMap_congr fun w hw => by rw [(h w hw).display_eq]; rfl

/-- The arguments, with the space in front of them. -/
theorem Args.Plain.display_eq {args : Args} (h : args.Plain) :
    (if !args.isEmpty then text " " ++ args.display else []) = args.toArgs.writeTo := by
  obtain ⟨words, long, hisLong⟩ := args
  obtain ⟨hwords, hlong⟩ := h
  dsimp only at hwords hlong
  cases long with
  | some long =>
    have hempty : Args.isEmpty ⟨words, some long, hisLong⟩ = false := by simp [Args.isEmpty]
    rw [hempty]
    simp only [Bool.not_false, if_true, Args.display, Args.toArgs, Vinezombie.Args.writeTo,
      Vinezombie.Args.splitLast, Vinezombie.Args.isLastLong, Option.map_some, Option.isSome_some]
    rw [flatMap_display_of_plain hwords, (hlong long rfl).display_eq, ← List.append_assoc,
      flatMap_append_eq, List.append_assoc]
    rfl
  | none =>
    rcases List.eq_nil_or_concat' words with rfl | ⟨front, last, rfl⟩
    · rfl
    · have hempty : Args.isEmpty ⟨front ++ [last], none, hisLong⟩ = false := by
        simp [Args.isEmpty]
      rw [hempty]
      simp only [Bool.not_false, if_true, Args.display, Args.toArgs, Vinezombie.Args.writeTo,
        Vinezombie.Args.splitLast, Vinezombie.Args.isLastLong, Option.map_none,
        List.getLast?_concat, List.dropLast_concat, List.map_append, List.map_singleton]
      rw [flatMap_display_of_plain fun w hw => hwords w (List.mem_append_left _ hw),
        (hwords last (by simp)).display_eq, ← List.append_assoc, flatMap_append_eq,
        List.append_assoc]
      rfl

theorem Source.Plain.display_eq {s : Source} (h : s.Plain) : s.display = s.toSource.writeTo := by
  obtain ⟨nick, userhost⟩ := s
  obtain ⟨hnick, hhost⟩ := h
  dsimp only at hnick hhost
  cases userhost with
  | none => exact hnick.display_eq
  | some address =>
    obtain ⟨user, host⟩ := address
    obtain ⟨huser, hword⟩ := hhost _ rfl
    dsimp only at huser hword
    cases user with
    | none =>
      simp [Source.display, Source.toSource, Vinezombie.Source.writeTo, hnick.display_eq,
        hword.display_eq, Str.toStr]
    | some user =>
      simp [Source.display, Source.toSource, Vinezombie.Source.writeTo, hnick.display_eq,
        hword.display_eq, (huser user rfl).display_eq, Str.toStr]

/-- **A message without secrets**, and in UTF-8, is printed as it is sent. -/
theorem display_eq_writeTo :
    (∀ m : ClientMsg, m.tags.Plain → m.cmd.raw.Plain → m.args.Plain →
      m.display = m.toClientMsg.writeTo) ∧
    ∀ m : ServerMsg, m.tags.Plain → (∀ src ∈ m.source, src.Plain) → m.args.Plain →
      m.display = m.toServerMsg.writeTo := by
  have htags : ∀ t : Tags, t.Plain →
      (if !t.isEmpty then t.display ++ text " " else []) =
        if t.toTags.isEmpty then [] else t.toTags.writeTo ++ text " " := by
    intro t ht
    have hempty : t.toTags.isEmpty = t.isEmpty := by
      simp [Tags.toTags, Vinezombie.Tags.isEmpty, Tags.isEmpty, FlatMap.isEmpty]
    rw [hempty, Tags.display, Tags.Plain.displayPairs_eq _ ht]
    cases t.isEmpty with
    | true => rfl
    | false => rfl
  constructor
  · intro m ht hcmd hargs
    rw [ClientMsg.display, htags m.tags ht, hargs.display_eq, hcmd.display_eq, List.append_assoc]
    rfl
  · intro m ht hsource hargs
    obtain ⟨tags, source, kind, args⟩ := m
    dsimp only at ht hsource hargs
    rw [ServerMsg.display, htags tags ht, hargs.display_eq, List.append_assoc, List.append_assoc]
    cases source with
    | none => rfl
    | some src =>
      simp only [(hsource src rfl).display_eq]
      rfl

end Marked

end Vinezombie
