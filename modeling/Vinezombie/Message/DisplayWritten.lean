import Vinezombie.Message.Display
import Vinezombie.Strings.Utf8Cache

/-!
# What logs show of a message

The text that `Display` makes of a message and the bytes that the codecs write for it come from two
implementations, at every level from the message down to the single string.  They are the same for
the messages whose strings are not secret and are UTF-8.

The strings are those that can be made with the methods of the crate, in any order.  A string that
is wrongly taken for UTF-8 can be among them, but none that is wrongly taken for something else, so
`Display` prints its bytes and not the placeholder.

* `Str.Public.plain`: such a string is printed as it is.
* `display_written`: and such a message.
-/

namespace Vinezombie

open Library.Utf8

namespace Marked

variable [Base64.Engine]

/-- A string that was made with the methods of the crate, is not secret and is UTF-8. -/
structure Str.Public {T : StringType} (s : Str T) : Prop where
  made : ∃ k, Flagged.Obtainable (fun _ => True) (fun _ => True) (.str k s.raw)
  isSecret : s.raw.isSecret = false
  valid : Valid s.raw.value

theorem Str.Public.plain {T : StringType} {s : Str T} (h : s.Public) : s.raw.Plain := by
  obtain ⟨k, hk⟩ := h.made
  exact ⟨h.isSecret, fun hinvalid => Flagged.notMistaken_of_obtainable hk hinvalid h.valid, h.valid⟩

theorem Str.public_fromStr (k : Flagged.Kind) (value : String)
    (h : k.type.findInvalid (strBytes value) = none) : (⟨.fromStr value, h⟩ : Str k.type).Public where
  made := ⟨k, .fromStr k value h⟩
  isSecret := rfl
  valid := valid_toByteArray value

/-- No string of the tags is secret, and all are UTF-8. -/
def Tags.Public (t : Tags) : Prop := ∀ p ∈ t.pairs.vec, p.1.Public ∧ p.2.Public

/-- No argument is secret, and all are UTF-8. -/
def Args.Public (args : Args) : Prop :=
  (∀ w ∈ args.words, w.Public) ∧ ∀ l ∈ args.long, l.Public

/-- No part of the source is secret, and all are UTF-8. -/
def Source.Public (s : Source) : Prop :=
  s.nick.Public ∧
    ∀ address ∈ s.userhost, (∀ user ∈ address.user, user.Public) ∧ address.host.Public

theorem Tags.Public.plain {t : Tags} (h : t.Public) : t.Plain :=
  fun p hp => ⟨(h p hp).1.plain, (h p hp).2.plain⟩

theorem Args.Public.plain {args : Args} (h : args.Public) : args.Plain :=
  ⟨fun w hw => (h.1 w hw).plain, fun l hl => (h.2 l hl).plain⟩

theorem Source.Public.plain {s : Source} (h : s.Public) : s.Plain :=
  ⟨h.1.plain, fun address ha =>
    ⟨fun user hu => ((h.2 address ha).1 user hu).plain, (h.2 address ha).2.plain⟩⟩

/-- **What logs show** of a message whose strings are not secret and are UTF-8 is what is written
for it, byte for byte. -/
theorem display_written :
    (∀ m : ClientMsg, m.tags.Public → m.cmd.Public → m.args.Public →
      m.display = m.toClientMsg.writeTo) ∧
    ∀ m : ServerMsg, m.tags.Public → (∀ src ∈ m.source, src.Public) → m.args.Public →
      m.display = m.toServerMsg.writeTo := by
  obtain ⟨hclient, hserver⟩ := display_eq_writeTo
  constructor
  · intro m htags hcmd hargs
    exact hclient m htags.plain hcmd.plain hargs.plain
  · intro m htags hsource hargs
    exact hserver m htags.plain (fun src hsrc => (hsource src hsrc).plain) hargs.plain

/-- Tags with and without a value, of which one has to be escaped. -/
def noteTags : Tags :=
  ⟨⟨[(⟨.fromStr "flag", by decide⟩, ⟨.fromStr "", by decide⟩),
    (⟨.fromStr "k", by decide⟩, ⟨.fromStr "a;b c", by decide⟩)]⟩⟩

/-- A target, and a text that is no word. -/
def noteArgs : Args where
  words := [⟨.fromStr "#c", by decide⟩]
  long := some ⟨.fromStr "hello there", by decide⟩
  long_isLong := by
    rintro line ⟨rfl⟩
    decide

/-- A message as it is sent. -/
def note : ClientMsg := ⟨noteTags, ⟨.fromStr "TOPIC", by decide⟩, noteArgs⟩

/-- The message as it is passed on. -/
def noteFrom : ServerMsg where
  tags := noteTags
  source := some ⟨⟨.fromStr "foo", by decide⟩,
    some ⟨some ⟨.fromStr "bar", by decide⟩, ⟨.fromStr "example", by decide⟩⟩⟩
  kind := .cmd ⟨text "TOPIC", by decide⟩
  args := noteArgs

omit [Base64.Engine] in
/-- `@flag;k=a\:b\sc :foo!bar@example TOPIC #c :hello there`, on its way to the server and back. -/
theorem display_written_note :
    note.display = note.toClientMsg.writeTo ∧ noteFrom.display = noteFrom.toServerMsg.writeTo ∧
      noteFrom.display = text "@flag;k=a\\:b\\sc :foo!bar@example TOPIC #c :hello there" := by
  let _ : Base64.Engine := Base64.standardEngine
  have htags : noteTags.Public := by
    intro p hp
    rcases List.mem_pair.mp hp with rfl | rfl
    · exact ⟨Str.public_fromStr .key "flag" (by decide), Str.public_fromStr .noNul "" (by decide)⟩
    · exact ⟨Str.public_fromStr .key "k" (by decide), Str.public_fromStr .noNul "a;b c" (by decide)⟩
  have hargs : noteArgs.Public := by
    constructor
    · intro w hw
      rw [List.mem_singleton.mp hw]
      exact Str.public_fromStr .arg "#c" (by decide)
    · rintro l ⟨rfl⟩
      exact Str.public_fromStr .line "hello there" (by decide)
  have hsource : ∀ src ∈ noteFrom.source, src.Public := by
    rintro src ⟨rfl⟩
    refine ⟨Str.public_fromStr .nick "foo" (by decide), ?_⟩
    rintro address ⟨rfl⟩
    refine ⟨?_, Str.public_fromStr .word "example" (by decide)⟩
    rintro user ⟨rfl⟩
    exact Str.public_fromStr .user "bar" (by decide)
  obtain ⟨hclient, hserver⟩ := display_written
  exact ⟨hclient note htags (Str.public_fromStr .cmd "TOPIC" (by decide)) hargs,
    hserver noteFrom htags hsource hargs, by decide +kernel⟩

end Marked

end Vinezombie
