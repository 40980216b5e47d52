import Vinezombie.Message.Framing

/-!
# The space that is left in a message

`bytes_left` counts the bytes of a message part by part, without writing it.  It is pessimistic: a
server may relay a message with a colon before its last argument, whether or not that is needed, and
the colon is always counted.

* `length_writeTo_add`: what `len_bytes` counts against what is written.
* `bytesLeft_spec`: `bytes_left` against `write_to`, and against the line that is relayed.
-/

namespace Vinezombie

/-- `ServerMsg::bytes_left`. -/
def ServerMsg.bytesLeft (msg : ServerMsg) : ℤ :=
  Codec.bytesLeft msg.kind.asBytes (msg.source.map Source.len) msg.args

namespace Args

/-- The colon that `write_to` does not write before a last argument that is a word. -/
def colonLeftOut (args : Args) : ℕ :=
  if args.splitLast.2.isSome && !args.isLastLong then 1 else 0

/-- The arguments with a colon before the last one. -/
def writeWithColon (args : Args) : List UInt8 :=
  (args.splitLast.1.flatMap fun word => text " " ++ word.bytes) ++
    (args.splitLast.2.elim [] fun last => text " :" ++ last.bytes)

theorem length_flatMap_words (words : List Arg) :
    (words.flatMap fun word => text " " ++ word.bytes).length =
      (words.map fun word => word.bytes.length + 1).sum := by
  rw [List.length_flatMap]
  refine congrArg List.sum (List.map_congr_left fun word _ => ?_)
  rw [List.length_append, Nat.add_comm]
  rfl

/-- **What `len_bytes` counts**: the arguments as they are written, with the colon. -/
theorem length_writeTo_add (args : Args) :
    args.writeTo.length + args.colonLeftOut = if args.isEmpty then 0 else args.lenBytes + 1 := by
  obtain ⟨words, long, hlong⟩ := args
  cases long with
  | some long =>
    simp only [writeTo, colonLeftOut, splitLast, isLastLong, isEmpty, lenBytes, Option.isSome_some,
      Option.isNone_some, Bool.and_false, Bool.not_true, Bool.false_eq_true, if_false, if_true,
      List.length_append, length_flatMap_words]
    have hcolon : (text " :").length = 2 := rfl
    omega
  | none =>
    rcases List.eq_nil_or_concat' words with rfl | ⟨front, last, rfl⟩
    · rfl
    · have hspace : (text " ").length = 1 := rfl
      have hempty : (front ++ [last]).isEmpty = false := by simp
      simp only [writeTo, colonLeftOut, splitLast, isLastLong, isEmpty, lenBytes,
        List.getLast?_concat, List.dropLast_concat, Option.isSome_some, Option.isSome_none,
        Option.isNone_none, hempty, Bool.not_false, Bool.and_true, Bool.false_eq_true, if_false,
        if_true, List.length_append, length_flatMap_words, List.map_append, List.map_singleton,
        List.sum_append, List.sum_singleton, hspace, toLine]
      omega

/-- The colon is one byte. -/
theorem length_writeWithColon (args : Args) :
    args.writeWithColon.length = args.writeTo.length + args.colonLeftOut := by
  have hspace : (text " ").length = 1 := rfl
  have hcolon : (text " :").length = 2 := rfl
  unfold writeWithColon writeTo colonLeftOut
  cases args.splitLast.2 with
  | none => simp
  | some last =>
    cases args.isLastLong with
    | true => simp
    | false =>
      simp only [Option.elim_some, Option.isSome_some, Bool.not_false, Bool.and_self,
        Bool.false_eq_true, if_false, if_true, List.length_append, hspace, hcolon]
      omega

end Args

namespace Codec

/-- The line that is relayed: without tags, and with a colon before the last argument. -/
def relayed (source : Option Source) (kind : List UInt8) (args : Args) : List UInt8 :=
  sourceText source ++ kind ++ args.writeWithColon ++ text "\r\n"

theorem length_sourceText (source : Option Source) :
    (sourceText source).length = ((source.map Source.len).map (2 + ·)).getD 0 := by
  cases source with
  | none => rfl
  | some source =>
    have hcolon : (text ":").length = 1 := rfl
    have hspace : (text " ").length = 1 := rfl
    simp only [sourceText, List.length_append, source.length_writeTo, hcolon, hspace,
      Option.map_some, Option.getD_some]
    omega

/-- **What `bytes_left` computes.** -/
theorem bytesLeft_eq (kind : List UInt8) (source : Option Source) (args : Args) :
    bytesLeft kind (source.map Source.len) args =
      510 - (min ((sourceText source ++ kind ++ args.writeTo).length + args.colonLeftOut)
        isizeMax : ℕ) := by
  have hargs := args.length_writeTo_add
  have hsource := length_sourceText source
  have hsize : (sourceText source ++ kind ++ args.writeTo).length + args.colonLeftOut =
      kind.length + ((source.map Source.len).map (2 + ·)).getD 0 +
        if args.isEmpty then 0 else args.lenBytes + 1 := by
    rw [List.length_append, List.length_append]
    omega
  rw [hsize]
  cases source with
  | none => rfl
  | some source => rfl

/-- **The room that is left** is room for the line that is relayed. -/
theorem length_relayed_le {kind : List UInt8} {source : Option Source} {args : Args}
    (h : 0 ≤ bytesLeft kind (source.map Source.len) args) :
    (relayed source kind args).length ≤ 512 := by
  have hmax : 512 < isizeMax := by decide
  have hcrlf : (text "\r\n").length = 2 := rfl
  have hrelayed : (relayed source kind args).length =
      (sourceText source ++ kind ++ args.writeTo).length + args.colonLeftOut + 2 := by
    simp only [relayed, List.length_append, args.length_writeWithColon, hcrlf]
    omega
  rw [bytesLeft_eq] at h
  omega

end Codec

/-- What is written for a server message without its tags. -/
theorem ServerMsg.writeTo_untagged (msg : ServerMsg) :
    { msg with tags := Tags.new }.writeTo =
      Codec.sourceText msg.source ++ msg.kind.asBytes ++ msg.args.writeTo := by
  obtain ⟨tags, source, kind, args⟩ := msg
  cases source with
  | none => rfl
  | some source =>
    have hempty : Tags.new.isEmpty = true := rfl
    simp [writeTo, Codec.writeTo, Codec.sourceText, hempty]

theorem ClientMsg.writeTo_untagged (msg : ClientMsg) :
    { msg with tags := Tags.new }.writeTo = msg.cmd.bytes ++ msg.args.writeTo := rfl

/-- **The space that is left in a message.**  Where the size fits, the bytes that are not left are
those that are written without the tags, behind the source where one is given, and one more for the
colon of a last argument that is written without it.  If the space is not negative, the line that is
relayed with that colon fits into a line with its newline. -/
theorem Codec.bytesLeft_spec :
    (∀ msg : ServerMsg,
      { msg with tags := Tags.new }.writeTo.length + msg.args.colonLeftOut ≤ isizeMax →
        510 - msg.bytesLeft =
          ({ msg with tags := Tags.new }.writeTo.length + msg.args.colonLeftOut : ℕ)) ∧
    (∀ (msg : ClientMsg) (source : Option Source),
      (sourceText source ++ { msg with tags := Tags.new }.writeTo).length +
        msg.args.colonLeftOut ≤ isizeMax →
      510 - msg.bytesLeft source =
        ((sourceText source ++ { msg with tags := Tags.new }.writeTo).length +
          msg.args.colonLeftOut : ℕ)) ∧
    (∀ msg : ServerMsg, 0 ≤ msg.bytesLeft →
      (relayed msg.source msg.kind.asBytes msg.args).length ≤ 512) ∧
    ∀ (msg : ClientMsg) (source : Option Source), 0 ≤ msg.bytesLeft source →
      (relayed source msg.cmd.bytes msg.args).length ≤ 512 := by
  refine ⟨fun msg h => ?_, fun msg source h => ?_, fun msg => length_relayed_le,
    fun msg source => length_relayed_le⟩
  · rw [ServerMsg.writeTo_untagged] at h ⊢
    rw [ServerMsg.bytesLeft, bytesLeft_eq, Nat.min_eq_left h]
    omega
  · rw [ClientMsg.writeTo_untagged, ← List.append_assoc] at h ⊢
    rw [ClientMsg.bytesLeft, bytesLeft_eq, Nat.min_eq_left h]
    omega

end Vinezombie
