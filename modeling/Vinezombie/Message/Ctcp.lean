import Vinezombie.Message.Kind
import Vinezombie.Strings.Splitter

/-!
# CTCP messages

`ircmsg/ctcp.rs`.  The text of a message is a CTCP message if it begins with the delimiter 0x01;
then a command follows, a space and a body, up to another delimiter or the end.

* `MaybeCtcp.parse_of_delim`: what is parsed behind a delimiter.
* `MaybeCtcp.parse_intoLine`: what is parsed is written in a normal form, and parsed back from it.
* `MaybeCtcp.body_eq_iff`: the lines without a command that are kept as they are.
-/

namespace Vinezombie

open Library.Scan

/-! ## Parsing and writing -/

/-- The delimiter of CTCP messages. -/
def ctcpDelim : UInt8 := 1

/-- `MaybeCtcp`. -/
@[ext] structure MaybeCtcp (T : Type) where
  cmd : Word
  body : T
  deriving DecidableEq

/-- `try_push_char` of a `LineBuilder`, for an ASCII character. -/
def Line.tryPush (line : Line) (b : UInt8) : Line :=
  if h : isInvalidForLine true b = false then
    { bytes := line.bytes ++ [b]
      valid := StringType.line.findInvalid_eq_none_iff.mpr ⟨rfl, fun c hc => by
        rcases List.mem_append.mp hc with hc | hc
        · exact line.isInvalid_eq_false hc
        · rwa [List.mem_singleton.mp hc]⟩ }
  else line

/-- `append` of a `LineBuilder`. -/
def Line.appendStr {T : StringType} [Str.Conv T .line] (line : Line) (string : Str T) : Line where
  bytes := line.bytes ++ string.bytes
  valid := StringType.line.findInvalid_eq_none_iff.mpr ⟨rfl, fun c hc => by
    rcases List.mem_append.mp hc with hc | hc
    · exact line.isInvalid_eq_false hc
    · exact Str.Conv.byte_valid (T := T) c (string.isInvalid_eq_false hc)⟩

theorem Line.bytes_appendStr {T : StringType} [Str.Conv T .line] (line : Line) (string : Str T) :
    (Line.appendStr line string).bytes = line.bytes ++ string.bytes := rfl

namespace MaybeCtcp

/-- `parse`. -/
def parse (value : Line) : MaybeCtcp Line :=
  let splitter := Splitter.new value
  if splitter.nextByte.1 = some ctcpDelim then
    let splitter := splitter.nextByte.2.untilByteEq ctcpDelim
    let (cmd, splitter) := splitter.stringOrDefault .word false
    let cmd := Word.toUppercase cmd
    let (_, splitter) := splitter.nextByte
    let (body, _) := splitter.restOrDefault .line
    ⟨cmd, body⟩
  else ⟨.empty, value⟩

/-- `is_ctcp`. -/
def isCtcp {T : Type} (c : MaybeCtcp T) : Bool := !c.cmd.bytes.isEmpty

/-- `into_line`. -/
def intoLine (c : MaybeCtcp Line) : Line :=
  if c.isCtcp then
    let builder := Line.tryPush .empty ctcpDelim
    let builder := Line.appendStr builder c.cmd
    let builder := Line.tryPush builder (byte ' ')
    let builder := Line.appendStr builder c.body
    Line.tryPush builder ctcpDelim
  else c.body

/-- `len`. -/
def len (c : MaybeCtcp Line) : ℕ :=
  if c.cmd.bytes.isEmpty then c.body.bytes.length else c.cmd.bytes.length + 3 + c.body.bytes.length

/-! ## What is parsed -/

/-- A line without a leading delimiter is taken as it is. -/
theorem parse_of_ne {value : Line} (h : value.bytes.head? ≠ some ctcpDelim) :
    parse value = ⟨.empty, value⟩ := by
  refine if_neg ?_
  rwa [Splitter.nextByte_fst, Splitter.asSlice_new]

/-- What stands between the delimiters. -/
def inside (rest : List UInt8) : List UInt8 := rest.takeWhile fun b => !(b == ctcpDelim)

theorem inside_append {l rest : List UInt8} (h : ∀ b ∈ l, b ≠ ctcpDelim) :
    inside (l ++ ctcpDelim :: rest) = l :=
  takeWhile_append_of_stop (by simpa using h) (by simp)

/-- **Behind a delimiter** there are the command, in upper case, and the body. -/
theorem parse_of_delim {value : Line} {rest : List UInt8}
    (h : value.bytes = ctcpDelim :: rest) :
    (parse value).cmd.bytes =
        (Splitter.validPrefix .word (inside rest)).map toAsciiUppercase ∧
      (parse value).body.bytes = (Splitter.afterPrefix .word (inside rest)).tail := by
  have hnext := Splitter.nextByte_of_cons
    (s := Splitter.new value) (show (Splitter.new value).asSlice = _ from
      (Splitter.asSlice_new value).trans h)
  have hslice : (((Splitter.new value).advance 1).untilByteEq ctcpDelim).asSlice = inside rest := by
    rw [Splitter.asSlice_untilByteEq, Splitter.asSlice_advance, Splitter.asSlice_new, h]
    rfl
  obtain ⟨cmd, hcmd, hstring⟩ := Splitter.stringOrDefault_eq
    (s := ((Splitter.new value).advance 1).untilByteEq ctcpDelim) (U := .word) rfl
  rw [hslice] at hcmd
  obtain ⟨body, hbody, hrest⟩ := Splitter.restOrDefault_eq (U := .line)
    (s := ((((Splitter.new value).advance 1).untilByteEq ctcpDelim).advance
      cmd.bytes.length).nextByte.2) rfl
  rw [Splitter.asSlice_nextByte, hcmd, ← hslice, Splitter.asSlice_advance_validPrefix, hslice]
    at hbody
  have hparse : parse value = ⟨Word.toUppercase cmd, body⟩ := by
    unfold parse
    dsimp only
    rw [hnext, if_pos rfl, hstring]
    dsimp only
    rw [hrest]
  rw [hparse]
  exact ⟨congrArg _ hcmd, hbody⟩

/-! ## The normal form -/

theorem toAsciiUppercase_idem (b : UInt8) :
    toAsciiUppercase (toAsciiUppercase b) = toAsciiUppercase b := by
  by_cases hlower : isAsciiLowercase b = true
  · have halpha : isAsciiAlphabetic b = true := by rw [isAsciiAlphabetic, hlower, Bool.or_true]
    exact toAsciiUppercase_of_isAsciiUppercase (isAsciiUppercase_toAsciiUppercase halpha)
  · have hsame : toAsciiUppercase b = b := by rw [toAsciiUppercase, if_neg hlower]
    rw [hsame, hsame]

theorem toAsciiUppercase_ne_delim {b : UInt8} (h : b ≠ ctcpDelim) :
    toAsciiUppercase b ≠ ctcpDelim := by
  by_cases hlower : isAsciiLowercase b = true
  · have halpha : isAsciiAlphabetic b = true := by rw [isAsciiAlphabetic, hlower, Bool.or_true]
    have hupper := isAsciiUppercase_toAsciiUppercase halpha
    intro hdelim
    rw [hdelim] at hupper
    exact absurd hupper (by decide)
  · rwa [toAsciiUppercase, if_neg hlower]

/-- A message in normal form: the command is in upper case, and there is no delimiter in it or in
its body. -/
structure Normal (c : MaybeCtcp Line) : Prop where
  upper : c.cmd.bytes.map toAsciiUppercase = c.cmd.bytes
  cmd_ne : ∀ b ∈ c.cmd.bytes, b ≠ ctcpDelim
  body_ne : ∀ b ∈ c.body.bytes, b ≠ ctcpDelim

/-- **What is parsed** is in normal form, or is a line without a leading delimiter. -/
theorem parse_cases (value : Line) :
    value.bytes.head? ≠ some ctcpDelim ∧ parse value = ⟨.empty, value⟩ ∨
      value.bytes.head? = some ctcpDelim ∧ (parse value).Normal := by
  by_cases hhead : value.bytes.head? = some ctcpDelim
  · obtain ⟨rest, hrest⟩ : ∃ rest, value.bytes = ctcpDelim :: rest :=
      ⟨_, List.eq_cons_of_mem_head? hhead⟩
    obtain ⟨hcmd, hbody⟩ := parse_of_delim hrest
    have hinside : ∀ b ∈ inside rest, b ≠ ctcpDelim := fun b hb => by
      simpa using List.mem_takeWhile_imp hb
    refine .inr ⟨hhead, ?_, ?_, ?_⟩
    · rw [hcmd, List.map_map]
      exact List.map_congr_left fun b _ => toAsciiUppercase_idem b
    · rw [hcmd]
      intro b hb
      obtain ⟨c, hc, rfl⟩ := List.mem_map.mp hb
      exact toAsciiUppercase_ne_delim (hinside c ((List.takeWhile_sublist _).subset hc))
    · rw [hbody]
      intro b hb
      exact hinside b ((List.dropWhile_sublist _).subset (List.mem_of_mem_tail hb))
  · exact .inl ⟨hhead, parse_of_ne hhead⟩

/-- How a message with a command is written. -/
theorem bytes_intoLine {c : MaybeCtcp Line} (h : c.cmd.bytes ≠ []) :
    c.intoLine.bytes = ctcpDelim :: (c.cmd.bytes ++ byte ' ' :: c.body.bytes ++ [ctcpDelim]) := by
  have hpush : ∀ (line : Line) (b : UInt8), isInvalidForLine true b = false →
      (Line.tryPush line b).bytes = line.bytes ++ [b] := by
    intro line b hb
    rw [Line.tryPush, dif_pos hb]
  have hctcp : c.isCtcp = true := by simpa [isCtcp] using h
  rw [intoLine, if_pos hctcp, hpush _ _ (by decide), Line.bytes_appendStr, hpush _ _ (by decide),
    Line.bytes_appendStr, hpush _ _ (by decide)]
  simp [Str.empty]

/-- How a message without a command is written. -/
theorem intoLine_of_nil {c : MaybeCtcp Line} (h : c.cmd.bytes = []) : c.intoLine = c.body := by
  rw [intoLine, isCtcp, h]
  rfl

theorem length_intoLine (c : MaybeCtcp Line) : c.intoLine.bytes.length = c.len := by
  by_cases hnil : c.cmd.bytes = []
  · rw [intoLine_of_nil hnil, len, hnil]
    rfl
  · rw [bytes_intoLine hnil, len, if_neg (by simpa using hnil)]
    simp only [List.length_cons, List.length_append, List.length_nil]
    omega

/-- A message in normal form is parsed back. -/
theorem Normal.parse_written {c : MaybeCtcp Line} (h : c.Normal) : parse c.intoLine = c := by
  by_cases hnil : c.cmd.bytes = []
  · have hhead : c.body.bytes.head? ≠ some ctcpDelim := fun hhead =>
      h.body_ne _ (List.mem_of_mem_head? hhead) rfl
    rw [intoLine_of_nil hnil, parse_of_ne hhead]
    exact MaybeCtcp.ext (Str.ext hnil.symm) rfl
  · have hspace : ∀ b ∈ (byte ' ' :: c.body.bytes).head?, StringType.word.isInvalid b = true := by
      rintro b ⟨rfl⟩
      decide
    have hvalid : ∀ b ∈ c.cmd.bytes, StringType.word.isInvalid b = false := fun b hb =>
      c.cmd.isInvalid_eq_false hb
    have hinside : inside (c.cmd.bytes ++ byte ' ' :: c.body.bytes ++ [ctcpDelim]) =
        c.cmd.bytes ++ byte ' ' :: c.body.bytes := by
      refine inside_append fun b hb => ?_
      rcases List.mem_append.mp hb with hb | hb
      · exact h.cmd_ne b hb
      · rcases List.mem_cons.mp hb with rfl | hb
        · decide
        · exact h.body_ne b hb
    obtain ⟨hcmd, hbody⟩ := parse_of_delim (bytes_intoLine hnil)
    rw [hinside, Splitter.validPrefix_append hvalid hspace, h.upper] at hcmd
    rw [hinside, Splitter.afterPrefix_append hvalid hspace, List.tail_cons] at hbody
    exact MaybeCtcp.ext (Str.ext hcmd) (Str.ext hbody)

/-- **The normal form**: what is parsed from a line is written with the length that `len` says, and
is the same when it is parsed again.  And it is the line, or the command in upper case and the body
that stand behind the delimiter. -/
theorem parse_intoLine (l : Line) :
    (parse l).intoLine.bytes.length = (parse l).len ∧ parse (parse l).intoLine = parse l ∧
      (l.bytes.head? ≠ some ctcpDelim → parse l = ⟨.empty, l⟩) ∧
      ∀ rest, l.bytes = ctcpDelim :: rest →
        (parse l).cmd.bytes = (Splitter.validPrefix .word (inside rest)).map toAsciiUppercase ∧
          (parse l).body.bytes = (Splitter.afterPrefix .word (inside rest)).tail := by
  refine ⟨length_intoLine _, ?_, parse_of_ne, fun rest => parse_of_delim⟩
  rcases parse_cases l with ⟨-, hparse⟩ | ⟨-, hnormal⟩
  · rw [hparse, intoLine_of_nil rfl, hparse]
  · exact hnormal.parse_written

/-! ## Lines without a command -/

/-- Which lines with a leading delimiter have no command. -/
theorem cmd_eq_nil_iff {value : Line} {rest : List UInt8} (h : value.bytes = ctcpDelim :: rest) :
    (parse value).cmd.bytes = [] ↔ ∀ b ∈ rest.head?, b = byte ' ' ∨ b = ctcpDelim := by
  rw [(parse_of_delim h).1, List.map_eq_nil_iff]
  cases rest with
  | nil => exact iff_of_true rfl (by simp)
  | cons b rest =>
    have hline : isInvalidForLine true b = false :=
      value.isInvalid_eq_false (show b ∈ value.bytes by rw [h]; simp)
    have hone : (∀ c ∈ (b :: rest).head?, c = byte ' ' ∨ c = ctcpDelim) ↔
        b = byte ' ' ∨ b = ctcpDelim := by simp
    rw [hone]
    by_cases hdelim : b = ctcpDelim
    · rw [inside, hdelim, List.takeWhile_cons_of_neg (by simp)]
      exact iff_of_true rfl (.inr rfl)
    · rw [inside, List.takeWhile_cons_of_pos (by simpa using hdelim), Splitter.validPrefix]
      by_cases hspace : b = byte ' '
      · rw [hspace, List.takeWhile_cons_of_neg (by decide)]
        exact iff_of_true rfl (.inl rfl)
      · have hword : StringType.word.isInvalid b = false :=
          isInvalidForWord_eq_false.mpr ⟨hspace, isInvalidForLine_eq_false.mp hline⟩
        rw [List.takeWhile_cons_of_pos (by simpa using hword)]
        exact iff_of_false (List.cons_ne_nil _ _) (not_or.mpr ⟨hspace, hdelim⟩)

/-- **A line without a command is kept as it is**, unless it begins with a delimiter that is
followed by a space, another delimiter, or nothing. -/
theorem body_eq_iff (l : Line) :
    ((parse l).cmd.bytes = [] → (parse l).body = l ∧ (parse l).intoLine = l) ↔
      ¬(l.bytes.head? = some ctcpDelim ∧
        ∀ b ∈ l.bytes.tail.head?, b = byte ' ' ∨ b = ctcpDelim) := by
  rcases parse_cases l with ⟨hhead, hparse⟩ | ⟨hhead, hnormal⟩
  · refine iff_of_true (fun _ => ?_) fun h => hhead h.1
    rw [hparse]
    exact ⟨rfl, intoLine_of_nil rfl⟩
  · obtain ⟨rest, hrest⟩ : ∃ rest, l.bytes = ctcpDelim :: rest :=
      ⟨_, List.eq_cons_of_mem_head? hhead⟩
    have hbody : (parse l).body ≠ l := fun heq =>
      hnormal.body_ne ctcpDelim (by rw [heq, hrest]; exact List.mem_cons_self) rfl
    rw [← cmd_eq_nil_iff (show l.bytes = ctcpDelim :: l.bytes.tail by rw [hrest]; rfl)]
    constructor
    · rintro h ⟨-, hcmd⟩
      exact hbody (h hcmd).1
    · intro h hcmd
      exact absurd ⟨hhead, hcmd⟩ h

/-- The delimiter is dropped, and the space behind it. -/
theorem body_ne_space_foo :
    ¬((parse (.fromStr "\x01 foo")).cmd.bytes = [] →
      (parse (.fromStr "\x01 foo")).body = .fromStr "\x01 foo" ∧
        (parse (.fromStr "\x01 foo")).intoLine = .fromStr "\x01 foo") := by
  intro h
  have hcmd : (parse (.fromStr "\x01 foo")).cmd.bytes = [] := by decide +kernel
  exact absurd (h hcmd).1 (by decide +kernel)

end MaybeCtcp

end Vinezombie
