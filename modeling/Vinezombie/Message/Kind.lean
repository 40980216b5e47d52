import Vinezombie.Strings.Newtypes

/-!
# Message kinds

`ircmsg/numeric.rs`, `ircmsg/servermsgkind.rs` and `Cmd::from_word`: a server message is of a kind
that is a command or a numeric reply, and both are read from one word.

* `Cmd.fromWordCorrect_iff`: the words that `Cmd::from_word` handles as it ought to.
* `parseKind`: the closure that `ServerMsg::parse` gives to the message parser, and
  `parseKind_asBytes`, that it reads every kind back from its text.
-/

namespace Vinezombie

/-- `error::ParseError`.  The error inside `InvalidField` is given by its text, in which the bytes
of a message stand for what the source prints of them. -/
inductive ParseError where
  | tooLong
  | missingField (name : String)
  | invalidField (name : String) (error : List UInt8)
  | invalidLine (e : InvalidString)
  | invalidNick (e : InvalidString)
  | invalidUser (e : InvalidString)
  | invalidHost (e : InvalidString)
  | invalidKind (e : InvalidString)
  deriving DecidableEq, Repr

/-! ## Numerics -/

/-- `Numeric`: three ASCII digits. -/
@[ext] structure Numeric where
  bytes : List UInt8
  valid : bytes.length = 3 ∧ bytes.all isAsciiDigit = true
  deriving DecidableEq

namespace Numeric

/-- `Numeric::from_bytes`. -/
def fromBytes (bytes : List UInt8) : Option Numeric :=
  if h : bytes.length = 3 ∧ bytes.all isAsciiDigit = true then some ⟨bytes, h⟩ else none

/-- The value of a digit. -/
def digit (b : UInt8) : ℕ := b.toNat - (byte '0').toNat

/-- `into_int`: the digits as a decimal number. -/
def intoInt (n : Numeric) : ℕ := n.bytes.foldl (fun acc b => acc * 10 + digit b) 0

/-- `is_error`. -/
def isError (n : Numeric) : Option Bool :=
  if n.intoInt < 400 then some false
  else if n.intoInt < 569 then some true
  else if n.intoInt ∈ [670, 671, 704, 705, 706, 740, 741, 900, 901, 903, 908] then some false
  else if n.intoInt ∈ [691, 696, 723, 902, 904, 905, 906, 907] then some true
  else none

theorem fromBytes_bytes (n : Numeric) : fromBytes n.bytes = some n := by
  rw [fromBytes, dif_pos n.valid]

end Numeric

/-! ## Commands -/

theorem isAsciiUppercase_iff {b : UInt8} :
    isAsciiUppercase b = true ↔ 65 ≤ b.toNat ∧ b.toNat ≤ 90 := by
  simp [isAsciiUppercase, UInt8.le_iff_toNat_le, byte]

theorem isAsciiLowercase_iff {b : UInt8} :
    isAsciiLowercase b = true ↔ 97 ≤ b.toNat ∧ b.toNat ≤ 122 := by
  simp [isAsciiLowercase, UInt8.le_iff_toNat_le, byte]

theorem isAsciiDigit_iff {b : UInt8} : isAsciiDigit b = true ↔ 48 ≤ b.toNat ∧ b.toNat ≤ 57 := by
  simp [isAsciiDigit, UInt8.le_iff_toNat_le, byte]

theorem isAsciiUppercase_toAsciiUppercase {b : UInt8} (h : isAsciiAlphabetic b = true) :
    isAsciiUppercase (toAsciiUppercase b) = true := by
  unfold toAsciiUppercase
  split
  · rename_i hlower
    rw [isAsciiLowercase_iff] at hlower
    have hsub : (b - 32).toNat = b.toNat - 32 :=
      UInt8.toNat_sub_of_le b 32 (UInt8.le_iff_toNat_le.mpr (show 32 ≤ b.toNat by omega))
    rw [isAsciiUppercase_iff, hsub]
    omega
  · rename_i hlower
    rw [isAsciiAlphabetic, Bool.or_eq_true] at h
    exact h.resolve_right hlower

theorem isAsciiUppercase_toAsciiUppercase_iff {b : UInt8} :
    isAsciiUppercase (toAsciiUppercase b) = true ↔ isAsciiAlphabetic b = true := by
  constructor
  · intro h
    by_cases hlower : isAsciiLowercase b = true
    · rw [isAsciiAlphabetic, hlower, Bool.or_true]
    · rw [toAsciiUppercase, if_neg hlower] at h
      rw [isAsciiAlphabetic, h, Bool.true_or]
  · exact isAsciiUppercase_toAsciiUppercase

theorem toAsciiUppercase_of_isAsciiUppercase {b : UInt8} (h : isAsciiUppercase b = true) :
    toAsciiUppercase b = b := by
  rw [toAsciiUppercase, if_neg]
  rw [isAsciiUppercase_iff] at h
  rw [isAsciiLowercase_iff]
  omega

/-- Uppercasing keeps a word a word. -/
theorem isInvalidForWord_toAsciiUppercase {b : UInt8} (h : isInvalidForWord true b = false) :
    isInvalidForWord true (toAsciiUppercase b) = false := by
  by_cases hlower : isAsciiLowercase b = true
  · have halpha : isAsciiAlphabetic b = true := by rw [isAsciiAlphabetic, hlower, Bool.or_true]
    exact isInvalidForWord_of_class (isAsciiUppercase_toAsciiUppercase halpha) rfl
  · rw [toAsciiUppercase, if_neg hlower]
    exact h

/-- `transform` of a word with the uppercasing casemap. -/
def Word.toUppercase (word : Word) : Word where
  bytes := word.bytes.map toAsciiUppercase
  valid := StringType.word.findInvalid_eq_none_iff.mpr ⟨rfl, by
    intro b hb
    obtain ⟨c, hc, rfl⟩ := List.mem_map.mp hb
    exact isInvalidForWord_toAsciiUppercase (word.isInvalid_eq_false hc)⟩

namespace Cmd

/-- `Cmd::from_word`, with the bytes that the source then declares to be a command.  The casemap of
`word.transform` maps each byte. -/
def fromWordUnchecked (word : Word) : Except InvalidString (List UInt8) :=
  match word.bytes.find? fun b => !isAsciiAlphabetic b with
  | some inval => .error (.byte inval)
  | none => .ok (word.bytes.map toAsciiUppercase)

theorem isAsciiUppercase_of_mem {cmd : Cmd} {b : UInt8} (hb : b ∈ cmd.bytes) :
    isAsciiUppercase b = true := by
  have h : cmdByteCheck b = false := cmd.isInvalid_eq_false hb
  simpa [cmdByteCheck] using h

/-- `Cmd::from_word` accepts the words of letters, the empty one among them. -/
theorem fromWordUnchecked_eq_ok_iff {word : Word} {bytes : List UInt8} :
    fromWordUnchecked word = .ok bytes ↔
      (∀ b ∈ word.bytes, isAsciiAlphabetic b = true) ∧ bytes = word.bytes.map toAsciiUppercase := by
  unfold fromWordUnchecked
  cases hf : word.bytes.find? fun b => !isAsciiAlphabetic b with
  | some inval =>
    refine iff_of_false (by simp) fun h => ?_
    have hinval := List.find?_some hf
    rw [h.1 inval (List.mem_of_find?_eq_some hf)] at hinval
    exact absurd hinval (by simp)
  | none =>
    have halpha : ∀ b ∈ word.bytes, isAsciiAlphabetic b = true := by
      simpa using List.find?_eq_none.mp hf
    rw [Except.ok.injEq, eq_comm]
    exact ⟨fun h => ⟨halpha, h⟩, fun h => h.2⟩

/-- `Cmd::from_bytes` accepts the uppercased words of letters that are not empty. -/
theorem findInvalid_map_toAsciiUppercase_iff {bytes : List UInt8} :
    StringType.cmd.findInvalid (bytes.map toAsciiUppercase) = none ↔
      bytes ≠ [] ∧ ∀ b ∈ bytes, isAsciiAlphabetic b = true := by
  have hbyte : ∀ b, StringType.cmd.isInvalid (toAsciiUppercase b) = false ↔
      isAsciiAlphabetic b = true := by
    intro b
    show cmdByteCheck (toAsciiUppercase b) = false ↔ _
    rw [cmdByteCheck, Bool.not_eq_false', isAsciiUppercase_toAsciiUppercase_iff]
  have hfirst : StringType.cmd.checkOthers = argFirstCheck := rfl
  rw [StringType.findInvalid_eq_none_iff, hfirst, argFirstCheck_eq_none_iff]
  constructor
  · rintro ⟨⟨c, rest, hc, -⟩, hall⟩
    refine ⟨fun hnil => ?_, fun b hb => (hbyte b).mp (hall _ (List.mem_map_of_mem hb))⟩
    rw [hnil] at hc
    exact absurd hc (by simp)
  · rintro ⟨hne, halpha⟩
    have hall : ∀ c ∈ bytes.map toAsciiUppercase, StringType.cmd.isInvalid c = false := by
      intro c hc
      obtain ⟨b, hb, rfl⟩ := List.mem_map.mp hc
      exact (hbyte b).mpr (halpha b hb)
    obtain ⟨b, rest, hb⟩ := List.exists_cons_of_ne_nil hne
    refine ⟨⟨_, _, by rw [hb, List.map_cons], ?_⟩, hall⟩
    intro hcolon
    have hinvalid := hall (toAsciiUppercase b) (by rw [hb]; exact List.mem_cons_self)
    rw [hcolon] at hinvalid
    exact absurd hinvalid (by decide)

theorem fromWordUnchecked_valid {word : Word} (hne : word.bytes ≠ []) {bytes : List UInt8}
    (h : fromWordUnchecked word = .ok bytes) : StringType.cmd.findInvalid bytes = none := by
  obtain ⟨halpha, rfl⟩ := fromWordUnchecked_eq_ok_iff.mp h
  exact findInvalid_map_toAsciiUppercase_iff.mpr ⟨hne, halpha⟩

/-- What `Cmd::from_word` ought to do with a word: accept it if it is a word of letters that is not
empty, return it uppercased and as a command, and accept what `Cmd::from_bytes` accepts once it is
uppercased. -/
def FromWordCorrect (word : Word) : Prop :=
  ((∃ bytes, fromWordUnchecked word = .ok bytes) ↔
    word.bytes ≠ [] ∧ ∀ b ∈ word.bytes, isAsciiAlphabetic b = true) ∧
  (∀ bytes, fromWordUnchecked word = .ok bytes →
    bytes = word.bytes.map toAsciiUppercase ∧ ∃ cmd, Str.fromBytes .cmd bytes = .ok cmd) ∧
  ((∃ bytes, fromWordUnchecked word = .ok bytes) ↔
    ∃ cmd, Str.fromBytes .cmd (word.bytes.map toAsciiUppercase) = .ok cmd)

/-- **Commands from words.**  `Cmd::from_word` does what it ought to with every word but the empty
one, which it takes for a command. -/
theorem fromWordCorrect_iff (word : Word) : FromWordCorrect word ↔ word.bytes ≠ [] := by
  have hcmd : (∃ cmd, Str.fromBytes .cmd (word.bytes.map toAsciiUppercase) = .ok cmd) ↔
      word.bytes ≠ [] ∧ ∀ b ∈ word.bytes, isAsciiAlphabetic b = true := by
    rw [← findInvalid_map_toAsciiUppercase_iff]
    constructor
    · rintro ⟨cmd, h⟩
      rw [← Str.fromBytes_eq_ok_iff.mp h]
      exact cmd.valid
    · exact fun h => ⟨⟨_, h⟩, Str.fromBytes_eq_ok_iff.mpr rfl⟩
  constructor
  · rintro ⟨haccepts, -, -⟩ hnil
    have hok : fromWordUnchecked word = .ok [] :=
      fromWordUnchecked_eq_ok_iff.mpr ⟨by simp [hnil], by simp [hnil]⟩
    exact (haccepts.mp ⟨[], hok⟩).1 hnil
  · intro hne
    have haccepts : (∃ bytes, fromWordUnchecked word = .ok bytes) ↔
        word.bytes ≠ [] ∧ ∀ b ∈ word.bytes, isAsciiAlphabetic b = true := by
      simp only [fromWordUnchecked_eq_ok_iff, exists_and_left, exists_eq, and_true, ne_eq, hne,
        not_false_eq_true, true_and]
    refine ⟨haccepts, fun bytes h => ?_, haccepts.trans hcmd.symm⟩
    obtain ⟨halpha, rfl⟩ := fromWordUnchecked_eq_ok_iff.mp h
    exact ⟨rfl, hcmd.mpr ⟨hne, halpha⟩⟩

/-- **The empty word** is no command, but is taken for one. -/
theorem not_fromWordCorrect_empty : ¬ FromWordCorrect .empty := by
  rintro ⟨haccepts, -, -⟩
  exact (haccepts.mp ⟨[], rfl⟩).1 rfl

/-- `Cmd::from_word` of a word that is not empty. -/
def fromWord (word : Word) (hne : word.bytes ≠ []) : Except InvalidString Cmd :=
  match h : fromWordUnchecked word with
  | .error e => .error e
  | .ok bytes => .ok ⟨bytes, fromWordUnchecked_valid hne h⟩

/-- A command is read back from its text. -/
theorem fromWord_of_bytes_eq {word : Word} (hne : word.bytes ≠ []) {cmd : Cmd}
    (h : word.bytes = cmd.bytes) : fromWord word hne = .ok cmd := by
  have hupper : ∀ b ∈ word.bytes, isAsciiUppercase b = true := fun b hb =>
    isAsciiUppercase_of_mem (h ▸ hb)
  have hok : fromWordUnchecked word = .ok cmd.bytes := by
    have hfind : (word.bytes.find? fun b => !isAsciiAlphabetic b) = none := by
      refine List.find?_eq_none.mpr fun b hb => ?_
      simp [isAsciiAlphabetic, hupper b hb]
    have hmap : word.bytes.map toAsciiUppercase = word.bytes.map id :=
      List.map_congr_left fun b hb => toAsciiUppercase_of_isAsciiUppercase (hupper b hb)
    rw [fromWordUnchecked, hfind, hmap, List.map_id, h]
  unfold fromWord
  split
  · rename_i e he
    rw [hok] at he
    exact absurd he (by simp)
  · rename_i bytes hb
    rw [hok, Except.ok.injEq] at hb
    exact congrArg Except.ok (Str.ext hb.symm)

end Cmd

/-! ## Kinds -/

/-- `ServerMsgKindRaw`. -/
inductive ServerMsgKindRaw where
  | numeric (n : Numeric)
  | cmd (c : Cmd)
  deriving DecidableEq

namespace ServerMsgKindRaw

/-- `as_str`, `as_arg` and `borrow`: the bytes of the kind. -/
def asBytes : ServerMsgKindRaw → List UInt8
  | .numeric n => n.bytes
  | .cmd c => c.bytes

/-- `is_error`. -/
def isError : ServerMsgKindRaw → Option Bool
  | .numeric n => n.isError
  | .cmd c =>
    if c.bytes = text "FAIL" then some true
    else if c.bytes = text "ERROR" then some true
    else some false

/-- The closure `parse_kind` of `ServerMsg::parse`. -/
def parseKind (kind : Word) (hne : kind.bytes ≠ []) : Except ParseError ServerMsgKindRaw :=
  match Numeric.fromBytes kind.bytes with
  | some num => .ok (.numeric num)
  | none =>
    match Cmd.fromWord kind hne with
    | .ok c => .ok (.cmd c)
    | .error e => .error (.invalidKind e)

theorem asBytes_alphanumeric {kind : ServerMsgKindRaw} {b : UInt8} (hb : b ∈ kind.asBytes) :
    isAsciiDigit b = true ∨ isAsciiUppercase b = true := by
  cases kind with
  | numeric n => exact .inl (List.all_eq_true.mp n.valid.2 b hb)
  | cmd c => exact .inr (Cmd.isAsciiUppercase_of_mem hb)

theorem asBytes_ne_nil (kind : ServerMsgKindRaw) : kind.asBytes ≠ [] := by
  cases kind with
  | numeric n =>
    intro h
    have hlen := n.valid.1
    rw [show n.bytes = [] from h] at hlen
    exact absurd hlen (by simp)
  | cmd c =>
    obtain ⟨b, rest, h, -⟩ := c.exists_eq_cons rfl
    exact fun hn => absurd (h.symm.trans hn) (by simp)

theorem isAsciiDigit_of_isAsciiUppercase {b : UInt8} (h : isAsciiUppercase b = true) :
    isAsciiDigit b = false := by
  rw [isAsciiUppercase_iff] at h
  rw [Bool.eq_false_iff, Ne, isAsciiDigit_iff]
  omega

/-- **A kind is read back from its text.** -/
theorem parseKind_asBytes {word : Word} (hne : word.bytes ≠ []) {kind : ServerMsgKindRaw}
    (h : word.bytes = kind.asBytes) : parseKind word hne = .ok kind := by
  cases kind with
  | numeric n =>
    have hn : Numeric.fromBytes word.bytes = some n := by
      rw [h]
      exact n.fromBytes_bytes
    rw [parseKind, hn]
  | cmd c =>
    have hbytes : word.bytes = c.bytes := h
    have hn : Numeric.fromBytes word.bytes = none := by
      rw [Numeric.fromBytes, dif_neg]
      rintro ⟨-, hall⟩
      obtain ⟨b, rest, hb, -⟩ := c.exists_eq_cons rfl
      have hmem : b ∈ c.bytes := by rw [hb]; exact List.mem_cons_self
      have hdigit := List.all_eq_true.mp hall b (hbytes ▸ hmem)
      rw [isAsciiDigit_of_isAsciiUppercase (Cmd.isAsciiUppercase_of_mem hmem)] at hdigit
      exact absurd hdigit (by simp)
    rw [parseKind, hn]
    simp only [Cmd.fromWord_of_bytes_eq hne hbytes]

end ServerMsgKindRaw

end Vinezombie
