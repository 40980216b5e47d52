import Mathlib.Algebra.Ring.Nat
import Mathlib.Data.List.Lex
import Mathlib.Order.Basic

/-!
# The string newtypes

`string/subtypes.rs` declares its string types with one macro, `impl_subtype!`.  A type is given by
a check of single bytes (`is_invalid`) and a check of the whole string (`check_others`); a string
belongs to the type when neither refuses it.  `StringType` is that pair of checks and `Str T` the
strings that pass, so that a value of a newtype carries the proof of its own invariant.

Two strings of one type are equal, and are ordered, by their bytes alone, as `PartialEq` and `Ord`
of `Bytes` are.  The lazily computed UTF-8 flag, the secrecy flag and the ownership of a `Bytes`
take no part in either, nor in any parsing decision, and are not part of `Str`.

* `findInvalid_eq_none_iff`: the invariant, byte by byte.
* `Str.fromBytes`, `Str.fromSuper`: the checked constructors.
* `Conv`: the conversions between newtypes that need no check of single bytes.
-/

namespace Vinezombie

/-- The byte of an ASCII character: `b':'` in the source is `byte ':'`. -/
def byte (c : Char) : UInt8 := UInt8.ofNat c.toNat

/-- The bytes of an ASCII literal: `b"LS"` in the source is `text "LS"`. -/
def text (s : String) : List UInt8 := s.toList.map byte

/-- `error::InvalidString`. -/
inductive InvalidString where
  | empty
  | colon
  | byte (b : UInt8)
  deriving DecidableEq, Repr

/-- The macro `check_bytes!`: the first byte that `f` refuses. -/
def checkBytes (bs : List UInt8) (f : UInt8 → Bool) : Option InvalidString :=
  (bs.find? f).map .byte

theorem checkBytes_eq_none_iff {bs : List UInt8} {f : UInt8 → Bool} :
    checkBytes bs f = none ↔ ∀ b ∈ bs, f b = false := by
  simp [checkBytes]

/-- `Result::unwrap` of a result that is known not to be an error. -/
def unwrap {ε α : Type} : (r : Except ε α) → r.isOk = true → α
  | .ok a, _ => a
  | .error _, h => absurd h (by simp [Except.isOk, Except.toBool])

theorem unwrap_eq_of_eq_ok {ε α : Type} {r : Except ε α} {a : α} (hr : r = .ok a)
    (h : r.isOk = true) : unwrap r h = a := by
  subst hr
  rfl

/-- What `impl_subtype!` is given for one newtype. -/
structure StringType where
  /-- `is_invalid`: the bytes that no string of the type contains. -/
  isInvalid : UInt8 → Bool
  /-- `check_others`: the check of the string as a whole. -/
  checkOthers : List UInt8 → Option InvalidString

namespace StringType

variable (T : StringType)

/-- `find_invalid`: the whole-string check first, then every byte. -/
def findInvalid (bs : List UInt8) : Option InvalidString :=
  match T.checkOthers bs with
  | some e => some e
  | none => checkBytes bs T.isInvalid

theorem findInvalid_eq_none_iff {bs : List UInt8} :
    T.findInvalid bs = none ↔
      T.checkOthers bs = none ∧ ∀ b ∈ bs, T.isInvalid b = false := by
  unfold findInvalid
  cases h : T.checkOthers bs with
  | none => simp [checkBytes_eq_none_iff]
  | some e => simp

end StringType

/-! ## The types -/

/-- `return_none`, the check of the kinds that have none but that of each byte. -/
def returnNone (_ : List UInt8) : Option InvalidString := none

/-- `is_invalid_for_nonul`. -/
def isInvalidForNoNul (b : UInt8) : Bool := b == 0

/-- `is_invalid_for_line`; `chain` asks for the check of `NoNul` too. -/
def isInvalidForLine (chain : Bool) (b : UInt8) : Bool :=
  (b == byte '\r' || b == byte '\n') || (if chain then isInvalidForNoNul b else false)

/-- `is_invalid_for_word`. -/
def isInvalidForWord (chain : Bool) (b : UInt8) : Bool :=
  b == byte ' ' || (if chain then isInvalidForLine true b else false)

/-- The whole-string check of `Arg` and of every type below it. -/
def argFirstCheck (bs : List UInt8) : Option InvalidString :=
  match bs.head? with
  | none => some .empty
  | some b => if b = byte ':' then some .colon else none

/-- `is_invalid_for_key`. -/
def isInvalidForKey (chain : Bool) (b : UInt8) : Bool :=
  (b == byte '=' || b == byte ';') || (if chain then isInvalidForWord true b else false)

/-- `is_invalid_for_nick`. -/
def isInvalidForNick (chain : Bool) (b : UInt8) : Bool :=
  (b == byte '!' || b == byte '@') || (if chain then isInvalidForWord true b else false)

/-- `is_invalid_for_user`. -/
def isInvalidForUser (chain : Bool) (b : UInt8) : Bool :=
  (b == byte '@' || b == byte '%') || (if chain then isInvalidForWord true b else false)

/-- `u8::is_ascii_uppercase`. -/
def isAsciiUppercase (b : UInt8) : Bool := byte 'A' ≤ b && b ≤ byte 'Z'

/-- `u8::is_ascii_lowercase`. -/
def isAsciiLowercase (b : UInt8) : Bool := byte 'a' ≤ b && b ≤ byte 'z'

/-- `u8::is_ascii_alphabetic`. -/
def isAsciiAlphabetic (b : UInt8) : Bool := isAsciiUppercase b || isAsciiLowercase b

/-- `u8::to_ascii_uppercase`. -/
def toAsciiUppercase (b : UInt8) : UInt8 := if isAsciiLowercase b then b - 32 else b

/-- `u8::is_ascii_digit`. -/
def isAsciiDigit (b : UInt8) : Bool := byte '0' ≤ b && b ≤ byte '9'

/-- `u8::is_ascii_whitespace`: space, tab, LF, form feed and CR. -/
def isAsciiWhitespace (b : UInt8) : Bool :=
  b == byte ' ' || b == byte '\t' || b == byte '\n' || b == 12 || b == byte '\r'

/-- The check of each byte of a `Cmd`. -/
def cmdByteCheck (b : UInt8) : Bool := !isAsciiUppercase b

/-- A digit of `{:x}`. -/
def hexDigit (n : ℕ) : UInt8 :=
  if n < 10 then byte '0' + UInt8.ofNat n else byte 'a' + UInt8.ofNat (n - 10)

namespace StringType

/-- The checks of `NoNul`. -/
def noNul : StringType := ⟨isInvalidForNoNul, returnNone⟩

/-- The checks of `Line`. -/
def line : StringType := ⟨isInvalidForLine true, returnNone⟩

/-- The checks of `Word`. -/
def word : StringType := ⟨isInvalidForWord true, returnNone⟩

/-- The checks of `Arg`. -/
def arg : StringType := ⟨isInvalidForWord true, argFirstCheck⟩

/-- The checks of `Key`. -/
def key : StringType := ⟨isInvalidForKey true, argFirstCheck⟩

/-- The checks of `Nick`. -/
def nick : StringType := ⟨isInvalidForNick true, argFirstCheck⟩

/-- The checks of `User`. -/
def user : StringType := ⟨isInvalidForUser true, argFirstCheck⟩

/-- The checks of `Cmd`. -/
def cmd : StringType := ⟨cmdByteCheck, argFirstCheck⟩

end StringType

/-- The strings of a newtype. -/
@[ext] structure Str (T : StringType) where
  bytes : List UInt8
  valid : T.findInvalid bytes = none

/-- `NoNul`. -/
abbrev NoNul := Str .noNul
/-- `Line`. -/
abbrev Line := Str .line
/-- `Word`. -/
abbrev Word := Str .word
/-- `Arg`. -/
abbrev Arg := Str .arg
/-- `Key`. -/
abbrev Key := Str .key
/-- `Nick`. -/
abbrev Nick := Str .nick
/-- `User`. -/
abbrev User := Str .user
/-- `Cmd`. -/
abbrev Cmd := Str .cmd

namespace Str

variable {T U : StringType}

theorem bytes_injective : Function.Injective (Str.bytes : Str T → List UInt8) :=
  fun _ _ h => Str.ext h

/-- `Ord` of `Bytes`: the lexicographic order of the bytes. -/
instance : LinearOrder (Str T) :=
  LinearOrder.lift' (fun s => s.bytes.map UInt8.toNat)
    ((List.map_injective_iff.mpr fun _ _ h => UInt8.toNat_inj.mp h).comp bytes_injective)

theorem checkOthers_eq_none (s : Str T) : T.checkOthers s.bytes = none :=
  ((T.findInvalid_eq_none_iff).mp s.valid).1

theorem isInvalid_eq_false (s : Str T) {b : UInt8} (hb : b ∈ s.bytes) : T.isInvalid b = false :=
  ((T.findInvalid_eq_none_iff).mp s.valid).2 b hb

/-- `from_bytes`. -/
def fromBytes (T : StringType) (bs : List UInt8) : Except InvalidString (Str T) :=
  match h : T.findInvalid bs with
  | some e => .error e
  | none => .ok ⟨bs, h⟩

theorem fromBytes_of_findInvalid_some {bs : List UInt8} {e : InvalidString}
    (h : T.findInvalid bs = some e) : fromBytes T bs = .error e := by
  unfold fromBytes
  split
  · rename_i e' he
    rw [h] at he
    rw [Option.some.inj he]
  · rename_i he
    rw [h] at he
    exact absurd he (by simp)

/-- `from_bytes` succeeds exactly on the bytes of a string of the type. -/
theorem fromBytes_eq_ok_iff {bs : List UInt8} {s : Str T} :
    fromBytes T bs = .ok s ↔ s.bytes = bs := by
  constructor
  · intro h
    unfold fromBytes at h
    split at h
    · exact absurd h (by simp)
    · rw [← Except.ok.inj h]
  · rintro rfl
    unfold fromBytes
    split
    · rename_i e he
      rw [s.valid] at he
      exact absurd he (by simp)
    · rfl

/-- `from_str` of an ASCII literal.  The source panics where the literal is invalid; here there is
no such value. -/
def fromStr (s : String) (h : T.findInvalid (text s) = none := by decide) : Str T := ⟨text s, h⟩

/-- `from_super`: the string already satisfies the invariant of the wider type `T`, and only what
`U` adds is checked.  The proof says that nothing else needs checking. -/
def fromSuper (check : List UInt8 → Option InvalidString)
    (hcheck : ∀ bs, T.findInvalid bs = none → check bs = none → U.findInvalid bs = none)
    (s : Str T) : Except InvalidString (Str U) :=
  match h : check s.bytes with
  | some e => .error e
  | none => .ok ⟨s.bytes, hcheck s.bytes s.valid h⟩

/-- Types with a `Default`: those for which the empty string is valid (`maybe_empty!`). -/
class HasEmpty (T : StringType) : Prop where
  empty_valid : T.findInvalid [] = none

instance : HasEmpty .noNul := ⟨rfl⟩
instance : HasEmpty .line := ⟨rfl⟩
instance : HasEmpty .word := ⟨rfl⟩

/-- `empty` and `default`. -/
def empty [h : HasEmpty T] : Str T := ⟨[], h.empty_valid⟩

instance [HasEmpty T] : Inhabited (Str T) := ⟨empty⟩

/-- `U: From<T>` as `Splitter::rest` uses it: no byte that a `T` may contain is invalid for `U`.
The whole-string check is made again where `U` has one. -/
class Conv (T U : StringType) : Prop where
  byte_valid : ∀ b, T.isInvalid b = false → U.isInvalid b = false

instance : Conv T T := ⟨fun _ h => h⟩

end Str

/-! ## The invariants, byte by byte -/

theorem isInvalidForNoNul_eq_false {b : UInt8} : isInvalidForNoNul b = false ↔ b ≠ 0 := by
  simp [isInvalidForNoNul]

theorem isInvalidForLine_eq_false {b : UInt8} :
    isInvalidForLine true b = false ↔ b ≠ byte '\r' ∧ b ≠ byte '\n' ∧ b ≠ 0 := by
  simp [isInvalidForLine, isInvalidForNoNul, and_assoc]

theorem isInvalidForWord_eq_false {b : UInt8} :
    isInvalidForWord true b = false ↔
      b ≠ byte ' ' ∧ b ≠ byte '\r' ∧ b ≠ byte '\n' ∧ b ≠ 0 := by
  simp [isInvalidForWord, isInvalidForLine, isInvalidForNoNul, and_assoc]

/-- A class of bytes without space, CR, LF and NUL is a class of bytes of words. -/
theorem isInvalidForWord_of_class {f : UInt8 → Bool} {b : UInt8} (hb : f b = true)
    (hf : [byte ' ', byte '\r', byte '\n', 0].any f = false) : isInvalidForWord true b = false := by
  have hne : ∀ c ∈ [byte ' ', byte '\r', byte '\n', 0], b ≠ c := by
    rintro c hc rfl
    exact List.any_eq_false.mp hf b hc hb
  exact isInvalidForWord_eq_false.mpr
    ⟨hne _ (by simp), hne _ (by simp), hne _ (by simp), hne _ (by simp)⟩

theorem isInvalidForKey_eq_false {b : UInt8} :
    isInvalidForKey true b = false ↔
      b ≠ byte '=' ∧ b ≠ byte ';' ∧ isInvalidForWord true b = false := by
  simp [isInvalidForKey, and_assoc]

theorem isInvalidForNick_eq_false {b : UInt8} :
    isInvalidForNick true b = false ↔
      b ≠ byte '!' ∧ b ≠ byte '@' ∧ isInvalidForWord true b = false := by
  simp [isInvalidForNick, and_assoc]

theorem isInvalidForUser_eq_false {b : UInt8} :
    isInvalidForUser true b = false ↔
      b ≠ byte '@' ∧ b ≠ byte '%' ∧ isInvalidForWord true b = false := by
  simp [isInvalidForUser, and_assoc]

/-- The first byte of an `Arg` is there, and is not a colon. -/
theorem argFirstCheck_eq_none_iff {bs : List UInt8} :
    argFirstCheck bs = none ↔ ∃ b rest, bs = b :: rest ∧ b ≠ byte ':' := by
  cases bs with
  | nil => simp [argFirstCheck]
  | cons b rest => simp [argFirstCheck]

theorem argFirstCheck_colon (rest : List UInt8) :
    argFirstCheck (byte ':' :: rest) = some .colon := by
  simp [argFirstCheck]

theorem argFirstCheck_cons_of_ne {b : UInt8} (h : b ≠ byte ':') (rest : List UInt8) :
    argFirstCheck (b :: rest) = none :=
  argFirstCheck_eq_none_iff.mpr ⟨b, rest, rfl, h⟩

instance : Str.Conv .word .noNul :=
  ⟨fun _ h => isInvalidForNoNul_eq_false.mpr (isInvalidForWord_eq_false.mp h).2.2.2⟩

instance : Str.Conv .line .noNul :=
  ⟨fun _ h => isInvalidForNoNul_eq_false.mpr (isInvalidForLine_eq_false.mp h).2.2⟩

instance : Str.Conv .word .line :=
  ⟨fun _ h => isInvalidForLine_eq_false.mpr (isInvalidForWord_eq_false.mp h).2⟩

instance : Str.Conv .arg .word := ⟨fun _ h => h⟩

instance : Str.Conv .key .word := ⟨fun _ h => (isInvalidForKey_eq_false.mp h).2.2⟩

instance : Str.Conv .nick .word := ⟨fun _ h => (isInvalidForNick_eq_false.mp h).2.2⟩

instance : Str.Conv .user .word := ⟨fun _ h => (isInvalidForUser_eq_false.mp h).2.2⟩

theorem StringType.checkOthers_arg : StringType.arg.checkOthers = argFirstCheck := rfl

theorem StringType.checkOthers_key : StringType.key.checkOthers = argFirstCheck := rfl

/-- `From<Word> for NoNul`. -/
def Word.toNoNul (w : Word) : NoNul where
  bytes := w.bytes
  valid := StringType.noNul.findInvalid_eq_none_iff.mpr
    ⟨rfl, fun b hb => Str.Conv.byte_valid (T := .word) b (w.isInvalid_eq_false hb)⟩

instance : Str.Conv .nick .arg := ⟨fun _ h => (isInvalidForNick_eq_false.mp h).2.2⟩

instance : Str.Conv .user .arg := ⟨fun _ h => (isInvalidForUser_eq_false.mp h).2.2⟩

instance : Str.Conv .key .line :=
  ⟨fun b h => Str.Conv.byte_valid (T := .word) b (Str.Conv.byte_valid (T := .key) b h)⟩

/-- `into_super` and the `From` conversions to wider types, where the whole-string check of the
narrower type implies that of the wider one. -/
def Str.into {T : StringType} (s : Str T) (U : StringType) [Str.Conv T U]
    (h : ∀ bs, T.checkOthers bs = none → U.checkOthers bs = none) : Str U where
  bytes := s.bytes
  valid := U.findInvalid_eq_none_iff.mpr
    ⟨h s.bytes s.checkOthers_eq_none, fun b hb => Str.Conv.byte_valid (T := T) b
      (s.isInvalid_eq_false hb)⟩

/-- A nick as an argument. -/
def Nick.toArg (nick : Nick) : Arg := nick.into .arg fun _ h => h

/-- A user as an argument. -/
def User.toArg (user : User) : Arg := user.into .arg fun _ h => h

/-- A key as a line. -/
def Key.toLine (key : Key) : Line := key.into .line fun _ _ => rfl

/-- An argument as a word. -/
def Arg.toWord (arg : Arg) : Word := arg.into .word fun _ _ => rfl

/-- `Nick::from_super`. -/
def Nick.fromSuper (arg : Arg) : Except InvalidString Nick :=
  arg.fromSuper (fun bs => checkBytes bs (isInvalidForNick false)) (by
    intro bs harg hcheck
    obtain ⟨hfirst, hword⟩ := StringType.arg.findInvalid_eq_none_iff.mp harg
    refine StringType.nick.findInvalid_eq_none_iff.mpr ⟨hfirst, fun b hb => ?_⟩
    have hb' := checkBytes_eq_none_iff.mp hcheck b hb
    simp only [isInvalidForNick, Bool.false_eq_true, if_false, Bool.or_false, Bool.or_eq_false_iff,
      beq_eq_false_iff_ne] at hb'
    exact isInvalidForNick_eq_false.mpr ⟨hb'.1, hb'.2, hword b hb⟩)

theorem Nick.fromSuper_toArg (nick : Nick) : Nick.fromSuper nick.toArg = .ok nick := by
  have hcheck : checkBytes nick.bytes (isInvalidForNick false) = none := by
    refine checkBytes_eq_none_iff.mpr fun b hb => ?_
    have hb' := isInvalidForNick_eq_false.mp (nick.isInvalid_eq_false hb)
    simp [isInvalidForNick, hb'.1, hb'.2.1]
  unfold Nick.fromSuper Str.fromSuper
  split
  · rename_i e he
    exact absurd (hcheck.symm.trans he) (by simp)
  · rfl

/-- The first byte of a string whose type begins with the check of `Arg`. -/
theorem Str.exists_eq_cons {T : StringType} (hT : T.checkOthers = argFirstCheck) (s : Str T) :
    ∃ b rest, s.bytes = b :: rest ∧ b ≠ byte ':' := by
  have h := s.checkOthers_eq_none
  rw [hT] at h
  exact argFirstCheck_eq_none_iff.mp h

end Vinezombie
