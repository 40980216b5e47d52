import Mathlib.Data.List.DropRight
import Vinezombie.Library.Utf8
import Vinezombie.Strings.Newtypes

/-!
# Byte strings with their flags

`string/bytes.rs`: a byte string knows whether it owns its data, whether it is secret, and what is
known about it being UTF-8.  None of this takes part in comparing or parsing strings, which is why
`Str` does not have it; here it is the subject.

`string.rs` and `string/tf/`: a transform returns the bytes of the new string, borrowed from those
of the old one or owned, and a policy that says what becomes of the UTF-8 flag.

A method of the source that takes `&self` may still store the result of a check in the flag, so it
also returns the string here.

* `Bytes` and its methods.
* `Transform.transform`: the transforms of the crate.
* `Bytes.transform`: a string after a transform.
-/

namespace Vinezombie

open Library.Utf8

/-! ## What is known about a string -/

/-- The field `utf8`: unknown is 0, valid is 1 and invalid is -1. -/
inductive Utf8Flag where
  | unknown
  | valid
  | invalid
  deriving DecidableEq, Repr

/-- `Utf8Policy`. -/
inductive Utf8Policy where
  | invalid
  | recheck
  | valid
  | preserve
  | preserveStrict
  deriving DecidableEq, Repr

/-- `Cow<'_, [u8]>`, and `Cow<'_, str>` with the bytes of the `str`. -/
inductive Cow where
  | borrowed (s : List UInt8)
  | owned (o : List UInt8)
  deriving DecidableEq, Repr

/-- What it leads to. -/
def Cow.bytes : Cow → List UInt8
  | .borrowed s => s
  | .owned o => o

/-- `str::as_bytes`. -/
def strBytes (s : String) : List UInt8 := s.toByteArray.data.toList

/-- `String::from_utf8_lossy`: it borrows exactly when there is nothing to replace. -/
def fromUtf8Lossy (value : List UInt8) : Cow :=
  if Valid value then .borrowed value else .owned (lossy value)

/-! ## Transforms -/

/-- `Transformation`. -/
structure Transformation where
  transformed : Cow
  utf8 : Utf8Policy

/-- `map_bytes`.  The bytes are copied from the first one on that is changed. -/
def mapBytes (bytes : List UInt8) (utf8 : Utf8Policy) (f : UInt8 → UInt8) : Transformation :=
  let same := bytes.takeWhile fun b => f b == b
  let transformed :=
    match bytes.drop same.length with
    | [] => .borrowed bytes
    | b :: rest => .owned (same ++ f b :: rest.map f)
  ⟨transformed, if bytes.all fun b => isAscii (f b) then .valid else utf8⟩

/-- `u8::to_ascii_lowercase`. -/
def toAsciiLowercase (b : UInt8) : UInt8 := if isAsciiUppercase b then b + 32 else b

/-- The lower-case form of a byte, with `[\]` as the upper case of `{|}`. -/
def rfc1459Strict (b : UInt8) : UInt8 :=
  if byte '[' ≤ b ∧ b ≤ byte ']' then b + 32 else toAsciiLowercase b

/-- The lower-case form of a byte, with `~` as the upper case of `^` as well. -/
def rfc1459 (b : UInt8) : UInt8 := if b = byte '~' then byte '^' else rfc1459Strict b

/-- `IrcCasemap`. -/
inductive IrcCasemap where
  | ascii
  | rfc1459Strict
  | rfc1459
  deriving DecidableEq, Repr

/-- `IrcCasemap::map`. -/
def IrcCasemap.map : IrcCasemap → UInt8 → UInt8
  | .ascii => toAsciiLowercase
  | .rfc1459Strict => Vinezombie.rfc1459Strict
  | .rfc1459 => Vinezombie.rfc1459

/-- `StringSide`. -/
inductive StringSide where
  | atStart
  | atEnd
  | startFirst
  | endFirst
  deriving DecidableEq, Repr

/-- `TrimAscii`: the end is trimmed first, on whichever sides. -/
def trimAscii (side : StringSide) (slice : List UInt8) : List UInt8 :=
  let slice := if side ≠ .atStart then slice.rdropWhile isAsciiWhitespace else slice
  if side ≠ .atEnd then slice.dropWhile isAsciiWhitespace else slice

/-- The transforms of the crate. -/
inductive Transform where
  | asciiCasemap (uppercase : Bool)
  | ircCasemap (casemap : IrcCasemap)
  | trimAscii (side : StringSide)
  deriving DecidableEq, Repr

/-- `Transform::transform`. -/
def Transform.transform : Transform → List UInt8 → Transformation
  | .asciiCasemap true, bytes => mapBytes bytes .preserveStrict toAsciiUppercase
  | .asciiCasemap false, bytes => mapBytes bytes .preserveStrict toAsciiLowercase
  | .ircCasemap casemap, bytes => mapBytes bytes .preserveStrict casemap.map
  | .trimAscii side, bytes => ⟨.borrowed (Vinezombie.trimAscii side bytes), .preserveStrict⟩

/-! ## Strings -/

/-- `Bytes`, with the accessors `is_owning` and `is_secret` as fields. -/
@[ext] structure Bytes where
  value : List UInt8
  isOwning : Bool
  utf8 : Utf8Flag
  isSecret : Bool
  deriving DecidableEq, Repr

namespace Bytes

/-- A string made of the two results of `OwnedBytes::from_vec`, which does not own an empty one. -/
def ofVec (value : List UInt8) (utf8 : Utf8Flag) (secret : Bool) : Bytes :=
  ⟨value, !value.isEmpty, utf8, secret⟩

/-- `Bytes::empty`. -/
def empty : Bytes := ⟨[], false, .valid, false⟩

/-- The derived `Default`. -/
def default : Bytes := ⟨[], false, .unknown, false⟩

/-- `Bytes::from_bytes`. -/
def fromBytes (value : List UInt8) : Bytes := ⟨value, false, .unknown, false⟩

/-- `Bytes::from_str`. -/
def fromStr (value : String) : Bytes := ⟨strBytes value, false, .valid, false⟩

/-- `Bytes::from_secret`. -/
def fromSecret (value : List UInt8) : Bytes := ofVec value .unknown true

/-- `From<Vec<u8>>`, and `From<&[u8]>`, which copies. -/
def fromVec (value : List UInt8) : Bytes := ofVec value .unknown false

/-- `From<String>`, and `From<&str>`, which copies. -/
def fromString (value : String) : Bytes := ofVec (strBytes value) .valid false

/-- `owning_force`: a copy of its own. -/
def owningForce (b : Bytes) (secret : Bool) : Bytes := ofVec b.value b.utf8 secret

/-- `owning`. -/
def owning (b : Bytes) : Bytes := if !b.isOwning then b.owningForce b.isSecret else b

/-- `MakeOwning::make_owning`. -/
def makeOwning (b : Bytes) : Bytes := if !b.isOwning then b.owningForce false else b

/-- `secret`. -/
def secret (b : Bytes) : Bytes :=
  if !b.isSecret && b.isOwning then b.owningForce true else { b with isSecret := true }

/-- `is_utf8_lazy`. -/
def isUtf8Lazy (b : Bytes) : Option Bool :=
  match b.utf8 with
  | .valid => some true
  | .invalid => some false
  | .unknown => none

/-- `to_utf8`: the bytes of the `str`. -/
def toUtf8 (b : Bytes) : Option (List UInt8) × Bytes :=
  match b.isUtf8Lazy with
  | some true => (some b.value, b)
  | some false => (none, b)
  | none =>
    if Valid b.value then (some b.value, { b with utf8 := .valid })
    else (none, { b with utf8 := .invalid })

/-- `utf8_cow`, with what it has found out. -/
def utf8Cow (b : Bytes) : Cow × Bytes :=
  match b.isUtf8Lazy with
  | some true => (.borrowed b.value, b)
  | some false => (fromUtf8Lossy b.value, b)
  | none =>
    match fromUtf8Lossy b.value with
    | .borrowed s => (.borrowed s, { b with utf8 := .valid })
    | .owned o => (.owned o, { b with utf8 := .invalid })

/-- `into_utf8_lossy`. -/
def intoUtf8Lossy (b : Bytes) : Bytes :=
  match b.utf8Cow.1 with
  | .borrowed s => ⟨s, b.isOwning, .valid, b.isSecret⟩
  | .owned o => ofVec o .valid false

/-- `utf8_for_policy`. -/
def utf8ForPolicy (b : Bytes) (utf8 : Utf8Policy) : Utf8Flag :=
  match utf8 with
  | .preserveStrict => b.utf8
  | .preserve => if b.utf8 = .valid then .valid else .unknown
  | .invalid => .invalid
  | .recheck => .unknown
  | .valid => .valid

/-- `using_value`. -/
def usingValue (b : Bytes) (value : List UInt8) (utf8 : Utf8Policy) : Bytes :=
  ⟨value, if value.isEmpty then false else b.isOwning, b.utf8ForPolicy utf8, b.isSecret⟩

/-- `transform`. -/
def transform (b : Bytes) (tf : Transform) : Bytes :=
  let tfed := tf.transform b.value
  if tfed.transformed.bytes.isEmpty then empty
  else
    match tfed.transformed with
    | .borrowed s =>
      let utf8 :=
        match tfed.utf8 with
        | .preserveStrict => b.utf8
        | .preserve => if b.utf8 = .invalid then .unknown else b.utf8
        | .invalid => .invalid
        | .recheck => .unknown
        | .valid => .valid
      { b with value := s, utf8 }
    | .owned o => ofVec o (b.utf8ForPolicy tfed.utf8) b.isSecret

/-! ### The bytes -/

@[simp] theorem value_owning (b : Bytes) : b.owning.value = b.value := by
  unfold owning
  split <;> rfl

@[simp] theorem value_makeOwning (b : Bytes) : b.makeOwning.value = b.value := by
  unfold makeOwning
  split <;> rfl

@[simp] theorem value_secret (b : Bytes) : b.secret.value = b.value := by
  unfold secret
  split <;> rfl

@[simp] theorem utf8_owning (b : Bytes) : b.owning.utf8 = b.utf8 := by
  unfold owning
  split <;> rfl

@[simp] theorem utf8_makeOwning (b : Bytes) : b.makeOwning.utf8 = b.utf8 := by
  unfold makeOwning
  split <;> rfl

@[simp] theorem utf8_secret (b : Bytes) : b.secret.utf8 = b.utf8 := by
  unfold secret
  split <;> rfl

@[simp] theorem value_toUtf8 (b : Bytes) : b.toUtf8.2.value = b.value := by
  unfold toUtf8
  split
  · rfl
  · rfl
  · split <;> rfl

@[simp] theorem value_utf8Cow (b : Bytes) : b.utf8Cow.2.value = b.value := by
  unfold utf8Cow
  split
  · rfl
  · rfl
  · split <;> rfl

end Bytes

/-! ## What transforms do to the bytes -/

/-- What holds of every byte can be checked for one after the other. -/
theorem forall_byte {p : UInt8 → Prop} (h : ∀ n < 256, p (UInt8.ofNat n)) (b : UInt8) : p b := by
  have hb := h b.toNat b.toNat_lt
  rwa [UInt8.ofNat_toNat] at hb

/-- The bytes of the new string, for a map of bytes. -/
theorem bytes_mapBytes (bytes : List UInt8) (utf8 : Utf8Policy) (f : UInt8 → UInt8) :
    (mapBytes bytes utf8 f).transformed.bytes = bytes.map f := by
  have hsame : (bytes.takeWhile fun b => f b == b).map f = bytes.takeWhile fun b => f b == b := by
    refine (List.map_congr_left fun b hb => ?_).trans (List.map_id _)
    simpa using List.mem_takeWhile_imp hb
  have hsplit := List.takeWhile_append_dropWhile (p := fun b => f b == b) (l := bytes)
  unfold mapBytes
  dsimp only
  rw [Library.Scan.drop_length_takeWhile]
  cases hdrop : bytes.dropWhile fun b => f b == b with
  | nil =>
    rw [hdrop, List.append_nil] at hsplit
    rw [hsplit] at hsame
    exact hsame.symm
  | cons b rest =>
    show (bytes.takeWhile fun b => f b == b) ++ f b :: rest.map f = bytes.map f
    conv_rhs => rw [← hsplit, hdrop, List.map_append, hsame, List.map_cons]

/-- What a transform does to the bytes: it maps them one by one, or cuts whitespace off. -/
theorem bytes_transform (tf : Transform) (bytes : List UInt8) :
    (∃ f : UInt8 → UInt8, (tf.transform bytes).transformed.bytes = bytes.map f ∧
      (tf = .asciiCasemap true ∧ f = toAsciiUppercase ∨
        tf = .asciiCasemap false ∧ f = toAsciiLowercase ∨
        ∃ casemap, tf = .ircCasemap casemap ∧ f = casemap.map)) ∨
    ∃ side, tf = .trimAscii side ∧
      (tf.transform bytes).transformed.bytes = Vinezombie.trimAscii side bytes := by
  cases tf with
  | asciiCasemap uppercase =>
    cases uppercase with
    | true => exact .inl ⟨_, bytes_mapBytes _ _ _, .inl ⟨rfl, rfl⟩⟩
    | false => exact .inl ⟨_, bytes_mapBytes _ _ _, .inr (.inl ⟨rfl, rfl⟩)⟩
  | ircCasemap casemap =>
    exact .inl ⟨_, bytes_mapBytes _ _ _, .inr (.inr ⟨casemap, rfl, rfl⟩)⟩
  | trimAscii side => exact .inr ⟨side, rfl, rfl⟩

/-- A string after a transform has the bytes that the transform returned. -/
theorem Bytes.value_transform (b : Bytes) (tf : Transform) :
    (b.transform tf).value = (tf.transform b.value).transformed.bytes := by
  unfold Bytes.transform
  dsimp only
  split
  · rename_i hempty
    exact (List.isEmpty_iff.mp hempty).symm
  · split
    · rename_i s hs
      rw [hs]
      rfl
    · rename_i o ho
      rw [ho]
      rfl

/-- What is trimmed off is whitespace on both sides. -/
theorem exists_trimAscii (side : StringSide) (bytes : List UInt8) :
    ∃ l r, bytes = l ++ trimAscii side bytes ++ r ∧
      (∀ b ∈ l, isAsciiWhitespace b = true) ∧ ∀ b ∈ r, isAsciiWhitespace b = true := by
  have hright : ∀ bs : List UInt8, ∃ r, bs = bs.rdropWhile isAsciiWhitespace ++ r ∧
      ∀ b ∈ r, isAsciiWhitespace b = true := fun bs =>
    ⟨bs.rtakeWhile isAsciiWhitespace, List.rdropWhile_append_rtakeWhile.symm,
      fun b hb => List.mem_rtakeWhile_imp hb⟩
  have hleft : ∀ bs : List UInt8, ∃ l, bs = l ++ bs.dropWhile isAsciiWhitespace ∧
      ∀ b ∈ l, isAsciiWhitespace b = true := fun bs =>
    ⟨bs.takeWhile isAsciiWhitespace, List.takeWhile_append_dropWhile.symm,
      fun b hb => List.mem_takeWhile_imp hb⟩
  obtain ⟨r, hr, hrw⟩ : ∃ r, bytes =
      (if side ≠ .atStart then bytes.rdropWhile isAsciiWhitespace else bytes) ++ r ∧
      ∀ b ∈ r, isAsciiWhitespace b = true := by
    split
    · exact hright bytes
    · exact ⟨[], (List.append_nil _).symm, by simp⟩
  obtain ⟨l, hl, hlw⟩ : ∃ l,
      (if side ≠ .atStart then bytes.rdropWhile isAsciiWhitespace else bytes) =
        l ++ trimAscii side bytes ∧ ∀ b ∈ l, isAsciiWhitespace b = true := by
    unfold trimAscii
    dsimp only
    generalize (if side ≠ .atStart then bytes.rdropWhile isAsciiWhitespace else bytes) = slice
    split
    · exact hleft slice
    · exact ⟨[], rfl, by simp⟩
  refine ⟨l, r, ?_, hlw, hrw⟩
  rw [← hl]
  exact hr

end Vinezombie
