import Vinezombie.Strings.Base64
import Vinezombie.Strings.Bytes
import Vinezombie.Strings.Escape

/-!
# Strings, splitters and builders

The string API as a whole: the nine kinds of strings (`Bytes` and its newtypes), splitters with what
they know about the encoding and with the guards that are in force (`string/splitter.rs`), and
builders (`string/builder.rs`).  Strings are `Bytes` here, with their flags; that a string belongs
to its kind is nothing that is given, but is to be shown.

A newtype keeps its kind's checks in `Kind.type`, and the traits that decide which methods it has in
`Kind.into`, `Kind.hasDefault` and `Kind.isSafe`.

* `StrOp.apply`: the methods that take a string and return one.
* `SplitterOp.apply`, `Extraction.run`: the methods of splitters and of their guards.
* `BuilderOp.apply`: the methods of builders.
* `Obtainable`: everything that can be made by calling these methods, in any order.
-/

namespace Vinezombie

open Library Library.Utf8

namespace Flagged

/-! ## Kinds -/

/-- `Bytes` and its newtypes. -/
inductive Kind where
  | bytes
  | noNul
  | line
  | word
  | arg
  | key
  | nick
  | user
  | cmd
  deriving DecidableEq, Repr

namespace Kind

/-- The checks of a kind, as `BytesNewtype` has them. -/
def type : Kind → StringType
  | bytes => ⟨fun _ => false, returnNone⟩
  | noNul => .noNul
  | line => .line
  | word => .word
  | arg => .arg
  | key => .key
  | nick => .nick
  | user => .user
  | cmd => .cmd

/-- The kind that `from_super` takes, for the kinds that have it. -/
def superOf : Kind → Option Kind
  | line => some noNul
  | word => some line
  | arg => some word
  | key => some arg
  | nick => some arg
  | user => some arg
  | cmd => some arg
  | _ => none

/-- The check of `from_super`. -/
def superCheck : Kind → List UInt8 → Option InvalidString
  | line, bs => checkBytes bs (isInvalidForLine false)
  | word, bs => checkBytes bs (isInvalidForWord false)
  | arg, bs => argFirstCheck bs
  | key, bs => checkBytes bs (isInvalidForKey false)
  | nick, bs => checkBytes bs (isInvalidForNick false)
  | user, bs => checkBytes bs (isInvalidForUser false)
  | cmd, bs => checkBytes bs cmdByteCheck
  | _, _ => none

/-- The kinds that the macro `conversions!` lists for a kind. -/
def conversions : Kind → List Kind
  | line => [noNul]
  | word => [noNul, line]
  | arg => [noNul, line, word]
  | key => [noNul, line, word, arg]
  | nick => [noNul, line, word, arg]
  | user => [noNul, line, word, arg]
  | cmd => [noNul, line, word, arg]
  | _ => []

/-- `T: Into<U>`. -/
def into (T U : Kind) : Bool := T = U || U = bytes || U ∈ T.conversions

/-- The kinds with a `Default`. -/
def hasDefault : Kind → Bool
  | bytes => true
  | noNul => true
  | line => true
  | word => true
  | _ => false

/-- The transforms that are marked safe for a kind. -/
def isSafe : Kind → Transform → Bool
  | bytes, _ => true
  | noNul, _ => true
  | line, _ => true
  | word, .asciiCasemap _ => true
  | word, .ircCasemap _ => true
  | arg, .asciiCasemap _ => true
  | arg, .ircCasemap _ => true
  | key, .asciiCasemap _ => true
  | key, .ircCasemap _ => true
  | nick, .ircCasemap _ => true
  | user, .ircCasemap _ => true
  | cmd, .asciiCasemap uppercase => uppercase
  | _, _ => false

/-- **A class of bytes without those that some kind excludes** is a class of bytes of every kind,
except `Cmd`. -/
theorem isInvalid_of_class {k : Kind} (hk : k ≠ .cmd) {f : UInt8 → Bool}
    (hf : [byte ' ', byte '\r', byte '\n', 0, byte '=', byte ';', byte '!', byte '@',
      byte '%'].any f = false) {b : UInt8} (hb : f b = true) : k.type.isInvalid b = false := by
  have hne : ∀ c ∈ [byte ' ', byte '\r', byte '\n', 0, byte '=', byte ';', byte '!', byte '@',
      byte '%'], b ≠ c := by
    rintro c hc rfl
    exact List.any_eq_false.mp hf b hc hb
  have hline : isInvalidForLine true b = false :=
    isInvalidForLine_eq_false.mpr ⟨hne _ (by simp), hne _ (by simp), hne _ (by simp)⟩
  have hword : isInvalidForWord true b = false :=
    isInvalidForWord_eq_false.mpr ⟨hne _ (by simp), isInvalidForLine_eq_false.mp hline⟩
  cases k with
  | bytes => rfl
  | noNul => exact isInvalidForNoNul_eq_false.mpr (hne _ (by simp))
  | line => exact hline
  | word => exact hword
  | arg => exact hword
  | key => exact isInvalidForKey_eq_false.mpr ⟨hne _ (by simp), hne _ (by simp), hword⟩
  | nick => exact isInvalidForNick_eq_false.mpr ⟨hne _ (by simp), hne _ (by simp), hword⟩
  | user => exact isInvalidForUser_eq_false.mpr ⟨hne _ (by simp), hne _ (by simp), hword⟩
  | cmd => exact absurd rfl hk

/-- `from_bytes`. -/
def fromBytes (k : Kind) (b : Bytes) : Except InvalidString Bytes :=
  match k.type.findInvalid b.value with
  | some e => .error e
  | none => .ok b

/-- `from_super`. -/
def fromSuper (k : Kind) (b : Bytes) : Except InvalidString Bytes :=
  match k.superCheck b.value with
  | some e => .error e
  | none => .ok b

end Kind

/-! ## Methods of strings -/

/-- The methods that take a string and return one, or change it. -/
inductive StrOp where
  | clone
  | owning
  | makeOwning
  | secret
  | toUtf8
  | toUtf8Lossy
  | intoUtf8Lossy
  | transform (tf : Transform)
  /-- A conversion to a wider kind. -/
  | into (k : Kind)
  | fromBytes (k : Kind)
  | fromSuper (k : Kind)
  /-- `Cmd::from_word`. -/
  | fromWord
  | escape
  | unescape
  | toBase64
  | toBase64Plus
  deriving DecidableEq, Repr

/-- `to_base64_impl`. -/
def toBase64Impl [Base64.Engine] (b : Bytes) : Bytes :=
  .ofVec (Base64.Engine.encode b.value) .valid b.isSecret

/-- The string that a method returns, with its kind; nothing where the kind does not have the
method or the method refuses the string. -/
def StrOp.apply [Base64.Engine] : StrOp → Kind × Bytes → Option (Kind × Bytes)
  | .clone, (k, b) => some (k, b)
  | .owning, (k, b) => some (k, b.owning)
  | .makeOwning, (k, b) => some (k, b.makeOwning)
  | .secret, (k, b) => some (k, b.secret)
  | .toUtf8, (k, b) => some (k, b.toUtf8.2)
  | .toUtf8Lossy, (k, b) => some (k, b.utf8Cow.2)
  | .intoUtf8Lossy, (k, b) => if k = .bytes then some (k, b.intoUtf8Lossy) else none
  | .transform tf, (k, b) => if k.isSafe tf then some (k, b.transform tf) else none
  | .into k', (k, b) => if k.into k' then some (k', b) else none
  | .fromBytes k', (_, b) => (k'.fromBytes b).toOption.map fun b => (k', b)
  | .fromSuper k', (k, b) =>
    match k'.superOf with
    | some sup => if k.into sup then (k'.fromSuper b).toOption.map fun b => (k', b) else none
    | none => none
  | .fromWord, (k, b) =>
    if k.into .word ∧ b.value.all isAsciiAlphabetic then
      some (.cmd, b.transform (.asciiCasemap true))
    else none
  | .escape, (k, b) =>
    if k.into .noNul then
      if b.value.all fun c => (escapeByte c).isNone then some (.word, b)
      else some (.word, .fromVec (escapeBytes b.value))
    else none
  | .unescape, (k, b) =>
    if k.into .noNul then
      if b.value.all (· != byte '\\') then some (.noNul, b)
      else some (.noNul, .fromVec (unescapeBytes b.value))
    else none
  | .toBase64, (_, b) => some (.word, toBase64Impl b)
  | .toBase64Plus, (_, b) =>
    if b.value.isEmpty then some (.arg, .fromStr "+") else some (.arg, toBase64Impl b)

/-! ## Splitters -/

/-- `Encoding`. -/
inductive Encoding where
  | unknown
  | utf8
  | ascii
  deriving DecidableEq, Repr

/-- `Range`, with `end` called `stop`. -/
structure Range where
  start : ℕ
  stop : ℕ
  encoding : Encoding
  deriving DecidableEq, Repr

namespace Range

/-- The length of the range. -/
def len (r : Range) : ℕ := r.stop - r.start

/-- `consume(count, true)`, which is all that the splitter calls: keep at most `count` bytes. -/
def consume (r : Range) (count : ℕ) : Range :=
  let count := min count r.len
  ⟨r.start, r.start + count,
    if 0 < count ∧ r.encoding = .utf8 then .unknown else r.encoding⟩

/-- What the drop of a guard makes of the range, from the one it saved. -/
def restore (r saved : Range) (start stop : Bool) : Range where
  start := if start then saved.start else r.start
  stop := if stop then saved.stop else r.stop
  encoding := if start && stop then saved.encoding else r.encoding

/-- The part of the slice that is in the range. -/
def constrain (r : Range) (slice : List UInt8) : List UInt8 := (slice.take r.stop).drop r.start

end Range

/-- A guard: `saved_range`, and `preserve`. -/
structure SavedIndices where
  saved : Range
  start : Bool
  stop : Bool
  deriving DecidableEq, Repr

/-- `Splitter<T>`, with the guards that are in force, the innermost first.  A guard is used as the
splitter itself, and dropped before the ones around it. -/
structure Splitter where
  kind : Kind
  str : Bytes
  range : Range
  guards : List SavedIndices
  deriving DecidableEq, Repr

namespace Splitter

/-- `Splitter::new`. -/
def new (kind : Kind) (str : Bytes) : Splitter :=
  ⟨kind, str, ⟨0, str.value.length, if str.utf8 = .valid then .utf8 else .unknown⟩, []⟩

variable (s : Splitter)

/-- `as_slice`: what is left of the string. -/
def asSlice : List UInt8 := s.range.constrain s.str.value

/-- `is_utf8_lazy`. -/
def isUtf8Lazy : Bool := s.range.encoding ≠ .unknown

/-- `self.range.start += count`. -/
def advance (count : ℕ) : Splitter := { s with range.start := s.range.start + count }

/-- `save_start`, `save_end` and `save`: a guard that restores these ends of the range. -/
def save (start stop : Bool) : Splitter := { s with guards := ⟨s.range, start, stop⟩ :: s.guards }

/-- `clone`, which through a guard clones the splitter without it. -/
def clone : Splitter := { s with guards := [] }

/-- The innermost guard is dropped. -/
def drop : Splitter :=
  match s.guards with
  | [] => s
  | g :: guards => { s with range := s.range.restore g.saved g.start g.stop, guards }

/-- `check_encoding`; it leaves the splitter as it is where the source returns an error. -/
def checkEncoding : Splitter :=
  if s.range.encoding ≠ .ascii then
    match s.asSlice.findIdx? fun c => !isAscii c with
    | some idx =>
      if Valid (s.asSlice.drop idx) then { s with range.encoding := .utf8 } else s
    | none => { s with range.encoding := .ascii }
  else s

/-- `next_byte`, without the byte. -/
def nextByte : Splitter :=
  match s.asSlice.head? with
  | some b =>
    { s with range := ⟨s.range.start + 1, s.range.stop,
      if !isAscii b then .unknown else s.range.encoding⟩ }
  | none => s

/-- `rnext_byte`, without the byte. -/
def rnextByte : Splitter :=
  match s.asSlice.getLast? with
  | some b =>
    { s with range := ⟨s.range.start, s.range.stop - 1,
      if !isAscii b then .unknown else s.range.encoding⟩ }
  | none => s

/-- The two `consume_*` methods: move past the leading bytes that satisfy `f`. -/
def consumeWhile (f : UInt8 → Bool) : Splitter :=
  match s.asSlice.findIdx? fun b => !f b with
  | some idx => s.advance idx
  | none => { s with range.start := s.range.stop }

/-- The position of the first byte that a closure accepts.  What the closure answers may depend on
the bytes that it saw before. -/
def position (f : List UInt8 → UInt8 → Bool) (seen : List UInt8) : List UInt8 → Option ℕ
  | [] => none
  | b :: rest => if f seen b then some seen.length else position f (seen ++ [b]) rest

/-- `until_byte` and the methods like it. -/
def untilByte (f : List UInt8 → UInt8 → Bool) : Splitter :=
  match position f [] s.asSlice with
  | some idx => { s with range := s.range.consume idx }
  | none => s

/-- `until_byte_eq`. -/
def untilByteEq (b : UInt8) : Splitter :=
  match s.asSlice.findIdx? (· == b) with
  | some idx =>
    { s with range := ⟨s.range.start, s.range.start + idx,
      if s.range.encoding = .utf8 ∧ !isAscii b then .unknown else s.range.encoding⟩ }
  | none => s

/-- `until_count`. -/
def untilCount (len : ℕ) : Splitter := { s with range := s.range.consume len }

/-- `using_value` of a newtype. -/
def extract (slice : List UInt8) : Bytes :=
  s.str.usingValue slice (if s.isUtf8Lazy then .valid else .recheck)

/-- What `rest` returns, which does not change the splitter. -/
def peekRest (U : Kind) : Except InvalidString Bytes :=
  match U.type.checkOthers s.asSlice with
  | some e => .error e
  | none => .ok (s.extract s.asSlice)

/-- What `string` returns, before it takes it off. -/
def peekString (U : Kind) (requireRest : Bool) : Except InvalidString Bytes :=
  match s.asSlice.findIdx? U.type.isInvalid with
  | some idx =>
    if !requireRest then
      match U.type.checkOthers (s.asSlice.take idx) with
      | some e => .error e
      | none => .ok (s.extract (s.asSlice.take idx))
    else .error (.byte (s.asSlice.getD idx 0))
  | none =>
    match U.type.checkOthers s.asSlice with
    | some e => .error e
    | none => .ok (s.extract s.asSlice)

end Splitter

/-- The methods of a splitter, or of its innermost guard, that return no string. -/
inductive SplitterOp where
  | nextByte
  | rnextByte
  | consumeInvalid (U : Kind)
  | consumeWhitespace
  | untilByte (f : List UInt8 → UInt8 → Bool)
  | untilByteEq (b : UInt8)
  | untilCount (len : ℕ)
  | checkEncoding
  | save (start stop : Bool)
  | drop
  | clone

/-- The splitter after a method. -/
def SplitterOp.apply : SplitterOp → Splitter → Splitter
  | .nextByte, s => s.nextByte
  | .rnextByte, s => s.rnextByte
  | .consumeInvalid U, s => s.consumeWhile U.type.isInvalid
  | .consumeWhitespace, s => s.consumeWhile isAsciiWhitespace
  | .untilByte f, s => s.untilByte f
  | .untilByteEq b, s => s.untilByteEq b
  | .untilCount len, s => s.untilCount len
  | .checkEncoding, s => s.checkEncoding
  | .save start stop, s => s.save start stop
  | .drop, s => s.drop
  | .clone, s => s.clone

/-- The methods of a splitter that return a string. -/
inductive Extraction where
  | peekString (U : Kind) (requireRest : Bool)
  | string (U : Kind) (requireRest : Bool)
  | stringOrDefault (U : Kind) (requireRest : Bool)
  | peekRest (U : Kind)
  | rest (U : Kind)
  | restOrDefault (U : Kind)
  deriving DecidableEq, Repr

namespace Extraction

/-- The kind of the string that is returned. -/
def kind : Extraction → Kind
  | peekString U _ => U
  | string U _ => U
  | stringOrDefault U _ => U
  | peekRest U => U
  | rest U => U
  | restOrDefault U => U

/-- What is extracted: the bytes up to the next one that is invalid, or the rest. -/
def peek (s : Splitter) : Extraction → Except InvalidString Bytes
  | peekString U requireRest => s.peekString U requireRest
  | string U requireRest => s.peekString U requireRest
  | stringOrDefault U requireRest => s.peekString U requireRest
  | peekRest U => s.peekRest U
  | rest U => s.peekRest U
  | restOrDefault U => s.peekRest U

/-- The kinds that can be asked for. -/
def allowed (s : Splitter) : Extraction → Bool
  | peekString _ _ => true
  | string _ _ => true
  | stringOrDefault U _ => U.hasDefault
  | peekRest U => s.kind.into U
  | rest U => s.kind.into U
  | restOrDefault U => s.kind.into U && U.hasDefault

/-- Whether what is extracted is consumed. -/
def consumes : Extraction → Bool
  | peekString _ _ => false
  | peekRest _ => false
  | _ => true

/-- Whether the default takes the place of an error. -/
def orDefault : Extraction → Bool
  | stringOrDefault _ _ => true
  | restOrDefault _ => true
  | _ => false

/-- The string that is returned, and the splitter after it; nothing where the method cannot be
called or returns an error. -/
def run (e : Extraction) (s : Splitter) : Option (Bytes × Splitter) :=
  if e.allowed s then
    match e.peek s with
    | .ok b => some (b, if e.consumes then s.advance b.value.length else s)
    | .error _ => if e.orDefault then some (.default, s) else none
  else none

end Extraction

/-! ## Builders -/

/-- `Builder<T>`. -/
structure Builder where
  kind : Kind
  bytes : List UInt8
  utf8 : Bool
  deriving DecidableEq, Repr

namespace Builder

/-- `Builder::new`. -/
def new (kind : Kind) (init : Bytes) : Builder := ⟨kind, init.value, init.utf8 = .valid⟩

variable (b : Builder)

/-- `append_unchecked`. -/
def appendUnchecked (string : List UInt8) (utf8 : Bool) : Builder :=
  { b with utf8 := b.utf8 && utf8, bytes := b.bytes ++ string }

/-- `append`. -/
def append (string : Bytes) : Builder := b.appendUnchecked string.value (string.utf8 = .valid)

/-- `try_append`, `try_append_str` and `try_push`: the builder is left as it is where the source
returns an error. -/
def tryAppendUnchecked (string : List UInt8) (utf8 : Bool) : Builder :=
  if string.any b.kind.type.isInvalid then b else b.appendUnchecked string utf8

/-- `try_append`. -/
def tryAppend (string : List UInt8) : Builder := b.tryAppendUnchecked string (string.all isAscii)

/-- `try_append` of a `str`, which is UTF-8. -/
def tryAppendStr (string : List UInt8) : Builder := b.tryAppendUnchecked string true

/-- `try_push`. -/
def tryPush (byte : UInt8) : Builder := b.tryAppendUnchecked [byte] (isAscii byte)

/-- `check_utf8`. -/
def checkUtf8 : Builder := if Valid b.bytes then { b with utf8 := true } else b

/-- `build`. -/
def build : Bytes :=
  if b.utf8 then .ofVec b.bytes .valid false else .ofVec b.bytes .unknown false

end Builder

/-- The methods of a builder, `append` apart. -/
inductive BuilderOp where
  | tryAppend (string : List UInt8)
  | tryAppendStr (string : String)
  | tryPush (byte : UInt8)
  | tryPushChar (c : Char)
  | checkUtf8
  deriving DecidableEq

/-- The builder after a method. -/
def BuilderOp.apply : BuilderOp → Builder → Builder
  | .tryAppend string, b => b.tryAppend string
  | .tryAppendStr string, b => b.tryAppendStr (strBytes string)
  | .tryPush byte, b => b.tryPush byte
  | .tryPushChar c, b => b.tryAppendStr (String.utf8EncodeChar c)
  | .checkUtf8, b => b.checkUtf8

/-! ## What can be made -/

/-- A string, a splitter or a builder. -/
inductive Object where
  | str (k : Kind) (b : Bytes)
  | splitter (s : Splitter)
  | builder (b : Builder)

/-- **What can be made** by calling methods in any order: those methods of strings that are in
`Ops`, and guards being dropped where `Drops` allows it. -/
inductive Obtainable [Base64.Engine] (Ops : StrOp → Prop) (Drops : Splitter → Prop) :
    Object → Prop
  | empty (k : Kind) : k.hasDefault = true → Obtainable Ops Drops (.str k .empty)
  | default (k : Kind) : k.hasDefault = true → Obtainable Ops Drops (.str k .default)
  /-- `Bytes::from_bytes`. -/
  | fromBytes (value : List UInt8) : Obtainable Ops Drops (.str .bytes (.fromBytes value))
  /-- `Bytes::from`, of a `Vec` or a slice. -/
  | fromVec (value : List UInt8) : Obtainable Ops Drops (.str .bytes (.fromVec value))
  /-- `Bytes::from`, of a `String` or a `str`. -/
  | fromString (value : String) : Obtainable Ops Drops (.str .bytes (.fromString value))
  | fromStr (k : Kind) (value : String) : k.type.findInvalid (strBytes value) = none →
    Obtainable Ops Drops (.str k (.fromStr value))
  | fromSecret (k : Kind) (value : List UInt8) : k.type.findInvalid value = none →
    Obtainable Ops Drops (.str k (.fromSecret value))
  | strOp (o : StrOp) (k k' : Kind) (b b' : Bytes) : Ops o → Obtainable Ops Drops (.str k b) →
    o.apply (k, b) = some (k', b') → Obtainable Ops Drops (.str k' b')
  | splitterNew (k : Kind) (b : Bytes) : Obtainable Ops Drops (.str k b) →
    Obtainable Ops Drops (.splitter (.new k b))
  | splitterOp (o : SplitterOp) (s : Splitter) : Obtainable Ops Drops (.splitter s) →
    (o = .drop → Drops s) → Obtainable Ops Drops (.splitter (o.apply s))
  | extracted (e : Extraction) (s s' : Splitter) (b : Bytes) :
    Obtainable Ops Drops (.splitter s) → e.run s = some (b, s') →
    Obtainable Ops Drops (.str e.kind b)
  | splitterAfter (e : Extraction) (s s' : Splitter) (b : Bytes) :
    Obtainable Ops Drops (.splitter s) → e.run s = some (b, s') →
    Obtainable Ops Drops (.splitter s')
  | builderNew (k : Kind) (b : Bytes) : Obtainable Ops Drops (.str k b) →
    Obtainable Ops Drops (.builder (.new k b))
  | builderOp (o : BuilderOp) (b : Builder) : Obtainable Ops Drops (.builder b) →
    Obtainable Ops Drops (.builder (o.apply b))
  | builderAppend (k : Kind) (string : Bytes) (b : Builder) : Obtainable Ops Drops (.builder b) →
    Obtainable Ops Drops (.str k string) → k.into b.kind = true →
    Obtainable Ops Drops (.builder (b.append string))
  | build (b : Builder) : Obtainable Ops Drops (.builder b) →
    Obtainable Ops Drops (.str b.kind b.build)

end Flagged

end Vinezombie
