import Mathlib.Data.Finset.Sort
import Vinezombie.Library.OrderedMap
import Vinezombie.Library.Utf8
import Vinezombie.Message.Codec

/-!
# Capability negotiation

`client/cap.rs` and what the registration handler uses of `names/cap.rs`: the request that is sent
for a set of capabilities, the arguments of a `CAP` message from the server, and the value of the
`sasl` capability.  The `BTreeMap` and the `BTreeSet`s of the source are an `OrderedMap` and
`Finset`s.

Both parsers are loops over a splitter.  Each pass of either takes something off the splitter, which
is what the lemmas before the two definitions say.

* `Cap.req`: the messages that request capabilities.
* `Cap.ServerMsgArgs.parse`, `Cap.ServerMsgArgs.combine`: the arguments of a `CAP` message, and of
  several that are one reply.
* `Cap.Sasl.fromUnion`: the mechanisms that a server supports.
-/

namespace Vinezombie

open Library Library.Scan

/-- Appending to a `Builder<Line>`. -/
def Line.append (a b : Line) : Line where
  bytes := a.bytes ++ b.bytes
  valid := StringType.line.findInvalid_eq_none_iff.mpr ⟨rfl, by
    intro c hc
    rcases List.mem_append.mp hc with hc | hc
    · exact a.isInvalid_eq_false hc
    · exact b.isInvalid_eq_false hc⟩

namespace Cap

/-! ## Names -/

/-- `cmd::CAP`. -/
def cap : Cmd := .fromStr "CAP"

/-- `SASL::NAME`. -/
def sasl : Key := .fromStr "sasl"

/-- `STS::NAME`. -/
def sts : Key := .fromStr "sts"

/-! ## Requests -/

/-- The loop of `req` and the line that is left after it: the lines that are sent. -/
def reqLoop (baseLen : ℕ) : List Key → Line → List Line
  | [], capString => [capString]
  | cap :: caps, capString =>
    if capString.bytes.length + cap.bytes.length < baseLen then
      let capString :=
        if capString.bytes.isEmpty then capString else capString.append (.fromStr " ")
      reqLoop baseLen caps (capString.append cap.toLine)
    else (if capString.bytes.isEmpty then [] else [capString]) ++ reqLoop baseLen caps cap.toLine

/-- `req`: the messages that are sent. -/
def req (caps : List Key) (client : Option Arg) (server : Option Source) : List ClientMsg :=
  let msg := (ClientMsg.new cap).add (.fromStr "REQ")
  let lenMod : ℤ := 4 + ((client.map fun c => c.bytes.length).getD 1 : ℕ)
  let baseLen := (msg.bytesLeft server - lenMod).toNat
  (reqLoop baseLen caps .empty).map msg.add

/-! ## Messages from the server -/

/-- `SubCmd`. -/
inductive SubCmd where
  | ls
  | list
  | ack
  | nak
  | new
  | del
  deriving DecidableEq, Repr

/-- `SubCmd::from_bytes`. -/
def SubCmd.fromBytes (bytes : List UInt8) : Option SubCmd :=
  if bytes = text "LS" then some .ls
  else if bytes = text "LIST" then some .list
  else if bytes = text "ACK" then some .ack
  else if bytes = text "NAK" then some .nak
  else if bytes = text "NEW" then some .new
  else if bytes = text "DEL" then some .del
  else none

/-- `SubCmd::into_cmd`. -/
def SubCmd.intoCmd : SubCmd → Cmd
  | .ls => .fromStr "LS"
  | .list => .fromStr "LIST"
  | .ack => .fromStr "ACK"
  | .nak => .fromStr "NAK"
  | .new => .fromStr "NEW"
  | .del => .fromStr "DEL"

theorem SubCmd.fromBytes_intoCmd (sub : SubCmd) : fromBytes sub.intoCmd.bytes = some sub := by
  cases sub with
  | ls => decide
  | list => decide
  | ack => decide
  | nak => decide
  | new => decide
  | del => decide

/-- `ServerMsgArgs`. -/
structure ServerMsgArgs where
  nick : Nick
  subcmd : SubCmd
  isLast : Bool
  caps : OrderedMap Key Word
  deriving DecidableEq

theorem rest_word_isOk (s : Splitter .word) : (s.rest .word).1.isOk = true := by
  obtain ⟨w, -, h⟩ := s.rest_of_checkOthers_none (U := .word) rfl
  rw [h]
  rfl

/-- One capability with its value, or nothing for a name that is not a `Key`. -/
def parseCap (word : Word) : Option (Key × Word) :=
  match (Splitter.new word).string .key false with
  | (.error _, _) => none
  | (.ok key, word) =>
    match word.nextByte with
    | (none, _) => some (key, .empty)
    | (some sep, word) =>
      if sep = byte '=' then some (key, unwrap (word.rest .word).1 (rest_word_isOk word)) else none

/-- `last.consume_whitespace()` and `last.string_or_default::<Word>(false)`. -/
def nextCap (last : Splitter .line) : Word × Splitter .line :=
  last.consumeWhitespace.stringOrDefault .word false

/-- **A pass takes something off**: whitespace up to the end, or a word. -/
theorem len_nextCap {last : Splitter .line} (h : ¬ last.isEmpty = true) :
    (nextCap last).2.len < last.len := by
  have hpos : 0 < last.stop - last.start := by
    simp only [Splitter.isEmpty, Splitter.len, beq_iff_eq] at h
    omega
  obtain ⟨w, hw, hnext⟩ := last.consumeWhitespace.stringOrDefault_eq (U := .word) rfl
  rw [nextCap, hnext, Splitter.len, Splitter.advance, Splitter.len]
  cases hidx : last.asSlice.findIdx? fun b => !isAsciiWhitespace b with
  | none =>
    have hws : last.consumeWhitespace = { last with start := last.stop } := by
      rw [Splitter.consumeWhitespace, Splitter.consumeWhile, hidx]
    rw [hws]
    show last.stop - (last.stop + w.bytes.length) < last.stop - last.start
    omega
  | some idx =>
    have hws : last.consumeWhitespace = last.advance idx := by
      rw [Splitter.consumeWhitespace, Splitter.consumeWhile, hidx]
    -- the byte behind the whitespace begins the word
    obtain ⟨hlt, hbyte, -⟩ := List.findIdx?_eq_some_iff_getElem.mp hidx
    have hslice : last.consumeWhitespace.asSlice =
        last.asSlice[idx] :: last.asSlice.drop (idx + 1) := by
      rw [hws, Splitter.asSlice_advance, List.drop_eq_getElem_cons hlt]
    have hvalid : StringType.word.isInvalid last.asSlice[idx] = false :=
      Args.isInvalid_arg_of_not_whitespace
        (last.isInvalid_asSlice _ (List.getElem_mem hlt)) (by simpa using hbyte)
    have hwpos : 0 < w.bytes.length := by
      rw [hw, hslice, Splitter.validPrefix, List.takeWhile_cons_of_pos (by simp [hvalid])]
      exact Nat.succ_pos _
    rw [hws]
    show last.stop - (last.start + idx + w.bytes.length) < last.stop - last.start
    omega

/-- The loop of `parse`, with the capabilities that were found. -/
def parseCaps (last : Splitter .line) (caps : OrderedMap Key Word) : OrderedMap Key Word :=
  if _h : last.isEmpty = true then caps
  else
    match parseCap (nextCap last).1 with
    | none => parseCaps (nextCap last).2 caps
    | some (key, value) => parseCaps (nextCap last).2 (caps.insert key value)
termination_by last.len
decreasing_by
  · exact len_nextCap _h
  · exact len_nextCap _h

/-- Whether the message is the last of a multi-line reply, from the arguments before the last. -/
def parseIsLast : List Arg → Except ParseError Bool
  | [] => .ok true
  | lastArg :: _ =>
    if lastArg.bytes = text "*" then .ok false
    else .error (.invalidField "is_last"
      (text "expected * as first CAP argument, got " ++ Library.Utf8.lossy lastArg.bytes))

/-- `ServerMsgArgs::parse`. -/
def ServerMsgArgs.parse (args : Args) : Except ParseError ServerMsgArgs :=
  match args.splitLast with
  | (_, none) => .error (.missingField "caps")
  | ([], some _) => .error (.missingField "nick")
  | (nick :: args, some last) =>
    match Nick.fromSuper nick with
    | .error e => .error (.invalidNick e)
    | .ok nick =>
      match args with
      | [] => .error (.missingField "subcmd")
      | subcmd :: args =>
        let subcmd := subcmd.bytes.map toAsciiUppercase
        match SubCmd.fromBytes subcmd with
        | none =>
          .error (.invalidField "subcmd"
            (text "unknown CAP subcommand: " ++ Library.Utf8.lossy subcmd))
        | some subcmd =>
          match parseIsLast args with
          | .error e => .error e
          | .ok isLast => .ok ⟨nick, subcmd, isLast, parseCaps (Splitter.new last) .empty⟩

/-- `ServerMsgArgs::combine`: `newer` again if it cannot be combined, and `self` afterwards. -/
def ServerMsgArgs.combine (self newer : ServerMsgArgs) : Option ServerMsgArgs × ServerMsgArgs :=
  if self.isLast = true ∨ self.subcmd ≠ newer.subcmd ∨ self.nick ≠ newer.nick then
    (some newer, self)
  else (none, { self with isLast := newer.isLast, caps := self.caps.insertAll newer.caps })

/-! ## The `sasl` capability -/

namespace Sasl

/-- `splitter.save_end().until_byte_eq(b',').rest_or_default::<Word>()`. -/
def untilComma (s : Splitter .word) : Word × Splitter .word :=
  s.saveEnd fun s => (s.untilByteEq (byte ',')).restOrDefault .word

theorem untilComma_spec {s : Splitter .word} (h : s.Valid) :
    (untilComma s).2.Valid ∧
      (untilComma s).2.asSlice = s.asSlice.dropWhile fun c => !(c == byte ',') := by
  obtain ⟨w, hw, hrest⟩ := (s.untilByteEq (byte ',')).restOrDefault_eq (U := .word) rfl
  rw [Splitter.asSlice_untilByteEq] at hw
  simp only [untilComma, Splitter.saveEnd, hrest]
  exact Splitter.restore_untilByteEq h (congrArg List.length hw)

/-- A pass takes at least the comma off. -/
theorem length_nextByte_untilComma {s : Splitter .word} (h : s.Valid)
    (hne : ¬ s.isEmpty = true) :
    (untilComma s).2.nextByte.2.asSlice.length < s.asSlice.length := by
  have hpos : 0 < s.asSlice.length :=
    List.length_pos_iff.mpr fun hnil => hne (h.isEmpty_iff.mpr hnil)
  have hle : (s.asSlice.dropWhile fun c => !(c == byte ',')).length ≤ s.asSlice.length :=
    (List.dropWhile_sublist _).length_le
  rw [Splitter.asSlice_nextByte, (untilComma_spec h).2, List.length_tail]
  omega

/-- The loop of `from_union`, with the names that were found. -/
def namesLoop (splitter : Splitter .word) (h : splitter.Valid) (names : Finset Word) :
    Finset Word :=
  if _hne : splitter.isEmpty = true then names
  else
    let name := (untilComma splitter).1
    namesLoop (untilComma splitter).2.nextByte.2 (untilComma_spec h).1.nextByte
      (if name.bytes.isEmpty then names else insert name.toUppercase names)
termination_by splitter.asSlice.length
decreasing_by exact length_nextByte_untilComma h _hne

/-- `SASL::from_union`. -/
def fromUnion (input : Key × Word) : Except ParseError (Finset Word) :=
  .ok (namesLoop (Splitter.new input.2) (Splitter.valid_new _) ∅)

end Sasl

end Cap

end Vinezombie
