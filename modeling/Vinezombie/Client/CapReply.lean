import Vinezombie.Client.Auth
import Vinezombie.Client.Cap

/-!
# Replies of several lines

A server answers `CAP LS` in as many lines as it likes, with `*` before the capabilities on each of
them but the last.  A capability is named by a token, which is a key or a key with a value, and the
tokens of a line have spaces between them.  Nothing else about the lines is given: a line may have
no token, its last argument may be a word, and a key may be named on several lines.

* `parseCaps_of_separated`: the loop of `parse` over the tokens of a line.
* `parse_of_isLine`: what `parse` returns for a line.
* `IsReply.parse_combine`: what the lines of a reply are combined into.
-/

namespace Vinezombie

open Library Library.KeyedList Library.Scan

namespace Cap

/-! ## Tokens -/

/-- A capability with its value, if it has one. -/
structure Token where
  key : Key
  value : Option Word
  starts : ∀ b ∈ key.bytes.head?, isAsciiWhitespace b = false

namespace Token

/-- What follows the key. -/
def suffix : Option Word → List UInt8
  | none => []
  | some value => byte '=' :: value.bytes

/-- `key`, or `key=value`. -/
def bytes (token : Token) : List UInt8 := token.key.bytes ++ suffix token.value

/-- The value that a token gives its key. -/
def given (token : Token) : Word := token.value.getD .empty

theorem head?_suffix {value : Option Word} {b : UInt8} (hb : b ∈ (suffix value).head?) :
    StringType.key.isInvalid b = true := by
  cases value with
  | none => exact absurd hb (by simp [suffix])
  | some value =>
    obtain rfl : byte '=' = b := by simpa [suffix] using hb
    decide

theorem isInvalid_bytes (token : Token) :
    ∀ b ∈ token.bytes, StringType.word.isInvalid b = false := by
  intro b hb
  rcases List.mem_append.mp hb with hb | hb
  · exact Str.Conv.byte_valid (T := .key) b (token.key.isInvalid_eq_false hb)
  · cases hv : token.value with
    | none =>
      rw [hv] at hb
      exact absurd hb (by simp [suffix])
    | some value =>
      rw [hv] at hb
      rcases List.mem_cons.mp hb with rfl | hb
      · decide
      · exact value.isInvalid_eq_false hb

/-- A token begins with a byte of the key. -/
theorem exists_bytes_eq_cons (token : Token) :
    ∃ b rest, token.bytes = b :: rest ∧ isAsciiWhitespace b = false := by
  obtain ⟨b, rest, hb, -⟩ := token.key.exists_eq_cons rfl
  exact ⟨b, rest ++ suffix token.value, by rw [bytes, hb, List.cons_append],
    token.starts b (by rw [hb]; rfl)⟩

end Token

/-- **A token is read back.** -/
theorem parseCap_of_bytes {word : Word} {token : Token} (h : word.bytes = token.bytes) :
    parseCap word = some (token.key, token.given) := by
  have hslice : (Splitter.new word).asSlice = token.key.bytes ++ Token.suffix token.value :=
    (Splitter.asSlice_new word).trans h
  have hpre : Splitter.validPrefix .key (Splitter.new word).asSlice = token.key.bytes := by
    rw [hslice]
    exact Splitter.validPrefix_append (fun b hb => token.key.isInvalid_eq_false hb)
      fun b hb => Token.head?_suffix hb
  obtain ⟨key, hkey, hstring⟩ := (Splitter.new word).string_of_checkOthers_none (U := .key)
    (by rw [hpre]; exact token.key.checkOthers_eq_none)
  obtain rfl : key = token.key := Str.ext (hkey.trans hpre)
  have hafter : ((Splitter.new word).advance token.key.bytes.length).asSlice =
      Token.suffix token.value := by
    rw [Splitter.asSlice_advance, hslice, List.drop_left]
  rw [parseCap, hstring]
  dsimp only
  cases hv : token.value with
  | none =>
    rw [hv] at hafter
    rw [Splitter.nextByte_of_nil _ hafter, Token.given, hv]
    rfl
  | some value =>
    rw [hv] at hafter
    rw [Splitter.nextByte_of_cons _ hafter]
    dsimp only
    rw [if_pos rfl]
    obtain ⟨w, hw, hrest⟩ := (((Splitter.new word).advance token.key.bytes.length).advance
      1).rest_of_checkOthers_none (U := .word) rfl
    rw [Splitter.asSlice_advance, hafter] at hw
    obtain rfl : w = value := Str.ext hw
    rw [unwrap_eq_of_eq_ok (congrArg Prod.fst hrest), Token.given, hv, Option.getD_some]

/-! ## Lines -/

/-- Tokens with spaces between them, and more spaces at the ends if need be. -/
inductive Separated : List Token → List UInt8 → Prop
  | spaces (n : ℕ) : Separated [] (List.replicate n (byte ' '))
  | cons (n : ℕ) (token : Token) {tokens : List Token} {rest : List UInt8} :
    Separated tokens rest → (∀ b ∈ rest.head?, b = byte ' ') →
    Separated (token :: tokens) (List.replicate n (byte ' ') ++ (token.bytes ++ rest))

theorem isAsciiWhitespace_of_mem_replicate {n : ℕ} {b : UInt8}
    (hb : b ∈ List.replicate n (byte ' ')) : isAsciiWhitespace b = true := by
  rw [List.eq_of_mem_replicate hb]
  rfl

/-- **A pass over what begins with a token** takes the token off, and the spaces before it. -/
theorem nextCap_of_token {last : Splitter .line} (h : last.Valid) {n : ℕ} {token : Token}
    {rest : List UInt8}
    (hlast : last.asSlice = List.replicate n (byte ' ') ++ (token.bytes ++ rest))
    (hrest : ∀ b ∈ rest.head?, b = byte ' ') :
    (nextCap last).1.bytes = token.bytes ∧ (nextCap last).2.Valid ∧
      (nextCap last).2.asSlice = rest := by
  obtain ⟨w, hw, hnext⟩ := last.consumeWhitespace.stringOrDefault_eq (U := .word) rfl
  have hslice : last.consumeWhitespace.asSlice = token.bytes ++ rest := by
    obtain ⟨b, l, hb, hws⟩ := token.exists_bytes_eq_cons
    rw [Splitter.asSlice_consumeWhitespace, hlast]
    refine dropWhile_append_of_stop (fun b hb => isAsciiWhitespace_of_mem_replicate hb) ?_
    intro c hc
    obtain rfl : b = c := by simpa [hb] using hc
    exact hws
  have hstop : ∀ b ∈ rest.head?, StringType.word.isInvalid b = true := by
    intro b hb
    rw [hrest b hb]
    rfl
  rw [hslice, Splitter.validPrefix_append token.isInvalid_bytes hstop] at hw
  rw [nextCap, hnext]
  refine ⟨hw, (h.consumeWhile _).advance ?_, ?_⟩
  · show w.bytes.length ≤ last.consumeWhitespace.asSlice.length
    rw [hslice, hw, List.length_append]
    exact Nat.le_add_right _ _
  · rw [Splitter.asSlice_advance, hslice, hw, List.drop_left]

/-- **A pass over spaces** takes them all off, and there is no capability. -/
theorem nextCap_of_spaces {last : Splitter .line} (h : last.Valid) {n : ℕ}
    (hlast : last.asSlice = List.replicate n (byte ' ')) :
    parseCap (nextCap last).1 = none ∧ (nextCap last).2.isEmpty = true := by
  obtain ⟨w, hw, hnext⟩ := last.consumeWhitespace.stringOrDefault_eq (U := .word) rfl
  have hslice : last.consumeWhitespace.asSlice = [] := by
    rw [Splitter.asSlice_consumeWhitespace, hlast, List.dropWhile_eq_nil_iff]
    exact fun b hb => isAsciiWhitespace_of_mem_replicate hb
  obtain rfl : w = .empty := Str.ext (by rw [hw, hslice]; rfl)
  rw [nextCap, hnext]
  refine ⟨show parseCap .empty = none by decide, ?_⟩
  have hvalid : (last.consumeWhitespace.advance 0).Valid :=
    (h.consumeWhile isAsciiWhitespace).advance (Nat.zero_le _)
  refine hvalid.isEmpty_iff.mpr ?_
  rw [Splitter.asSlice_advance]
  exact hslice

/-- **The loop of `parse`** inserts the tokens of a line in their order. -/
theorem parseCaps_of_separated {tokens : List Token} {bytes : List UInt8}
    (htokens : Separated tokens bytes) {last : Splitter .line} (h : last.Valid)
    (hlast : last.asSlice = bytes) (caps : OrderedMap Key Word) :
    parseCaps last caps =
      tokens.foldl (fun caps token => caps.insert token.key token.given) caps := by
  induction htokens generalizing last caps with
  | spaces n =>
    rw [parseCaps]
    split
    · rfl
    · obtain ⟨hnone, hempty⟩ := nextCap_of_spaces h hlast
      rw [hnone]
      dsimp only
      rw [parseCaps, dif_pos hempty]
      rfl
  | cons n token _ hrest ih =>
    obtain ⟨b, l, hb, -⟩ := token.exists_bytes_eq_cons
    have hne : ¬ last.isEmpty = true := by
      rw [h.isEmpty_iff, hlast, hb]
      simp
    obtain ⟨hword, hvalid, hnext⟩ := nextCap_of_token h hlast hrest
    rw [parseCaps, dif_neg hne, parseCap_of_bytes hword]
    exact ih hvalid hnext _

/-! ## Replies -/

/-- A line of a reply to one client.  The arguments before the capabilities are the nick, the
subcommand in letters of either case, and `*` if there are more lines. -/
def IsLine (nick : Nick) (sub : SubCmd) (isLast : Bool) (args : Args) (tokens : List Token) :
    Prop :=
  ∃ subcmd last, args.splitLast =
      (nick.toArg :: subcmd :: if isLast then [] else [Auth.star], some last) ∧
    subcmd.bytes.map toAsciiUppercase = sub.intoCmd.bytes ∧ Separated tokens last.bytes

/-- The lines of a reply to one client, with the tokens of each. -/
inductive IsReply (nick : Nick) (sub : SubCmd) : List (Args × List Token) → Prop
  | last {args : Args} {tokens : List Token} : IsLine nick sub true args tokens →
    IsReply nick sub [(args, tokens)]
  | more {args : Args} {tokens : List Token} {lines : List (Args × List Token)} :
    IsLine nick sub false args tokens → IsReply nick sub lines →
    IsReply nick sub ((args, tokens) :: lines)

/-- The value of each key in its last token. -/
def lastGiven (tokens : List Token) (k : Key) : Option Word :=
  (lookupLast Token.key tokens k).map Token.given

theorem lastGiven_cons (token : Token) (tokens : List Token) (k : Key) :
    lastGiven (token :: tokens) k =
      (lastGiven tokens k).or (if token.key = k then some token.given else none) := by
  rw [lastGiven, lookupLast_cons, Option.map_or, lastGiven]
  congr 1
  split
  · rfl
  · rfl

theorem lastGiven_append (tokens tokens' : List Token) (k : Key) :
    lastGiven (tokens ++ tokens') k = (lastGiven tokens' k).or (lastGiven tokens k) := by
  rw [lastGiven, lookupLast_append, Option.map_or, lastGiven, lastGiven]

theorem get_foldl_insert_tokens (tokens : List Token) (caps : OrderedMap Key Word) (k : Key) :
    (tokens.foldl (fun caps token => caps.insert token.key token.given) caps).get k =
      (lastGiven tokens k).or (caps.get k) := by
  induction tokens generalizing caps with
  | nil => rfl
  | cons token tokens ih =>
    rw [List.foldl_cons, ih, OrderedMap.get_insert, lastGiven_cons, Option.or_assoc]
    congr 1
    split
    · rfl
    · rfl

/-- **A line is parsed.** -/
theorem parse_of_isLine {nick : Nick} {sub : SubCmd} {isLast : Bool} {args : Args}
    {tokens : List Token} (h : IsLine nick sub isLast args tokens) :
    ∃ caps, ServerMsgArgs.parse args = .ok ⟨nick, sub, isLast, caps⟩ ∧
      ∀ k, caps.get k = lastGiven tokens k := by
  obtain ⟨subcmd, last, hargs, hsubcmd, htokens⟩ := h
  refine ⟨_, ?_, fun k => (get_foldl_insert_tokens tokens .empty k).trans (Option.or_none)⟩
  rw [← parseCaps_of_separated htokens (Splitter.valid_new last) (Splitter.asSlice_new last)]
  have hmark : parseIsLast (if isLast then [] else [Auth.star]) = .ok isLast := by
    cases isLast with
    | true => rfl
    | false => decide
  rw [ServerMsgArgs.parse, hargs]
  simp only [Nick.fromSuper_toArg, hsubcmd, SubCmd.fromBytes_intoCmd, hmark]

/-- `combine` with one message after the other, for as long as it returns `None`. -/
def ServerMsgArgs.combineEach (self : ServerMsgArgs) (newer : List ServerMsgArgs) :
    Option ServerMsgArgs :=
  newer.foldlM (fun self newer =>
    match self.combine newer with
    | (none, self) => some self
    | (some _, _) => none) self

namespace IsReply

variable {nick : Nick} {sub : SubCmd} {lines : List (Args × List Token)}

theorem combineEach_cons (isLast : Bool) (caps newer : OrderedMap Key Word)
    (rest : List ServerMsgArgs) :
    ServerMsgArgs.combineEach ⟨nick, sub, false, caps⟩ (⟨nick, sub, isLast, newer⟩ :: rest) =
      ServerMsgArgs.combineEach ⟨nick, sub, isLast, caps.insertAll newer⟩ rest := by
  rw [ServerMsgArgs.combineEach, List.foldlM_cons, ServerMsgArgs.combine, if_neg (by simp)]
  rfl

/-- **The lines behind others** are combined into what was combined before them. -/
theorem exists_combineEach (h : IsReply nick sub lines) :
    ∃ first rest, lines.map (fun line => ServerMsgArgs.parse line.1) = (first :: rest).map .ok ∧
      (first :: rest).map ServerMsgArgs.isLast = List.replicate rest.length false ++ [true] ∧
      ∀ before, ∃ caps,
        ServerMsgArgs.combineEach ⟨nick, sub, false, before⟩ (first :: rest) =
          some ⟨nick, sub, true, caps⟩ ∧
        ∀ k, caps.get k = (lastGiven (lines.flatMap Prod.snd) k).or (before.get k) := by
  induction h with
  | last hline =>
    obtain ⟨caps, hparse, hcaps⟩ := parse_of_isLine hline
    refine ⟨_, [], by rw [List.map_singleton, hparse]; rfl, rfl, fun before => ?_⟩
    refine ⟨before.insertAll caps, combineEach_cons true before caps [], fun k => ?_⟩
    rw [OrderedMap.get_insertAll, hcaps, List.flatMap_singleton]
  | more hline _ ih =>
    obtain ⟨newer, hparse, hnewer⟩ := parse_of_isLine hline
    obtain ⟨first, rest, hparsed, hlast, hcombine⟩ := ih
    refine ⟨_, first :: rest, by rw [List.map_cons, hparse, hparsed, ← List.map_cons], ?_,
      fun before => ?_⟩
    · rw [List.map_cons, hlast, List.length_cons, List.replicate_succ, List.cons_append]
    · obtain ⟨caps, hcaps, hget⟩ := hcombine (before.insertAll newer)
      refine ⟨caps, (combineEach_cons false before newer _).trans hcaps, fun k => ?_⟩
      rw [hget, OrderedMap.get_insertAll, hnewer, List.flatMap_cons, lastGiven_append,
        Option.or_assoc]

/-- **A reply of several lines.**  Every line is parsed and the last one is known to be the last.
None of the others is refused when it is combined with those before it, and what comes of it has for
each key the value of the last token with the key. -/
theorem parse_combine (h : IsReply nick sub lines) :
    ∃ first rest, lines.map (fun line => ServerMsgArgs.parse line.1) = (first :: rest).map .ok ∧
      (first :: rest).map ServerMsgArgs.isLast = List.replicate rest.length false ++ [true] ∧
      ∃ caps, first.combineEach rest = some ⟨nick, sub, true, caps⟩ ∧
        ∀ k, caps.get k = lastGiven (lines.flatMap Prod.snd) k := by
  cases h with
  | last hline =>
    obtain ⟨caps, hparse, hcaps⟩ := parse_of_isLine hline
    refine ⟨_, [], by rw [List.map_singleton, hparse]; rfl, rfl, caps, rfl, fun k => ?_⟩
    rw [hcaps, List.flatMap_singleton]
  | more hline hrest =>
    obtain ⟨before, hparse, hbefore⟩ := parse_of_isLine hline
    obtain ⟨first, rest, hparsed, hlast, hcombine⟩ := hrest.exists_combineEach
    obtain ⟨caps, hcaps, hget⟩ := hcombine before
    refine ⟨_, first :: rest, by rw [List.map_cons, hparse, hparsed, ← List.map_cons], ?_,
      caps, hcaps, fun k => ?_⟩
    · rw [List.map_cons, hlast, List.length_cons, List.replicate_succ, List.cons_append]
    · rw [hget, hbefore, List.flatMap_cons, lastGiven_append]

end IsReply

/-- A token for the key `tls`. -/
def tlsToken (value : Option Word) : Token :=
  ⟨.fromStr "tls", value, fun _ hb => Option.some.inj hb ▸ rfl⟩

/-- A reply that names a key on both of its lines.  The last argument of the second line is a
word. -/
def tlsReply : List (Args × List Token) :=
  [(((Args.ofWords [Auth.star, .fromStr "ls", Auth.star]).add (.fromStr "tls  tls=1 ")).2,
      [tlsToken none, tlsToken (some (.fromStr "1"))]),
    (Args.ofWords [Auth.star, .fromStr "LS", .fromStr "tls=2"],
      [tlsToken (some (.fromStr "2"))])]

theorem parse_combine_twoLines :
    IsReply (.fromStr "*") .ls tlsReply ∧
      ∃ first rest caps,
        tlsReply.map (fun line => ServerMsgArgs.parse line.1) = (first :: rest).map .ok ∧
        ServerMsgArgs.combineEach first rest = some ⟨.fromStr "*", .ls, true, caps⟩ ∧
        caps.get (.fromStr "tls") = some (.fromStr "2") := by
  have hreply : IsReply (.fromStr "*") .ls tlsReply := by
    refine .more ⟨.fromStr "ls", .fromStr "tls  tls=1 ", rfl, by decide, ?_⟩
      (.last ⟨.fromStr "LS", .fromStr "tls=2", rfl, by decide, ?_⟩)
    · refine .cons 0 _ (.cons 2 _ (.spaces 1) ?_) ?_
      · exact fun _ hb => (Option.some.inj hb).symm
      · exact fun _ hb => (Option.some.inj hb).symm
    · exact .cons 0 _ (.spaces 0) fun _ hb => absurd hb (by simp)
  obtain ⟨first, rest, hparsed, -, caps, hcaps, hget⟩ := hreply.parse_combine
  exact ⟨hreply, first, rest, caps, hparsed, hcaps, (hget _).trans (by decide)⟩

end Cap

end Vinezombie
