import Vinezombie.Client.Logic
import Vinezombie.Client.Register
import Vinezombie.Message.Ctcp
import Mathlib.Data.Nat.Digits.Lemmas

/-!
# Handlers that reply

`client/handlers/ping.rs` and `client/handlers/autoreply.rs`.  `Ping` sends a `PING` with a number as
its argument, and waits for a `PONG` with that number.  `AutoPong` replies to a `PING`, and
`CtcpVersion` to the CTCP queries `VERSION` and `SOURCE`, with a `NOTICE`.

`Ping` gets its number from `mangle`, which hashes with data of the platform and is a parameter here,
as are the clocks.

* `readOctal_eq`: what the loop of `Ping` reads.  `Ping.takes_reply`: which messages it takes for the
  reply, and what is echoed to it.
* `CtcpVersion.reply_eq_some_iff`: which messages are replied to, and how.
* `exchange_isSome`: two clients that reply to each other do not stop.
-/

namespace Vinezombie

open Library

/-! ## Octal numbers -/

/-- The byte is in `b'0'..=b'7'`. -/
def IsOctal (b : UInt8) : Prop := byte '0' ≤ b ∧ b ≤ byte '7'

instance (b : UInt8) : Decidable (IsOctal b) := inferInstanceAs (Decidable (_ ∧ _))

/-- The loop in `handle` of `Ping`. -/
def readOctal (value : UInt32) : List UInt8 → Option UInt32
  | [] => some value
  | b :: bytes =>
    if ¬ IsOctal b then none else readOctal (value <<< 3 ||| (b - byte '0').toUInt32) bytes

/-- `format!("{n:o}")`. -/
def octal (n : UInt32) : List UInt8 :=
  if n = 0 then text "0" else (Nat.digits 8 n.toNat).reverse.map fun d => byte '0' + UInt8.ofNat d

/-- The number that octal digits are. -/
def octalValue (bytes : List UInt8) : ℕ :=
  Nat.ofDigits 8 (bytes.reverse.map fun b => (b - byte '0').toNat)

theorem IsOctal.lt {b : UInt8} (h : IsOctal b) : (b - byte '0').toNat < 8 := by
  have hle : b.toNat ≤ 55 := UInt8.le_iff_toNat_le.mp h.2
  have hbyte : (byte '0').toNat = 48 := rfl
  rw [UInt8.toNat_sub_of_le _ _ h.1, hbyte]
  omega

theorem octalValue_cons (b : UInt8) (bytes : List UInt8) :
    octalValue (b :: bytes) = octalValue bytes + 8 ^ bytes.length * (b - byte '0').toNat := by
  unfold octalValue
  rw [List.reverse_cons, List.map_append, Nat.ofDigits_append, List.length_map,
    List.length_reverse, List.map_singleton, Nat.ofDigits_singleton]

/-- What a digit makes of the value. -/
theorem toNat_shiftLeft_or {value : UInt32} {d : UInt8} (h : d.toNat < 8) :
    (value <<< 3 ||| d.toUInt32).toNat = (8 * value.toNat + d.toNat) % 2 ^ 32 := by
  have hshift : (value <<< 3).toNat = (value.toNat % 2 ^ 29) <<< 3 := by
    rw [UInt32.toNat_shiftLeft, Nat.shiftLeft_eq, Nat.shiftLeft_eq]
    exact Nat.mul_mod_mul_right (2 ^ 3) value.toNat (2 ^ 29)
  rw [UInt32.toNat_or, hshift, UInt8.toNat_toUInt32,
    ← Nat.shiftLeft_add_eq_or_of_lt (show d.toNat < 2 ^ 3 from h), Nat.shiftLeft_eq]
  omega

/-- **What the loop reads**: the number, as far as 32 bits go. -/
theorem readOctal_eq {bytes : List UInt8} (h : ∀ b ∈ bytes, IsOctal b) (value : UInt32) :
    readOctal value bytes =
      some (UInt32.ofNat (octalValue bytes + 8 ^ bytes.length * value.toNat)) := by
  induction bytes generalizing value with
  | nil => simp [readOctal, octalValue]
  | cons b bytes ih =>
    have hb := h b List.mem_cons_self
    rw [readOctal, if_neg (not_not_intro hb), ih fun c hc => h c (List.mem_cons_of_mem _ hc),
      Option.some.injEq, ← UInt32.toNat_inj, UInt32.toNat_ofNat', UInt32.toNat_ofNat',
      toNat_shiftLeft_or hb.lt, octalValue_cons, List.length_cons]
    have hmul : (8 ^ bytes.length * ((8 * value.toNat + (b - byte '0').toNat) % 2 ^ 32)) ≡
        8 ^ bytes.length * (8 * value.toNat + (b - byte '0').toNat) [MOD 2 ^ 32] :=
      (Nat.mod_modEq _ _).mul_left _
    calc (octalValue bytes +
          8 ^ bytes.length * ((8 * value.toNat + (b - byte '0').toNat) % 2 ^ 32)) % 2 ^ 32
        = (octalValue bytes +
            8 ^ bytes.length * (8 * value.toNat + (b - byte '0').toNat)) % 2 ^ 32 :=
          hmul.add_left _
      _ = (octalValue bytes + 8 ^ bytes.length * (b - byte '0').toNat +
            8 ^ (bytes.length + 1) * value.toNat) % 2 ^ 32 := by
          congr 1
          ring

theorem readOctal_of_not {bytes : List UInt8} (h : ¬ ∀ b ∈ bytes, IsOctal b) (value : UInt32) :
    readOctal value bytes = none := by
  induction bytes generalizing value with
  | nil => simp at h
  | cons b bytes ih =>
    rw [readOctal]
    by_cases hb : IsOctal b
    · rw [if_neg (not_not_intro hb)]
      exact ih (fun hall => h (List.forall_mem_cons.mpr ⟨hb, hall⟩)) _
    · rw [if_pos hb]

theorem readOctal_eq_some_iff {bytes : List UInt8} {n : UInt32} :
    readOctal 0 bytes = some n ↔
      (∀ b ∈ bytes, IsOctal b) ∧ octalValue bytes ≡ n.toNat [MOD 2 ^ 32] := by
  by_cases h : ∀ b ∈ bytes, IsOctal b
  · rw [readOctal_eq h, Option.some.injEq, ← UInt32.toNat_inj, UInt32.toNat_ofNat']
    simp only [UInt32.toNat_zero, Nat.mul_zero, Nat.add_zero, Nat.ModEq,
      Nat.mod_eq_of_lt n.toNat_lt]
    exact ⟨fun hn => ⟨h, hn⟩, fun hn => hn.2⟩
  · rw [readOctal_of_not h]
    simp [h]

theorem isOctal_add {d : ℕ} (h : d < 8) :
    IsOctal (byte '0' + UInt8.ofNat d) ∧ (byte '0' + UInt8.ofNat d - byte '0').toNat = d := by
  have hall : ∀ d : Fin 8, IsOctal (byte '0' + UInt8.ofNat d) ∧
      (byte '0' + UInt8.ofNat d - byte '0').toNat = d := by decide
  exact hall ⟨d, h⟩

theorem isOctal_octal {n : UInt32} {b : UInt8} (h : b ∈ octal n) : IsOctal b := by
  unfold octal at h
  split at h
  · rw [List.mem_singleton.mp h]
    decide
  · obtain ⟨d, hd, rfl⟩ := List.mem_map.mp h
    exact (isOctal_add (Nat.digits_lt_base (by decide) (List.mem_reverse.mp hd))).1

theorem IsOctal.isInvalid_eq_false {b : UInt8} (h : IsOctal b) :
    StringType.arg.isInvalid b = false :=
  isInvalidForWord_of_class (f := fun b => decide (IsOctal b)) (decide_eq_true h) (by decide)

theorem octal_ne_nil (n : UInt32) : octal n ≠ [] := by
  unfold octal
  split
  · decide
  · rename_i hne
    have hpos : n.toNat ≠ 0 := fun hzero => hne (UInt32.toNat_inj.mp hzero)
    have hdigits : Nat.digits 8 n.toNat ≠ [] := Nat.digits_ne_nil_iff_ne_zero.mpr hpos
    simpa using hdigits

theorem argFirstCheck_octal (n : UInt32) : argFirstCheck (octal n) = none := by
  obtain ⟨b, rest, hcons⟩ := List.exists_cons_of_ne_nil (octal_ne_nil n)
  refine argFirstCheck_eq_none_iff.mpr ⟨b, rest, hcons, fun hcolon => ?_⟩
  have hb : IsOctal b := isOctal_octal (hcons ▸ List.mem_cons_self)
  rw [hcolon] at hb
  exact absurd hb (by decide)

/-- **A number is read back from its octal digits.** -/
theorem octalValue_octal (n : UInt32) : octalValue (octal n) = n.toNat := by
  unfold octal
  split
  · rename_i hzero
    rw [hzero]
    rfl
  · have hdigits : ((Nat.digits 8 n.toNat).map fun d =>
        (byte '0' + UInt8.ofNat d - byte '0').toNat) = Nat.digits 8 n.toNat := by
      refine (List.map_congr_left fun d hd => ?_).trans (List.map_id _)
      exact (isOctal_add (Nat.digits_lt_base (by decide) hd)).2
    unfold octalValue
    rw [← List.map_reverse, List.reverse_reverse, List.map_map]
    exact (congrArg (Nat.ofDigits 8) hdigits).trans (Nat.ofDigits_digits 8 n.toNat)

/-! ## Pings -/

/-- `Ping`. -/
structure Ping where
  instant : ℕ
  deriving DecidableEq

namespace Ping

variable (mangle : ℕ → UInt32)

/-- The argument of the `PING`. -/
def hash (self : Ping) : Arg where
  bytes := octal (mangle self.instant)
  valid := StringType.arg.findInvalid_eq_none_iff.mpr
    ⟨argFirstCheck_octal _, fun _ hb => (isOctal_octal hb).isInvalid_eq_false⟩

/-- `queue_msgs`. -/
def queueMsgs {L A : Type} (self : Ping) (queue : QueueEditGuard ClientMsg L A) :
    QueueEditGuard ClientMsg L A :=
  queue.push ((ClientMsg.new (.fromStr "PING")).addWord (self.hash mangle))

/-- `handle`, where the clock shows `now`: what it sends before it finishes, if it does. -/
def handle (now : ℕ) (self : Ping) (msg : ServerMsg) : Option (Option Source × ℕ) :=
  if msg.kind.asBytes = text "PONG" then
    match msg.args.splitLast.2 with
    | some last =>
      match readOctal 0 last.bytes with
      | some value =>
        if mangle self.instant = value then
          some (msg.source.map Source.owningMerged, now - self.instant)
        else none
      | none => none
    | none => none
  else none

/-- Its last argument is in octal digits a number with these 32 bits. -/
def Spells (n : UInt32) (msg : ServerMsg) : Prop :=
  ∃ last, msg.args.splitLast.2 = some last ∧ (∀ b ∈ last.bytes, IsOctal b) ∧
    octalValue last.bytes ≡ n.toNat [MOD 2 ^ 32]

theorem handle_eq_some_iff {now : ℕ} {self : Ping} {msg : ServerMsg} {v : Option Source × ℕ} :
    handle mangle now self msg = some v ↔
      msg.kind.asBytes = text "PONG" ∧ Spells (mangle self.instant) msg ∧
        v = (msg.source, now - self.instant) := by
  have hsource : msg.source.map Source.owningMerged = msg.source := by
    cases msg.source with
    | none => rfl
    | some source => rw [Option.map_some, Source.owningMerged_eq]
  have hread (last : Line) : (∃ value, readOctal 0 last.bytes = some value ∧
      mangle self.instant = value) ↔ (∀ b ∈ last.bytes, IsOctal b) ∧
        octalValue last.bytes ≡ (mangle self.instant).toNat [MOD 2 ^ 32] := by
    rw [← readOctal_eq_some_iff]
    exact ⟨fun ⟨_, hvalue, heq⟩ => heq ▸ hvalue, fun hvalue => ⟨_, hvalue, rfl⟩⟩
  unfold handle Spells
  rw [hsource]
  by_cases hkind : msg.kind.asBytes = text "PONG"
  · rw [if_pos hkind]
    cases hlast : msg.args.splitLast.2 with
    | none => simp
    | some last =>
      simp only [Option.some.injEq, exists_eq_left', ← hread last]
      cases hvalue : readOctal 0 last.bytes with
      | none => simp
      | some value =>
        by_cases heq : mangle self.instant = value
        · simp [hkind, heq, eq_comm]
        · simp [heq, Ne.symm heq]
  · rw [if_neg hkind]
    simp [hkind]

/-- A `PONG` with the number of a `Ping` is taken for the reply by a `Ping` exactly if it has the same
number. -/
theorem handle_hash (now : ℕ) (self other : Ping) {msg : ServerMsg}
    (hkind : msg.kind.asBytes = text "PONG")
    (hlast : msg.args.splitLast.2 = some (Args.toLine (other.hash mangle))) :
    handle mangle now self msg =
      if mangle self.instant = mangle other.instant then some (msg.source, now - self.instant)
      else none := by
  have hspells : Spells (mangle self.instant) msg ↔ mangle self.instant = mangle other.instant := by
    have hbytes : (Args.toLine (other.hash mangle)).bytes = octal (mangle other.instant) := rfl
    simp only [Spells, hlast, Option.some.injEq, exists_eq_left', hbytes, octalValue_octal]
    rw [← UInt32.toNat_inj]
    constructor
    · rintro ⟨-, hmod⟩
      rw [Nat.ModEq, Nat.mod_eq_of_lt (UInt32.toNat_lt _), Nat.mod_eq_of_lt (UInt32.toNat_lt _)]
        at hmod
      exact hmod.symm
    · intro heq
      exact ⟨fun b hb => isOctal_octal hb, heq ▸ rfl⟩
  by_cases heq : mangle self.instant = mangle other.instant
  · rw [if_pos heq]
    exact (handle_eq_some_iff mangle).mpr ⟨hkind, hspells.mpr heq, rfl⟩
  · rw [if_neg heq, Option.eq_none_iff_forall_ne_some]
    intro v hv
    exact heq (hspells.mp ((handle_eq_some_iff mangle).mp hv).2.1)

/-- **The reply to a `PING`**: a `PONG` that spells the number of the `Ping`, in as many octal digits
as it likes and up to 32 bits.  One that echoes what a `Ping` has sent is taken by those `Ping`s that
have the same number. -/
theorem takes_reply (now : ℕ) (self : Ping) (msg : ServerMsg) :
    (∀ v, handle mangle now self msg = some v ↔
      msg.kind.asBytes = text "PONG" ∧ Spells (mangle self.instant) msg ∧
        v = (msg.source, now - self.instant)) ∧
    ∀ other : Ping, msg.kind.asBytes = text "PONG" →
      msg.args.splitLast.2 = some (Args.toLine (other.hash mangle)) →
      handle mangle now self msg =
        if mangle self.instant = mangle other.instant then some (msg.source, now - self.instant)
        else none :=
  ⟨fun _ => handle_eq_some_iff mangle, fun other => handle_hash mangle now self other⟩

theorem findInvalid_pong : StringType.cmd.findInvalid (text "PONG") = none := by
  decide

/-- `PONG 12`. -/
def echo : ServerMsg where
  tags := .new
  source := none
  kind := .cmd (.fromStr "PONG" findInvalid_pong)
  args := .new [.fromStr "12"] none

/-- `12` is how ten is sent, and it is taken by a `Ping` with this number only. -/
theorem takes_reply_echo :
    handle UInt32.ofNat 25 ⟨10⟩ echo = some (none, 15) ∧
      handle UInt32.ofNat 25 ⟨12⟩ echo = none :=
  ⟨(takes_reply UInt32.ofNat 25 ⟨10⟩ echo).2 ⟨10⟩ (by decide +kernel) (by decide +kernel),
    (takes_reply UInt32.ofNat 25 ⟨12⟩ echo).2 ⟨10⟩ (by decide +kernel) (by decide +kernel)⟩

end Ping

/-! ## Messages with a target -/

/-- `TargetedMsg`. -/
structure TargetedMsg (T : Type) where
  tags : Tags
  source : Option Source
  target : Arg
  value : T

/-- `TargetedMsg::map`. -/
def TargetedMsg.map {T U : Type} (f : T → U) (msg : TargetedMsg T) : TargetedMsg U :=
  ⟨msg.tags, msg.source, msg.target, f msg.value⟩

/-- `from_union` of the commands that `basic_unary!` implements with a target.  The kind of the
message is not looked at. -/
def basicUnary (name : String) (input : ServerMsg) : Except ParseError (TargetedMsg Line) :=
  match input.args.splitLast with
  | ([target], some value) => .ok ⟨input.tags, input.source, target, value⟩
  | _ => .error (.invalidField (name ++ " args") (text "invalid arguments"))

/-! ## CTCP queries -/

/-- `CtcpVersion`. -/
structure CtcpVersion where
  version : Line
  source : Line
  deriving DecidableEq

namespace CtcpVersion

theorem findInvalid_notice : StringType.cmd.findInvalid (text "NOTICE") = none := by decide

/-- What the two arms of `handle` push. -/
def notice (nick : Nick) (ctcp : MaybeCtcp Line) : ClientMsg :=
  ((ClientMsg.new (.fromStr "NOTICE" findInvalid_notice)).addWord nick.toArg).add ctcp.intoLine

/-- The `match` of `handle`. -/
def onQuery (self : CtcpVersion) (nick : Nick) (cmd : Word) : Option ClientMsg :=
  if cmd.bytes = text "VERSION" ∧ self.version.bytes ≠ [] then
    some (notice nick ⟨.fromStr "VERSION", self.version⟩)
  else if cmd.bytes = text "SOURCE" ∧ self.source.bytes ≠ [] then
    some (notice nick ⟨.fromStr "SOURCE", self.source⟩)
  else none

/-- `handle`: the message that is pushed, if any. -/
def reply (self : CtcpVersion) (msg : ServerMsg) : Option ClientMsg :=
  match basicUnary "PRIVMSG" msg with
  | .error _ => none
  | .ok msg =>
    let msg := msg.map MaybeCtcp.parse
    match msg.source with
    | none => none
    | some source => self.onQuery source.nick msg.value.cmd

/-- What it has to say to a query. -/
def body (self : CtcpVersion) (cmd : Word) : Line :=
  if cmd.bytes = text "VERSION" then self.version
  else if cmd.bytes = text "SOURCE" then self.source
  else .empty

theorem splitLast_notice {nick : Nick} {ctcp : MaybeCtcp Line} (h : ctcp.cmd.bytes ≠ []) :
    (notice nick ctcp).args.splitLast = ([nick.toArg], some ctcp.intoLine) := by
  have hlong : StringType.arg.findInvalid ctcp.intoLine.bytes ≠ none := by
    intro hnone
    have hspace := (StringType.arg.findInvalid_eq_none_iff.mp hnone).2 (byte ' ')
      (by rw [MaybeCtcp.bytes_intoLine h]; simp)
    exact absurd hspace (by decide)
  obtain ⟨hwords, hline⟩ := Args.add_of_long [nick.toArg] hlong
  have hargs : (notice nick ctcp).args = (Args.add (.ofWords [nick.toArg]) ctcp.intoLine).2 := rfl
  rw [hargs, Args.splitLast, hline, hwords]

/-- The command is there whatever the body is. -/
theorem cmd_parse_intoLine (ctcp : MaybeCtcp Line) (h : ctcp.cmd.bytes ≠ [])
    (hupper : ctcp.cmd.bytes.map toAsciiUppercase = ctcp.cmd.bytes)
    (hne : ∀ b ∈ ctcp.cmd.bytes, b ≠ ctcpDelim) : (MaybeCtcp.parse ctcp.intoLine).cmd = ctcp.cmd := by
  have hinside : ∀ rest, MaybeCtcp.inside (ctcp.cmd.bytes ++ byte ' ' :: rest) =
      ctcp.cmd.bytes ++ byte ' ' :: MaybeCtcp.inside rest := by
    intro rest
    unfold MaybeCtcp.inside
    rw [List.takeWhile_append_of_pos (by simpa using hne), List.takeWhile_cons_of_pos (by decide)]
  have hspace : ∀ rest : List UInt8, ∀ b ∈ (byte ' ' :: rest).head?,
      StringType.word.isInvalid b = true := by
    rintro rest b ⟨rfl⟩
    decide
  have hbytes := MaybeCtcp.bytes_intoLine h
  rw [List.append_assoc, List.cons_append] at hbytes
  obtain ⟨hcmd, -⟩ := MaybeCtcp.parse_of_delim hbytes
  rw [hinside, Splitter.validPrefix_append (fun b hb => ctcp.cmd.isInvalid_eq_false hb) (hspace _),
    hupper] at hcmd
  exact Str.ext hcmd

/-- A query is one of the two. -/
theorem cmd_of_body {self : CtcpVersion} {cmd : Word} (h : (self.body cmd).bytes ≠ []) :
    cmd = .fromStr "VERSION" ∨ cmd = .fromStr "SOURCE" := by
  unfold body at h
  split at h
  · exact .inl (Str.ext ‹_›)
  · split at h
    · exact .inr (Str.ext ‹_›)
    · exact absurd rfl h

theorem onQuery_eq (self : CtcpVersion) (nick : Nick) (cmd : Word) :
    self.onQuery nick cmd =
      if (self.body cmd).bytes ≠ [] then some (notice nick ⟨cmd, self.body cmd⟩) else none := by
  have hne : ¬ text "VERSION" = text "SOURCE" := by decide
  unfold onQuery
  by_cases hversion : cmd.bytes = text "VERSION"
  · have hcmd : cmd = .fromStr "VERSION" := Str.ext hversion
    have hbody : self.body cmd = self.version := if_pos hversion
    simp only [hbody, hversion, hne, true_and, false_and, if_false, ← hcmd]
  · by_cases hsource : cmd.bytes = text "SOURCE"
    · have hcmd : cmd = .fromStr "SOURCE" := Str.ext hsource
      have hbody : self.body cmd = self.source := (if_neg hversion).trans (if_pos hsource)
      simp only [hbody, hsource, Ne.symm hne, true_and, false_and, if_false, ← hcmd]
    · have hbody : self.body cmd = .empty := (if_neg hversion).trans (if_neg hsource)
      simp only [hbody, hversion, hsource, false_and, if_false]
      rfl

/-- **What is replied to**: messages with one target and a query that there is something to say to,
whatever the kind of the message is. -/
theorem reply_eq_some_iff {self : CtcpVersion} {msg : ServerMsg} {r : ClientMsg} :
    self.reply msg = some r ↔ ∃ target value source,
      msg.args.splitLast = ([target], some value) ∧ msg.source = some source ∧
        (self.body (MaybeCtcp.parse value).cmd).bytes ≠ [] ∧
        r = notice source.nick
          ⟨(MaybeCtcp.parse value).cmd, self.body (MaybeCtcp.parse value).cmd⟩ := by
  unfold reply basicUnary
  split
  · rename_i hargs
    split at hargs
    · cases hargs
    · rename_i hnot
      refine iff_of_false (by simp) ?_
      rintro ⟨target, value, source, hsplit, -⟩
      exact hnot target value hsplit
  · rename_i targeted hargs
    split at hargs
    · rename_i target value hsplit
      obtain rfl := Except.ok.inj hargs
      simp only [TargetedMsg.map, hsplit, Prod.mk.injEq, List.cons.injEq, and_true,
        Option.some.injEq]
      cases hsource : msg.source with
      | none => simp
      | some source =>
        dsimp only
        rw [onQuery_eq]
        constructor
        · intro h
          split at h
          · exact ⟨target, value, source, ⟨rfl, rfl⟩, rfl, ‹_›, (Option.some.inj h).symm⟩
          · cases h
        · rintro ⟨_, _, _, ⟨rfl, rfl⟩, heq, hbody, rfl⟩
          obtain rfl := Option.some.inj heq
          rw [if_pos hbody]
    · cases hargs

end CtcpVersion

/-! ## Two clients -/

namespace CtcpVersion

/-- A client with this handler, as others see it. -/
structure Party where
  handler : CtcpVersion
  source : Source

/-- The message of a client as a server passes it on. -/
def relay (source : Source) (msg : ClientMsg) : ServerMsg :=
  ⟨msg.tags, some source, .cmd msg.cmd, msg.args⟩

/-- Two clients reply to each other, beginning with a message to the first one: what is sent after
so many replies. -/
def exchange (a b : Party) (msg : ServerMsg) : ℕ → Option ClientMsg
  | 0 => a.handler.reply msg
  | n + 1 => (a.handler.reply msg).bind fun r => exchange b a (relay a.source r) n

/-- **A reply is replied to**, by a client that has something to say to the same query. -/
theorem reply_relay {a b : CtcpVersion} {msg : ServerMsg} {r : ClientMsg} (source : Source)
    (h : a.reply msg = some r)
    (hbody : ∀ cmd, (a.body cmd).bytes ≠ [] → (b.body cmd).bytes ≠ []) :
    ∃ cmd, (a.body cmd).bytes ≠ [] ∧
      b.reply (relay source r) = some (notice source.nick ⟨cmd, b.body cmd⟩) := by
  obtain ⟨target, value, from', -, -, hne, rfl⟩ := reply_eq_some_iff.mp h
  generalize (MaybeCtcp.parse value).cmd = cmd at hne ⊢
  have hcmd : cmd.bytes ≠ [] ∧ cmd.bytes.map toAsciiUppercase = cmd.bytes ∧
      ∀ b ∈ cmd.bytes, b ≠ ctcpDelim := by
    rcases cmd_of_body hne with rfl | rfl
    · decide +kernel
    · decide +kernel
  have hparse := cmd_parse_intoLine ⟨cmd, a.body cmd⟩ hcmd.1 hcmd.2.1 hcmd.2.2
  refine ⟨cmd, hne, reply_eq_some_iff.mpr ⟨from'.nick.toArg, _, source,
    splitLast_notice hcmd.1, rfl, ?_, ?_⟩⟩
  · rw [hparse]
    exact hbody cmd hne
  · rw [hparse]

/-- **An exchange of replies that does not end**: once one of two clients replies to something, and
both have something to say to the same queries, each reply is replied to. -/
theorem exchange_isSome {a b : Party}
    (hsame : ∀ cmd, (a.handler.body cmd).bytes ≠ [] ↔ (b.handler.body cmd).bytes ≠ [])
    {msg : ServerMsg} (h : (a.handler.reply msg).isSome) (n : ℕ) :
    ∃ r, exchange a b msg n = some r ∧ r.cmd = .fromStr "NOTICE" := by
  induction n generalizing a b msg with
  | zero =>
    obtain ⟨r, hr⟩ := Option.isSome_iff_exists.mp h
    obtain ⟨-, value, source, -, -, -, rfl⟩ := reply_eq_some_iff.mp hr
    exact ⟨_, hr, rfl⟩
  | succ n ih =>
    obtain ⟨r, hr⟩ := Option.isSome_iff_exists.mp h
    obtain ⟨cmd, -, hrelay⟩ := reply_relay a.source hr fun cmd => (hsame cmd).mp
    rw [exchange, hr, Option.bind_some]
    exact ih (fun cmd => (hsame cmd).symm) (by rw [hrelay]; rfl)

/-- A client that says who it is. -/
def alice : Party := ⟨⟨.fromStr "vinezombie v0.3.1", .empty⟩, ⟨.fromStr "alice", none⟩⟩

/-- Another one. -/
def bob : Party := ⟨⟨.fromStr "zombievine v1.3.0", .empty⟩, ⟨.fromStr "bob", none⟩⟩

/-- `:bob PRIVMSG alice :\x01VERSION\x01`. -/
def query : ServerMsg where
  tags := .new
  source := some bob.source
  kind := .cmd (.fromStr "PRIVMSG")
  args := .new [.fromStr "alice"] (some (.fromStr "\x01VERSION\x01"))

/-- The reply after a thousand replies. -/
theorem exchange_isSome_query :
    ∃ r, exchange alice bob query 1000 = some r ∧ r.cmd = .fromStr "NOTICE" := by
  refine exchange_isSome (fun cmd => ?_) (by decide +kernel) 1000
  unfold body
  split
  · exact iff_of_true (by decide) (by decide)
  · split
    · rfl
    · rfl

end CtcpVersion

/-! ## As handlers of a client -/

/-- The handlers that only reply, as trait objects. -/
inductive Replier (I A L Adj : Type) where
  | autoPong
  | ctcpVersion (handler : CtcpVersion)

namespace Replier

variable {I A L Adj : Type}

/-- What is pushed, if anything. -/
def reply : Replier I A L Adj → ServerMsg → Option ClientMsg
  | .autoPong, msg => Register.Handler.pong msg
  | .ctcpVersion handler, msg => handler.reply msg

instance [LinearOrder I] :
    Handlers.Handler (Replier I A L Adj) (ClientState I A × Queue ClientMsg L Adj) where
  handle self msg ctx :=
    ⟨false, false, self,
      (ctx.1,
        match self.reply msg with
        | some reply => (ctx.2.edit.push reply).queue
        | none => ctx.2)⟩
  wantsOwning _ := false

end Replier

end Vinezombie
