import Vinezombie.Library.DataModel
import Vinezombie.Library.Machine
import Vinezombie.Library.Utf8
import Vinezombie.Message.ArgsRoundTrip
import Vinezombie.Message.Codec
import Vinezombie.Util.FlatMapDedup

/-!
# Messages in other formats

The `Serialize` and `Deserialize` implementations of server messages: those of `Bytes` and of the
string types, of `Args` and of `Tags`, and the derived ones of sources, kinds and messages.

A numeric is written as the `u16` that it stands for, and read as the array of three `NonZeroU8`
that it is made of.  So the number that was written is not read, and an array of other bytes than
digits is; what is read is therefore a `RawKind`, whose numerics are any three bytes but zero.
Everything else is read as it was written.

* `Serde.deserialize_serialize_iff`: which messages are read back.
* `Serde.isValid_of_deserializeKind_iff`: which values are read as valid kinds.
* `Serde.readBack_iff`: both, for any format that keeps messages.
-/

namespace Vinezombie

open Library Library.DataModel Library.KeyedList Library.Machine

/-- The errors of the implementations in the source. -/
inductive SerdeError where
  /-- `try_into().map_err(D::Error::custom)`. -/
  | invalidString (e : InvalidString)
  /-- `invalid arg @ index {idx}: {e}`. -/
  | invalidArg (idx : ℕ) (e : InvalidString)

/-! ## Kinds and messages as derived code builds them -/

/-- `[NonZeroU8; 3]`, the field of `Numeric`. -/
@[ext] structure NumericArray where
  bytes : List UInt8
  valid : bytes.length = 3 ∧ bytes.all (· != 0) = true

/-- `ServerMsgKindRaw`, with the numerics that derived code can build. -/
inductive RawKind where
  | numeric (a : NumericArray)
  | cmd (c : Cmd)

namespace RawKind

/-- Three ASCII digits, or a command. -/
def IsValid : RawKind → Prop
  | .numeric a => a.bytes.all isAsciiDigit = true
  | .cmd _ => True

end RawKind

/-- `ServerMsg`, with such a kind. -/
@[ext] structure RawMsg where
  tags : Tags
  source : Option Source
  kind : RawKind
  args : Args

theorem Numeric.all_ne_zero (n : Numeric) : n.bytes.all (· != 0) = true := by
  rw [List.all_eq_true]
  intro b hb
  have hdigit := isAsciiDigit_iff.mp (List.all_eq_true.mp n.valid.2 b hb)
  rw [bne_iff_ne]
  rintro rfl
  exact absurd hdigit (by decide)

/-- The kind, with an invariant less. -/
def ServerMsgKindRaw.toRaw : ServerMsgKindRaw → RawKind
  | .numeric n => .numeric ⟨n.bytes, n.valid.1, n.all_ne_zero⟩
  | .cmd c => .cmd c

/-- The message, with an invariant less. -/
def ServerMsg.toRaw (msg : ServerMsg) : RawMsg := ⟨msg.tags, msg.source, msg.kind.toRaw, msg.args⟩

namespace Serde

/-! ## Strings -/

/-- `Serialize for Bytes`. -/
def serializeBytes (bs : List UInt8) : Value :=
  if h : Utf8.Valid bs then .str ⟨bs.toByteArray, Utf8.valid_iff_isValidUTF8.mp h⟩ else .bytes bs

/-- `Deserialize for Bytes`, with what its visitor accepts. -/
def deserializeBytes : Value → Except (Refusal SerdeError) (List UInt8)
  | .bool b => if b then .error .invalidType else .ok []
  | .str s => .ok s.toByteArray.data.toList
  | .bytes bs => .ok bs
  | .unit => .ok []
  | _ => .error .invalidType

variable {T : StringType}

/-- `into = "Bytes<'a>"`. -/
def serializeStr (s : Str T) : Value := serializeBytes s.bytes

/-- `Deserialize` of the string types. -/
def deserializeStr (T : StringType) (v : Value) : Except (Refusal SerdeError) (Str T) :=
  match deserializeBytes v with
  | .error e => .error e
  | .ok bytes =>
    match Str.fromBytes T bytes with
    | .ok s => .ok s
    | .error e => .error (.custom (.invalidString e))

theorem deserializeBytes_serializeBytes (bs : List UInt8) :
    deserializeBytes (serializeBytes bs) = .ok bs := by
  unfold serializeBytes
  split
  · rw [deserializeBytes, List.toList_data_toByteArray]
  · rfl

theorem deserializeStr_serializeStr (s : Str T) : deserializeStr T (serializeStr s) = .ok s := by
  have hbytes : Str.fromBytes T s.bytes = .ok s := Str.fromBytes_eq_ok_iff.mpr rfl
  rw [deserializeStr, serializeStr, deserializeBytes_serializeBytes]
  simp only [hbytes]

theorem serializeStr_ne_unit (s : Str T) : serializeStr s ≠ .unit := by
  unfold serializeStr serializeBytes
  split
  · exact nofun
  · exact nofun

/-! ## Sources -/

/-- The fields of a `UserHost`. -/
def userHostFields (uh : UserHost) : List (String × Value) :=
  [("user", option serializeStr uh.user), ("host", serializeStr uh.host)]

/-- `serialize` of `UserHost`. -/
def serializeUserHost (uh : UserHost) : Value := record (userHostFields uh)

/-- `deserialize` of `UserHost`. -/
def deserializeUserHost (v : Value) : Except (Refusal SerdeError) UserHost := do
  let get ← fields ["user", "host"] v
  let user ← optional (deserializeStr .user) get "user"
  let host ← required (deserializeStr .word) get "host"
  return ⟨user, host⟩

/-- The fields of a `Source`. -/
def sourceFields (s : Source) : List (String × Value) :=
  [("nick", serializeStr s.nick), ("userhost", option serializeUserHost s.userhost)]

/-- Of `SharedSource` as well, which is transparent. -/
def serializeSource (s : Source) : Value := record (sourceFields s)

/-- `deserialize` of `Source`. -/
def deserializeSource (v : Value) : Except (Refusal SerdeError) Source := do
  let get ← fields ["nick", "userhost"] v
  let nick ← required (deserializeStr .nick) get "nick"
  let userhost ← optional deserializeUserHost get "userhost"
  return ⟨nick, userhost⟩

theorem deserializeUserHost_serializeUserHost (uh : UserHost) :
    deserializeUserHost (serializeUserHost uh) = .ok uh := by
  have huser : readOption (deserializeStr .user) (option serializeStr uh.user) = .ok uh.user :=
    readOption_option (fun u _ => serializeStr_ne_unit u) fun u _ => deserializeStr_serializeStr u
  obtain ⟨get, hget, hmem⟩ := @fields_record SerdeError (userHostFields uh)
    (show ["user", "host"].Nodup by decide)
  have hfields : fields ["user", "host"] (serializeUserHost uh) = .ok get := hget
  have hget₁ : get "user" = some (option serializeStr uh.user) :=
    hmem ("user", _) List.mem_cons_self
  have hget₂ : get "host" = some (serializeStr uh.host) :=
    hmem ("host", _) (List.mem_cons_of_mem _ List.mem_cons_self)
  rw [deserializeUserHost, hfields]
  simp only [bind, Except.bind, optional_of_eq_some hget₁, huser, required_of_eq_some hget₂,
    deserializeStr_serializeStr]
  rfl

theorem deserializeSource_serializeSource (s : Source) :
    deserializeSource (serializeSource s) = .ok s := by
  have huserhost : readOption deserializeUserHost (option serializeUserHost s.userhost) =
      .ok s.userhost :=
    readOption_option (fun _ _ => nofun) fun uh _ => deserializeUserHost_serializeUserHost uh
  obtain ⟨get, hget, hmem⟩ := @fields_record SerdeError (sourceFields s)
    (show ["nick", "userhost"].Nodup by decide)
  have hfields : fields ["nick", "userhost"] (serializeSource s) = .ok get := hget
  have hget₁ : get "nick" = some (serializeStr s.nick) := hmem ("nick", _) List.mem_cons_self
  have hget₂ : get "userhost" = some (option serializeUserHost s.userhost) :=
    hmem ("userhost", _) (List.mem_cons_of_mem _ List.mem_cons_self)
  rw [deserializeSource, hfields]
  simp only [bind, Except.bind, optional_of_eq_some hget₂, huserhost, required_of_eq_some hget₁,
    deserializeStr_serializeStr]
  rfl

/-! ## Kinds -/

/-- `into = "u16"`. -/
def serializeNumeric (n : Numeric) : Value := .int n.intoInt

/-- Untagged: the value of the variant. -/
def serializeKind : ServerMsgKindRaw → Value
  | .numeric n => serializeNumeric n
  | .cmd c => serializeStr c

theorem ofNat_toNat_ne_zero {n : Int} (h : 1 ≤ n ∧ n ≤ 255) : UInt8.ofNat n.toNat ≠ 0 := by
  intro h0
  have htoNat := congrArg UInt8.toNat h0
  rw [UInt8.toNat_ofNat', UInt8.toNat_zero] at htoNat
  omega

/-- `Deserialize for NonZeroU8`. -/
def deserializeNonZeroU8 : Value → Except (Refusal SerdeError) {b : UInt8 // b ≠ 0}
  | .int n =>
    if h : 1 ≤ n ∧ n ≤ 255 then .ok ⟨UInt8.ofNat n.toNat, ofNat_toNat_ne_zero h⟩
    else .error .invalidValue
  | _ => .error .invalidType

theorem all_ne_zero (bytes : List {b : UInt8 // b ≠ 0}) :
    (bytes.map Subtype.val).all (· != 0) = true := by
  rw [List.all_map, List.all_eq_true]
  intro b _
  exact bne_iff_ne.mpr b.2

/-- `Deserialize for Numeric`, which is derived, and so that of `[NonZeroU8; 3]`. -/
def deserializeNumeric (v : Value) : Except (Refusal SerdeError) NumericArray :=
  match readSeq deserializeNonZeroU8 v with
  | .error e => .error e
  | .ok bytes =>
    if h : bytes.length = 3 then
      .ok ⟨bytes.map Subtype.val, by rw [List.length_map]; exact h, all_ne_zero bytes⟩
    else .error .invalidLength

/-- `deserialize` of the kind, first as a numeric and then as a command. -/
def deserializeKind : Value → Except (Refusal SerdeError) RawKind :=
  untagged (fun v => (deserializeNumeric v).map .numeric)
    (fun v => (deserializeStr .cmd v).map .cmd)

/-! ## Tags -/

/-- `serialize` of `Tags`. -/
def serializeTags (t : Tags) : Value :=
  .map (t.pairs.vec.map fun p => (serializeStr p.1, serializeStr p.2))

/-- The pairs that a `BTreeMap` returns in order, when it was filled with these: for each key the
last of them. -/
def btreeMap (pairs : List (Key × NoNul)) : List (Key × NoNul) :=
  (FlatMap.fromVec Prod.fst pairs).vec

/-- `deserialize` of `Tags`, through a `BTreeMap`. -/
def deserializeTags (v : Value) : Except (Refusal SerdeError) Tags :=
  (readMap (deserializeStr .key) (deserializeStr .noNul) v).map fun tags =>
    ⟨FlatMap.fromVec Prod.fst (btreeMap tags)⟩

/-! ## Arguments -/

/-- `serialize` of `Args`. -/
def serializeArgs (args : Args) : Value :=
  .seq (args.words.map serializeStr ++ args.long.toList.map serializeStr)

/-- The loop over all arguments but the last, from an index on. -/
def checkWords (idx : ℕ) : List (List UInt8) → Except (Refusal SerdeError) (List Arg)
  | [] => .ok []
  | arg :: rest =>
    match h : StringType.arg.findInvalid arg with
    | some e => .error (.custom (.invalidArg idx e))
    | none => (checkWords (idx + 1) rest).map (⟨arg, h⟩ :: ·)

/-- `deserialize` of `Args`. -/
def deserializeArgs (v : Value) : Except (Refusal SerdeError) Args := do
  let args ← readSeq deserializeBytes v
  match args.getLast? with
  | none => return Args.empty
  | some last =>
    let words ← checkWords 0 args.dropLast
    match Str.fromBytes .line last with
    | .ok last => return ((Args.ofWords words).add last).2
    | .error e => .error (.custom (.invalidArg words.length e))

/-! ## Messages -/

/-- The fields of a `ServerMsg`. -/
def msgFields (msg : ServerMsg) : List (String × Value) :=
  [("tags", serializeTags msg.tags), ("source", option serializeSource msg.source),
    ("kind", serializeKind msg.kind), ("args", serializeArgs msg.args)]

/-- `serialize` of `ServerMsg`. -/
def serialize (msg : ServerMsg) : Value := record (msgFields msg)

/-- `deserialize` of `ServerMsg`. -/
def deserialize (v : Value) : Except (Refusal SerdeError) RawMsg := do
  let get ← fields ["tags", "source", "kind", "args"] v
  let tags ← required deserializeTags get "tags"
  let source ← optional deserializeSource get "source"
  let kind ← required deserializeKind get "kind"
  let args ← required deserializeArgs get "args"
  return ⟨tags, source, kind, args⟩

/-! ## What is read back -/

/-- A number is no variant of a kind. -/
theorem deserializeKind_serializeNumeric (n : Numeric) :
    deserializeKind (serializeNumeric n) = .error .noVariant :=
  rfl

theorem deserializeKind_serializeStr (c : Cmd) :
    deserializeKind (serializeStr c) = .ok (.cmd c) := by
  refine untagged_eq_ok_iff.mpr (Or.inr ⟨?_, ?_⟩)
  · intro k
    unfold serializeStr serializeBytes
    split
    · exact nofun
    · exact nofun
  · rw [deserializeStr_serializeStr]
    rfl

theorem deserializeKind_serializeKind_iff (k : ServerMsgKindRaw) :
    deserializeKind (serializeKind k) = .ok k.toRaw ↔ ∃ c, k = .cmd c := by
  cases k with
  | numeric n =>
    have hkind := deserializeKind_serializeNumeric n
    constructor
    · intro h
      exact absurd (hkind.symm.trans h) nofun
    · rintro ⟨c, hc⟩
      exact absurd hc nofun
  | cmd c => exact ⟨fun _ => ⟨c, rfl⟩, fun _ => deserializeKind_serializeStr c⟩

/-- The tags are read back as the map that is built from them. -/
theorem deserializeTags_serializeTags (t : Tags) :
    deserializeTags (serializeTags t) = .ok ⟨FlatMap.fromVec Prod.fst t.pairs.vec⟩ := by
  have hread : readMap (deserializeStr .key) (deserializeStr .noNul) (serializeTags t) =
      .ok (t.pairs.vec.map fun p => (p.1, p.2)) := by
    refine readAll_map fun p _ => ?_
    simp only [deserializeStr_serializeStr]
  have hmap : (t.pairs.vec.map fun p => (p.1, p.2)) = t.pairs.vec := List.map_id _
  have hsorted : StrictSorted Prod.fst (btreeMap t.pairs.vec) := FlatMap.strictSorted_fromVec _
  rw [deserializeTags, hread, hmap, Except.map, FlatMap.fromVec_of_strictSorted hsorted]
  rfl

theorem deserializeTags_serializeTags_iff (t : Tags) :
    deserializeTags (serializeTags t) = .ok t ↔ StrictSorted Prod.fst t.pairs.vec := by
  rw [deserializeTags_serializeTags, Except.ok.injEq, Tags.ext_iff]
  constructor
  · intro h
    rw [← h]
    exact FlatMap.strictSorted_fromVec _
  · intro h
    exact FlatMap.fromVec_of_strictSorted h

theorem checkWords_map_bytes (words : List Arg) (idx : ℕ) :
    checkWords idx (words.map Str.bytes) = .ok words := by
  induction words generalizing idx with
  | nil => rfl
  | cons w words ih =>
    rw [List.map_cons, checkWords]
    split
    · rename_i e he
      rw [w.valid] at he
      exact absurd he nofun
    · rw [ih]
      rfl

/-- What is left of the arguments after the last was taken off. -/
theorem deserializeArgs_of_read {v : Value} {words : List Arg} {last : Line}
    (h : readSeq deserializeBytes v = .ok (words.map Str.bytes ++ [last.bytes])) :
    deserializeArgs v = .ok ((Args.ofWords words).add last).2 := by
  have hlast : Str.fromBytes .line last.bytes = .ok last := Str.fromBytes_eq_ok_iff.mpr rfl
  simp only [deserializeArgs, h, bind, Except.bind, List.getLast?_concat, List.dropLast_concat,
    checkWords_map_bytes, hlast]
  rfl

theorem deserializeArgs_serializeArgs (args : Args) :
    deserializeArgs (serializeArgs args) = .ok args := by
  have hstrings : serializeArgs args = .seq ((args.words.map Str.bytes ++
      args.long.toList.map Str.bytes).map serializeBytes) := by
    rw [serializeArgs, List.map_append, List.map_map, List.map_map]
    rfl
  have hread : readSeq deserializeBytes (serializeArgs args) =
      .ok (args.words.map Str.bytes ++ args.long.toList.map Str.bytes) := by
    rw [hstrings, readSeq]
    exact (readAll_map fun bs _ => deserializeBytes_serializeBytes bs).trans
      (congrArg Except.ok (List.map_id _))
  cases hlong : args.long with
  | some long =>
    rw [hlong] at hread
    have hadd := Args.add_of_long args.words (args.long_isLong long hlong)
    rw [deserializeArgs_of_read hread]
    exact congrArg Except.ok (Args.ext hadd.1 (hadd.2.trans hlong.symm))
  | none =>
    rw [hlong, Option.toList_none, List.map_nil, List.append_nil] at hread
    rcases List.eq_nil_or_concat args.words with hnil | ⟨words, last, hwords⟩
    · rw [hnil] at hread
      simp only [deserializeArgs, hread, bind, Except.bind, List.map_nil, List.getLast?_nil]
      exact congrArg Except.ok (Args.ext hnil.symm hlong.symm)
    · rw [hwords, List.concat_eq_append, List.map_append, List.map_singleton] at hread
      have hargs : deserializeArgs (serializeArgs args) =
          .ok ((Args.ofWords words).add (Args.toLine last)).2 := deserializeArgs_of_read hread
      have hadd : ((Args.ofWords words).add (Args.toLine last)).2 =
          Args.ofWords (words ++ [last]) := Args.add_of_word words last.valid
      rw [hargs, hadd]
      refine congrArg Except.ok (Args.ext ?_ hlong.symm)
      rw [hwords, List.concat_eq_append]
      rfl

/-- **Which messages are read back**: those whose kind is a command and whose tags are a map, each
key once and in order. -/
theorem deserialize_serialize_iff (msg : ServerMsg) :
    deserialize (serialize msg) = .ok msg.toRaw ↔
      (∃ c, msg.kind = .cmd c) ∧ StrictSorted Prod.fst msg.tags.pairs.vec := by
  have hsource : readOption deserializeSource (option serializeSource msg.source) =
      .ok msg.source :=
    readOption_option (fun _ _ => nofun) fun s _ => deserializeSource_serializeSource s
  obtain ⟨get, hget, hmem⟩ := @fields_record SerdeError (msgFields msg)
    (show ["tags", "source", "kind", "args"].Nodup by decide)
  have hfields : fields ["tags", "source", "kind", "args"] (serialize msg) = .ok get := hget
  have htags : get "tags" = some (serializeTags msg.tags) :=
    hmem ("tags", serializeTags msg.tags) (by simp [msgFields])
  have hsrc : get "source" = some (option serializeSource msg.source) :=
    hmem ("source", option serializeSource msg.source) (by simp [msgFields])
  have hkind : get "kind" = some (serializeKind msg.kind) :=
    hmem ("kind", serializeKind msg.kind) (by simp [msgFields])
  have hargs : get "args" = some (serializeArgs msg.args) :=
    hmem ("args", serializeArgs msg.args) (by simp [msgFields])
  have hall : deserialize (serialize msg) =
      (deserializeKind (serializeKind msg.kind)).map fun kind =>
        ⟨⟨FlatMap.fromVec Prod.fst msg.tags.pairs.vec⟩, msg.source, kind, msg.args⟩ := by
    rw [deserialize, hfields]
    simp only [bind, Except.bind, required_of_eq_some htags, deserializeTags_serializeTags,
      optional_of_eq_some hsrc, hsource, required_of_eq_some hkind, required_of_eq_some hargs,
      deserializeArgs_serializeArgs]
    cases deserializeKind (serializeKind msg.kind) with
    | error e => rfl
    | ok kind => rfl
  rw [hall, ← deserializeKind_serializeKind_iff, ← deserializeTags_serializeTags_iff,
    deserializeTags_serializeTags]
  cases hk : deserializeKind (serializeKind msg.kind) with
  | error e => simp [Except.map]
  | ok kind =>
    simp only [Except.map, Except.ok.injEq, RawMsg.ext_iff, ServerMsg.toRaw, and_true, true_and,
      Tags.ext_iff]
    exact and_comm

/-! ## Which kinds are valid -/

/-- Three numbers that are no `NonZeroU8` of a digit each, but are all `NonZeroU8`. -/
def IsOtherArray (v : Value) : Prop :=
  ∃ ns : List Int, v = .seq (ns.map .int) ∧ ns.length = 3 ∧ (∀ n ∈ ns, 1 ≤ n ∧ n ≤ 255) ∧
    ∃ n ∈ ns, n < 48 ∨ 57 < n

theorem isAsciiDigit_ofNat_toNat_iff {n : Int} (h : 1 ≤ n ∧ n ≤ 255) :
    isAsciiDigit (UInt8.ofNat n.toNat) = true ↔ 48 ≤ n ∧ n ≤ 57 := by
  have hlt : n.toNat < 256 := by omega
  rw [isAsciiDigit_iff, UInt8.toNat_ofNat', Nat.mod_eq_of_lt hlt]
  omega

theorem deserializeNonZeroU8_eq_ok_iff {v : Value} {b : {b : UInt8 // b ≠ 0}} :
    deserializeNonZeroU8 v = .ok b ↔
      ∃ n : Int, v = .int n ∧ (1 ≤ n ∧ n ≤ 255) ∧ b.val = UInt8.ofNat n.toNat := by
  constructor
  · intro h
    unfold deserializeNonZeroU8 at h
    split at h
    · split at h
      · rename_i n hn
        exact ⟨n, rfl, hn, by rw [← Except.ok.inj h]⟩
      · exact absurd h nofun
    · exact absurd h nofun
  · rintro ⟨n, rfl, hn, hb⟩
    rw [deserializeNonZeroU8, dif_pos hn]
    exact congrArg Except.ok (Subtype.ext hb.symm)

/-- The sequences that are read as `NonZeroU8`. -/
theorem readAll_deserializeNonZeroU8 {elems : List Value} {bytes : List {b : UInt8 // b ≠ 0}} :
    readAll deserializeNonZeroU8 elems = .ok bytes ↔
      ∃ ns : List Int, elems = ns.map .int ∧ (∀ n ∈ ns, 1 ≤ n ∧ n ≤ 255) ∧
        bytes.map Subtype.val = ns.map fun n => UInt8.ofNat n.toNat := by
  induction elems generalizing bytes with
  | nil =>
    constructor
    · intro h
      rw [← Except.ok.inj h]
      exact ⟨[], rfl, by simp, rfl⟩
    · rintro ⟨ns, hns, -, hbytes⟩
      rw [List.map_eq_nil_iff.mp hns.symm, List.map_nil, List.map_eq_nil_iff] at hbytes
      rw [hbytes]
      rfl
  | cons v elems ih =>
    rw [readAll_cons_eq_ok_iff]
    constructor
    · rintro ⟨b, rest, hv, hrest, rfl⟩
      obtain ⟨n, rfl, hn, hb⟩ := deserializeNonZeroU8_eq_ok_iff.mp hv
      obtain ⟨ns, rfl, hrange, hbytes⟩ := ih.mp hrest
      exact ⟨n :: ns, rfl, List.forall_mem_cons.mpr ⟨hn, hrange⟩, by
        rw [List.map_cons, List.map_cons, hb, hbytes]⟩
    · rintro ⟨ns, hns, hrange, hbytes⟩
      cases ns with
      | nil => exact absurd hns nofun
      | cons n ns =>
        cases bytes with
        | nil => exact absurd hbytes nofun
        | cons b bytes =>
          rw [List.map_cons, List.cons.injEq] at hns
          rw [List.map_cons, List.map_cons, List.cons.injEq] at hbytes
          obtain ⟨hn, hrange⟩ := List.forall_mem_cons.mp hrange
          exact ⟨b, bytes, deserializeNonZeroU8_eq_ok_iff.mpr ⟨n, hns.1, hn, hbytes.1⟩,
            ih.mpr ⟨ns, hns.2, hrange, hbytes.2⟩, rfl⟩

/-- **The values that are read as numerics.** -/
theorem deserializeNumeric_eq_ok_iff {v : Value} {a : NumericArray} :
    deserializeNumeric v = .ok a ↔
      ∃ ns : List Int, v = .seq (ns.map .int) ∧ ns.length = 3 ∧ (∀ n ∈ ns, 1 ≤ n ∧ n ≤ 255) ∧
        a.bytes = ns.map fun n => UInt8.ofNat n.toNat := by
  constructor
  · intro h
    unfold deserializeNumeric at h
    cases hread : readSeq deserializeNonZeroU8 v with
    | error e =>
      rw [hread] at h
      exact absurd h nofun
    | ok bytes =>
      simp only [hread] at h
      split at h
      · rename_i hlen
        obtain ⟨elems, rfl, hall⟩ := readSeq_eq_ok_iff.mp hread
        obtain ⟨ns, rfl, hrange, hbytes⟩ := readAll_deserializeNonZeroU8.mp hall
        refine ⟨ns, rfl, ?_, hrange, ?_⟩
        · rw [← hlen, ← List.length_map Subtype.val, hbytes, List.length_map]
        · rw [← Except.ok.inj h, ← hbytes]
      · exact absurd h nofun
  · rintro ⟨ns, rfl, hlen, hrange, hbytes⟩
    have hne : ∀ b ∈ a.bytes, b ≠ 0 := fun b hb =>
      bne_iff_ne.mp (List.all_eq_true.mp a.valid.2 b hb)
    have hval : (a.bytes.attachWith (· ≠ 0) hne).map Subtype.val = a.bytes :=
      List.attachWith_map_subtype_val hne
    have hread : readSeq deserializeNonZeroU8 (.seq (ns.map .int)) =
        .ok (a.bytes.attachWith (· ≠ 0) hne) :=
      readAll_deserializeNonZeroU8.mpr ⟨ns, rfl, hrange, hval.trans hbytes⟩
    have hlength : (a.bytes.attachWith (· ≠ 0) hne).length = 3 := by
      rw [List.length_attachWith]
      exact a.valid.1
    simp only [deserializeNumeric, hread]
    rw [dif_pos hlength]
    exact congrArg Except.ok (NumericArray.ext hval)

/-- The array of three numbers that are `NonZeroU8`. -/
theorem exists_deserializeNumeric {ns : List Int} (hlen : ns.length = 3)
    (hrange : ∀ n ∈ ns, 1 ≤ n ∧ n ≤ 255) :
    ∃ a, deserializeNumeric (.seq (ns.map .int)) = .ok a ∧
      a.bytes = ns.map fun n => UInt8.ofNat n.toNat := by
  have hall : (ns.map fun n => UInt8.ofNat n.toNat).all (· != 0) = true := by
    rw [List.all_map, List.all_eq_true]
    intro n hn
    exact bne_iff_ne.mpr (ofNat_toNat_ne_zero (hrange n hn))
  refine ⟨⟨ns.map fun n => UInt8.ofNat n.toNat, by rw [List.length_map]; exact hlen, hall⟩, ?_, rfl⟩
  exact deserializeNumeric_eq_ok_iff.mpr ⟨ns, rfl, hlen, hrange, rfl⟩

/-- **Which values are read as valid kinds**: all that are read as kinds, but for arrays of bytes
that are not digits. -/
theorem isValid_of_deserializeKind_iff (v : Value) :
    (∀ k, deserializeKind v = .ok k → k.IsValid) ↔ ¬ IsOtherArray v := by
  constructor
  · rintro h ⟨ns, rfl, hlen, hrange, n, hn, hother⟩
    obtain ⟨a, ha, hbytes⟩ := exists_deserializeNumeric hlen hrange
    have hkind : deserializeKind (.seq (ns.map .int)) = .ok (.numeric a) := by
      refine untagged_eq_ok_iff.mpr (Or.inl ?_)
      rw [ha]
      rfl
    have hvalid : a.bytes.all isAsciiDigit = true := h _ hkind
    rw [hbytes, List.all_map, List.all_eq_true] at hvalid
    have hdigit := (isAsciiDigit_ofNat_toNat_iff (hrange n hn)).mp (hvalid n hn)
    omega
  · intro h k hk
    cases k with
    | cmd c => trivial
    | numeric a =>
      rcases untagged_eq_ok_iff.mp hk with hnumeric | ⟨-, hcmd⟩
      · obtain ⟨a', ha, hkind⟩ := map_eq_ok_iff.mp hnumeric
        rw [RawKind.numeric.injEq] at hkind
        rw [hkind] at ha
        obtain ⟨ns, rfl, hlen, hrange, hbytes⟩ := deserializeNumeric_eq_ok_iff.mp ha
        rw [RawKind.IsValid, hbytes, List.all_map, List.all_eq_true]
        intro n hn
        by_contra hother
        refine h ⟨ns, rfl, hlen, hrange, n, hn, ?_⟩
        rw [Function.comp_apply, isAsciiDigit_ofNat_toNat_iff (hrange n hn)] at hother
        omega
      · obtain ⟨c, -, hkind⟩ := map_eq_ok_iff.mp hcmd
        exact absurd hkind nofun

/-! ## Through a format -/

/-- All strings of the message are UTF-8. -/
structure IsUtf8 (msg : ServerMsg) : Prop where
  tags : ∀ p ∈ msg.tags.pairs.vec, Utf8.Valid p.1.bytes ∧ Utf8.Valid p.2.bytes
  nick : ∀ s ∈ msg.source, Utf8.Valid s.nick.bytes
  user : ∀ s ∈ msg.source, ∀ uh ∈ s.userhost, ∀ user ∈ uh.user, Utf8.Valid user.bytes
  host : ∀ s ∈ msg.source, ∀ uh ∈ s.userhost, Utf8.Valid uh.host.bytes
  words : ∀ w ∈ msg.args.words, Utf8.Valid w.bytes
  long : ∀ line ∈ msg.args.long, Utf8.Valid line.bytes

/-- A format that reads back what messages are written as, where all strings are UTF-8 and each tag is
there once. -/
def KeepsMessages {W : Type} (F : Format W) : Prop :=
  ∀ msg, IsUtf8 msg → StrictSorted Prod.fst msg.tags.pairs.vec → F.Keeps (serialize msg)

/-- Whatever is read, its tags are a map. -/
theorem strictSorted_of_deserialize {v : Value} {msg : RawMsg} (h : deserialize v = .ok msg) :
    StrictSorted Prod.fst msg.tags.pairs.vec := by
  obtain ⟨get, -, h⟩ := bind_ok h
  obtain ⟨tags, htags, h⟩ := bind_ok h
  obtain ⟨source, -, h⟩ := bind_ok h
  obtain ⟨kind, -, h⟩ := bind_ok h
  obtain ⟨args, -, h⟩ := bind_ok h
  obtain rfl : ⟨tags, source, kind, args⟩ = msg := Except.ok.inj h
  unfold required at htags
  split at htags
  · obtain ⟨pairs, -, rfl⟩ := map_eq_ok_iff.mp htags
    exact FlatMap.strictSorted_fromVec _
  · exact absurd htags nofun

/-- **Through a self-describing format.**  A message of UTF-8 strings is read back from its document
exactly if its kind is a command and its tags are a map, each key once and in order; and a document
is read as nothing but valid kinds exactly if it is no array of three bytes with one that is not a
digit. -/
theorem readBack_iff {W : Type} (F : Format W) (hF : KeepsMessages F) (msg : ServerMsg)
    (h : IsUtf8 msg) (w : W) :
    (F.deserialize deserialize (F.write (serialize msg)) = .ok msg.toRaw ↔
        (∃ c, msg.kind = .cmd c) ∧ StrictSorted Prod.fst msg.tags.pairs.vec) ∧
      ((∀ k, F.deserialize deserializeKind w = .ok k → k.IsValid) ↔
        ∀ v, F.read w = some v → ¬ IsOtherArray v) := by
  constructor
  · constructor
    · intro hread
      obtain ⟨v, -, hv⟩ := Format.deserialize_eq_ok_iff.mp hread
      have hsorted := strictSorted_of_deserialize hv
      rw [Format.deserialize_write deserialize (hF msg h hsorted)] at hread
      exact (deserialize_serialize_iff msg).mp hread
    · intro hmsg
      rw [Format.deserialize_write deserialize (hF msg h hmsg.2)]
      exact (deserialize_serialize_iff msg).mpr hmsg
  · unfold Format.deserialize
    cases F.read w with
    | none =>
      constructor
      · intro _ v hv
        exact absurd hv nofun
      · intro _ k hk
        exact absurd hk nofun
    | some v =>
      simp only [isValid_of_deserializeKind_iff, Option.some.injEq, forall_eq']

/-- `:n PING x`, in the data model itself. -/
theorem readBack_ping :
    let msg : ServerMsg :=
      ⟨Tags.new, some ⟨.fromStr "n", none⟩, .cmd (.fromStr "PING"), Args.ofWords [.fromStr "x"]⟩
    KeepsMessages Format.id ∧ IsUtf8 msg ∧
      Format.id.deserialize deserialize (Format.id.write (serialize msg)) = .ok msg.toRaw := by
  intro msg
  have hkeeps : KeepsMessages Format.id := fun _ _ _ => rfl
  have hutf8 : IsUtf8 msg :=
    { tags := fun p hp => absurd hp (by simp [msg, Tags.new, FlatMap.new])
      nick := by
        intro s hs
        rw [← Option.some.inj hs]
        exact Utf8.valid_singleton rfl
      user := by
        intro s hs uh huh
        rw [← Option.some.inj hs] at huh
        exact absurd huh nofun
      host := by
        intro s hs uh huh
        rw [← Option.some.inj hs] at huh
        exact absurd huh nofun
      words := by
        intro w hw
        rw [List.mem_singleton.mp hw]
        exact Utf8.valid_singleton rfl
      long := fun line hline => absurd hline nofun }
  exact ⟨hkeeps, hutf8,
    (readBack_iff Format.id hkeeps msg hutf8 .unit).1.mpr ⟨⟨_, rfl⟩, strictSorted_nil⟩⟩

/-- **A numeric and an array that is none.**  A message of the kind 001 is not read back, and the
sequence 1, 2, 3 is read as a kind that is not valid. -/
theorem not_readBack_numeric :
    let msg : ServerMsg := ⟨Tags.new, none, .numeric ⟨text "001", by decide⟩, Args.empty⟩
    Format.id.deserialize deserialize (Format.id.write (serialize msg)) ≠ .ok msg.toRaw ∧
      ¬ ∀ k, Format.id.deserialize deserializeKind (.seq [.int 1, .int 2, .int 3]) = .ok k →
        k.IsValid := by
  intro msg
  constructor
  · intro h
    obtain ⟨⟨c, hc⟩, -⟩ := (deserialize_serialize_iff msg).mp h
    exact absurd hc nofun
  · intro h
    refine (isValid_of_deserializeKind_iff (.seq [.int 1, .int 2, .int 3])).mp h ?_
    exact ⟨[1, 2, 3], rfl, rfl, by decide, 1, by decide, Or.inl (by decide)⟩

end Serde

end Vinezombie
