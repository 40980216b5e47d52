import Vinezombie.Client.AuthSteps
import Vinezombie.Strings.SecretBufRuns

/-!
# The wire format of SASL

What a mechanism leaves in its buffer goes to the server in `AUTHENTICATE` messages, of which each
but the last carries a full chunk.  The decoder of this library gets the buffer back from them.

`client/auth/sasl/password.rs`: the mechanism `PLAIN`, whose buffer holds three strings with a NUL
between each two of them.  None of the strings has a NUL in it, so the buffer tells which they are.

* `PlainLogic`, `Plain`, `Password`: the mechanism and the configurations for it.
* `exists_plainBuf`: the buffer of the mechanism.
* `handle_sends_chunks`: the messages, and what the decoder answers to them.
* `splitNul_plainData`: the three strings of a buffer.
-/

namespace Vinezombie

open Library Base64

namespace Auth

/-! ## `PLAIN` -/

/-- `SecretBuf::push_cstr`. -/
def pushCstr (buf slice : List UInt8) : List UInt8 := buf ++ (slice ++ [0])

/-- `SecretBuf::push_slice`. -/
def pushSlice (buf slice : List UInt8) : List UInt8 := buf ++ slice

/-- `PlainLogic`, with the bytes that are to be sent. -/
structure PlainLogic where
  data : List UInt8

/-- `PlainLogic::new`. -/
def PlainLogic.new (authzid authcid passwd : List UInt8) : PlainLogic :=
  ⟨pushSlice (pushCstr (pushCstr [] authzid) authcid) passwd⟩

/-- The calls on the buffer of `PlainLogic::new`. -/
def plainCalls (alloc : Allocator) (authzid authcid passwd : Slice) : List SecretBuf.Call :=
  [.withCapacity alloc
      (UInt64.ofNat
        (2 + passwd.bytes.length + authcid.bytes.length + authzid.bytes.length)),
    .pushCstr alloc authzid, .pushCstr alloc authcid, .pushSlice alloc passwd]

/-- **The buffer of `PLAIN`** is made with room for all of the data, so it need not grow when it
holds some of it. -/
theorem exists_plainBuf (checks : Bool) (alloc : Allocator) (authzid authcid passwd : Slice)
    (h : 2 + passwd.bytes.length + authcid.bytes.length + authzid.bytes.length < 2 ^ 63) :
    ∃ buf, SecretBuf.run checks (plainCalls alloc authzid authcid passwd) = .ok buf ∧
      buf.contents =
        (PlainLogic.new authzid.bytes authcid.bytes passwd.bytes).data.map some := by
  generalize hsize :
    2 + passwd.bytes.length + authcid.bytes.length + authzid.bytes.length = size at h
  have hcount : (UInt64.ofNat size).toNat = size := by
    rw [UInt64.toNat_ofNat']
    exact Nat.mod_eq_of_lt (by omega)
  have hroom : size ≤ (List.replicate (alloc.grant size) (0 : UInt8)).length := by
    rw [List.length_replicate]
    exact alloc.le size
  have hnew : SecretBuf.step checks .empty (.withCapacity alloc (UInt64.ofNat size)) =
      .ok (.holding [] (List.replicate (alloc.grant size) 0)) := by
    rw [SecretBuf.step_withCapacity, hcount]
    exact SecretBuf.withCapacity_of_lt alloc h
  obtain ⟨spare₁, hpush₁, hlength₁⟩ :=
    SecretBuf.pushCstr_of_le checks alloc []
      (show authzid.bytes.length + 1 ≤ (List.replicate (alloc.grant size) (0 : UInt8)).length by
        omega)
  obtain ⟨spare₂, hpush₂, hlength₂⟩ :=
    SecretBuf.pushCstr_of_le checks alloc ([] ++ (authzid.bytes ++ [0]))
      (show authcid.bytes.length + 1 ≤ spare₁.length by omega)
  obtain ⟨spare₃, hpush₃, -⟩ :=
    SecretBuf.pushSlice_of_le checks alloc ([] ++ (authzid.bytes ++ [0]) ++ (authcid.bytes ++ [0]))
      (show passwd.bytes.length ≤ spare₂.length by omega)
  refine ⟨_, ?_, SecretBuf.contents_holding _ spare₃⟩
  have hstart : ([] : List SecretBuf.Call).foldlM (SecretBuf.step checks) .empty = .ok .empty := rfl
  have hfirst : SecretBuf.step checks _ (.pushCstr alloc authzid) = _ := hpush₁
  have hsecond : SecretBuf.step checks _ (.pushCstr alloc authcid) = _ := hpush₂
  have hthird : SecretBuf.step checks _ (.pushSlice alloc passwd) = _ := hpush₃
  have hrun₁ := (Machine.foldlM_concat hstart).trans hnew
  have hrun₂ := (Machine.foldlM_concat hrun₁).trans hfirst
  have hrun₃ := (Machine.foldlM_concat hrun₂).trans hsecond
  unfold plainCalls
  rw [hsize]
  exact (Machine.foldlM_concat hrun₃).trans hthird

/-- The data is swapped for the empty buffer of the handler, so it is sent once. -/
instance : SaslLogic PlainLogic where
  name _ := .fromStr "PLAIN"
  reply logic input :=
    if !input.isEmpty then (none, logic)
    else if logic.data.isEmpty then (none, logic)
    else (some logic.data, ⟨[]⟩)

/-- `Plain`. -/
structure Plain where
  authzid : NoNul
  authcid : NoNul
  passwd : NoNul

instance : Sasl Plain PlainLogic where
  logic sasl := [PlainLogic.new sasl.authzid.bytes sasl.authcid.bytes sasl.passwd.bytes]

/-- `PasswordMechanism`. -/
inductive PasswordMechanism where
  | plain
  deriving DecidableEq, Repr

/-- `PasswordMechanism::full_set`. -/
def PasswordMechanism.fullSet : List PasswordMechanism := [.plain]

/-- `PasswordMechanism::logic`. -/
def PasswordMechanism.logic (mech : PasswordMechanism) (authzid authcid passwd : List UInt8) :
    PlainLogic :=
  match mech with
  | .plain => PlainLogic.new authzid authcid passwd

/-- `Password`. -/
structure Password where
  denyMethods : Finset PasswordMechanism
  authzid : NoNul
  authcid : NoNul
  passwd : NoNul

instance : Sasl Password PlainLogic where
  logic sasl := (PasswordMechanism.fullSet.filter (· ∉ sasl.denyMethods)).map fun mech =>
    mech.logic sasl.authzid.bytes sasl.authcid.bytes sasl.passwd.bytes

/-- What comes before the first NUL, and what comes after it. -/
def splitNul (bytes : List UInt8) : List UInt8 × List UInt8 :=
  (bytes.takeWhile (· != 0), (bytes.dropWhile (· != 0)).tail)

theorem splitNul_append {bytes : List UInt8} (h : ∀ b ∈ bytes, b ≠ 0) (rest : List UInt8) :
    splitNul (bytes ++ 0 :: rest) = (bytes, rest) := by
  have hall : ∀ b ∈ bytes, (b != 0) = true := fun b hb => bne_iff_ne.mpr (h b hb)
  have hstop : ∀ b ∈ (0 :: rest : List UInt8).head?, (b != 0) = false := by simp
  rw [splitNul, Scan.takeWhile_append_of_stop hall hstop,
    Scan.dropWhile_append_of_stop hall hstop]
  rfl

/-- **The first two NULs of the data** separate the three strings. -/
theorem splitNul_plainData (authzid authcid passwd : NoNul) :
    ∃ rest, splitNul (PlainLogic.new authzid.bytes authcid.bytes passwd.bytes).data =
        (authzid.bytes, rest) ∧
      splitNul rest = (authcid.bytes, passwd.bytes) := by
  have hnul : ∀ (s : NoNul), ∀ b ∈ s.bytes, b ≠ 0 := fun s b hb =>
    isInvalidForNoNul_eq_false.mp (s.isInvalid_eq_false hb)
  refine ⟨authcid.bytes ++ 0 :: passwd.bytes, ?_, splitNul_append (hnul authcid) _⟩
  rw [← splitNul_append (hnul authzid)]
  simp [PlainLogic.new, pushSlice, pushCstr]

/-- A reply of `PLAIN` is its data. -/
theorem eq_data_of_reply {logic logic' : PlainLogic} {chal buf : List UInt8}
    (hreply : SaslLogic.reply logic chal = (some buf, logic')) : buf = logic.data := by
  simp only [SaslLogic.reply] at hreply
  split_ifs at hreply
  · exact absurd (congrArg Prod.fst hreply) (by simp)
  · exact absurd (congrArg Prod.fst hreply) (by simp)
  · exact (Option.some.inj (congrArg Prod.fst hreply)).symm

/-! ## The messages -/

/-- The `AUTHENTICATE` message with one argument. -/
def chunkMsg (chunk : Arg) : ClientMsg := (ClientMsg.new authenticate).addWord chunk

/-- **The messages that carry a reply**: full chunks and a shorter one, to the last of which the
decoder answers with the reply. -/
theorem handle_sends_chunks [Engine] [LawfulEngine] {L : Type} [SaslLogic L] {h : Handler L}
    {msg : ServerMsg} {chal buf : List UInt8} {logic : L} (hchal : h.challenge msg = some chal)
    (hreply : SaslLogic.reply h.logic chal = (some buf, logic)) :
    ∃ (chunks : List Arg) (last : Arg),
      (h.handle msg).2.1 = (chunks ++ [last]).map chunkMsg ∧
      (∀ chunk ∈ chunks, chunk.bytes.length = 400) ∧ last.bytes.length < 400 ∧
      Machine.outputs (fun (d : ChunkDecoder) (chunk : Arg) => d.add chunk.bytes)
          (ChunkDecoder.new 400) (chunks ++ [last]) =
        chunks.map (fun _ => none) ++ [some (.ok buf)] := by
  obtain ⟨chunks, last, htoList, hchunks, hlast, houtputs⟩ :=
    outputs_toList buf 400 (by decide) (by decide)
  refine ⟨chunks, last, ?_, hchunks, hlast, houtputs⟩
  rw [Handler.handle_of_challenge hchal, Handler.handleChallenge, hreply, ← htoList]
  rfl

/-- **The mechanisms that a configuration of the three strings makes**: each replies to the empty
challenge, and the first two NULs of a reply separate the strings. -/
theorem splitNul_of_reply (authzid authcid passwd : NoNul) (logic : PlainLogic)
    (hlogic : logic ∈ Sasl.logic (Plain.mk authzid authcid passwd) ∨
      ∃ deny, logic ∈ Sasl.logic (Password.mk deny authzid authcid passwd)) :
    (SaslLogic.reply logic []).1.isSome = true ∧
    ∀ chal buf logic', SaslLogic.reply logic chal = (some buf, logic') →
      ∃ rest, splitNul buf = (authzid.bytes, rest) ∧
        splitNul rest = (authcid.bytes, passwd.bytes) := by
  have hnew : logic = PlainLogic.new authzid.bytes authcid.bytes passwd.bytes := by
    rcases hlogic with hlogic | ⟨deny, hlogic⟩
    · exact List.mem_singleton.mp hlogic
    · obtain ⟨mech, -, rfl⟩ := List.mem_map.mp hlogic
      rfl
  subst hnew
  constructor
  · simp [SaslLogic.reply, PlainLogic.new, pushSlice, pushCstr]
  · intro chal buf logic' hreply
    rw [eq_data_of_reply hreply]
    exact splitNul_plainData authzid authcid passwd

/-- **The wire format.**  A reply goes out in `AUTHENTICATE` messages with one argument each, of 400
bytes but for the last, which has fewer; the decoder answers the last of the arguments with the
reply, and the others with nothing.  A reply of `PLAIN` tells the three strings it was made of. -/
theorem sasl_wire_format [Engine] [LawfulEngine] (L : Type) [SaslLogic L] :
    (∀ (h : Handler L) (msg : ServerMsg) (chal buf : List UInt8) (logic : L),
      h.challenge msg = some chal → SaslLogic.reply h.logic chal = (some buf, logic) →
      ∃ (chunks : List Arg) (last : Arg),
        (h.handle msg).2.1 = (chunks ++ [last]).map chunkMsg ∧
        (∀ chunk ∈ chunks, chunk.bytes.length = 400) ∧ last.bytes.length < 400 ∧
        Machine.outputs (fun (d : ChunkDecoder) (chunk : Arg) => d.add chunk.bytes)
            (ChunkDecoder.new 400) (chunks ++ [last]) =
          chunks.map (fun _ => none) ++ [some (.ok buf)]) ∧
    ∀ (authzid authcid passwd : NoNul) (logic : PlainLogic),
      (logic ∈ Sasl.logic (Plain.mk authzid authcid passwd) ∨
        ∃ deny, logic ∈ Sasl.logic (Password.mk deny authzid authcid passwd)) →
      (SaslLogic.reply logic []).1.isSome = true ∧
      ∀ chal buf logic', SaslLogic.reply logic chal = (some buf, logic') →
        ∃ rest, splitNul buf = (authzid.bytes, rest) ∧
          splitNul rest = (authcid.bytes, passwd.bytes) :=
  ⟨fun _ _ _ _ _ hchal hreply => handle_sends_chunks hchal hreply, splitNul_of_reply⟩

/-- An `AUTHENTICATE` message of the server. -/
def authenticateMsg (arg : Arg) : ServerMsg :=
  ⟨Tags.new, none, .cmd authenticate, Args.ofWords [arg]⟩

/-- A reply of `PLAIN`, in the standard alphabet. -/
theorem sasl_wire_format_plain :
    letI := standardEngine
    ∃ (chunks : List Arg) (last : Arg),
      ((Handler.new (PlainLogic.new [] (text "jilles") (text "sesame")) .new).handle
        (authenticateMsg ChunkEncoder.plus)).2.1 = (chunks ++ [last]).map chunkMsg ∧
      (∀ chunk ∈ chunks, chunk.bytes.length = 400) ∧ last.bytes.length < 400 ∧
      Machine.outputs (fun (d : ChunkDecoder) (chunk : Arg) => d.add chunk.bytes)
          (ChunkDecoder.new 400) (chunks ++ [last]) =
        chunks.map (fun _ => none) ++
          [some (.ok (0 :: (text "jilles" ++ 0 :: text "sesame")))] := by
  let _ : Engine := standardEngine
  have _ : LawfulEngine := lawful_standardEngine
  exact (sasl_wire_format PlainLogic).1 _ _ [] _ ⟨[]⟩ rfl rfl

end Auth

end Vinezombie
