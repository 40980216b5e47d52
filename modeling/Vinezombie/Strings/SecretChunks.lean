import Vinezombie.Library.Iterator
import Vinezombie.Strings.Invariants
import Vinezombie.Strings.Secrecy

/-!
# The chunk encoder as an iterator

`ChunkEncoder` of `string/base64.rs` with all that it keeps: the splitter with its flags, or the
flag of the last chunk that is still to come, and what its traits say about what is left.  An
encoder is empty exactly if its maximum is zero, which is what it is set to after the last chunk.

* `ChunkEncoder.next_cases`: one call.
* `ChunkEncoder.exists_gives`: what is left, and that `len` counts it.
* `ChunkEncoder.calls_new`: an encoder after any number of calls.
* `outputs_chunks_iff`: for which data and maximum the decoder gets the data back.
-/

namespace Vinezombie

open Library Library.Iterator

namespace Flagged

/-- `ChunkEncoder`. -/
structure ChunkEncoder where
  splitter : Except Bool Splitter
  max : ℕ

namespace ChunkEncoder

/-- `empty`. -/
def empty : ChunkEncoder := ⟨.error false, 0⟩

/-- `new`. -/
def new [Base64.Engine] (bytes : List UInt8) (max : ℕ) (secret : Bool) : ChunkEncoder :=
  if max = 0 then empty
  else
    let encoded : Bytes := .ofVec (Base64.Engine.encode bytes) .valid false
    if !encoded.value.isEmpty then
      ⟨.ok (.new .arg (if secret then encoded.secret else encoded)), max⟩
    else ⟨.error secret, max⟩

variable (e : ChunkEncoder)

/-- `is_empty`. -/
def isEmpty : Bool := e.max == 0

/-- The literal `PLUS`. -/
def plus : Bytes := .fromStr "+"

/-- `next`.  It panics where the chunk is not an `Arg`. -/
def next : Except InvalidString (Option Bytes × ChunkEncoder) :=
  if e.max = 0 then .ok (none, e)
  else
    match e.splitter with
    | .ok splitter => do
      let guard := (splitter.save false true).untilCount e.max
      let chunk ← guard.peekRest .arg
      let splitter := (guard.advance chunk.value.length).drop
      if chunk.value.length < e.max then .ok (some chunk, empty)
      else if splitter.range.len = 0 then
        .ok (some chunk, ⟨.error splitter.str.isSecret, e.max⟩)
      else .ok (some chunk, ⟨.ok splitter, e.max⟩)
    | .error secret => .ok (some (if secret then plus.secret else plus), empty)

/-- `len`. -/
def len : ℕ :=
  if e.max = 0 then 0
  else
    match e.splitter with
    | .ok splitter => splitter.range.len / e.max + 1
    | .error _ => 1

/-- `size_hint`. -/
def sizeHint : ℕ × Option ℕ := (e.len, some e.len)

end ChunkEncoder

/-! ## What is left -/

namespace ChunkEncoder

/-- The text that is left. -/
def text (e : ChunkEncoder) : List UInt8 :=
  match e.splitter with
  | .ok splitter => splitter.asSlice
  | .error _ => []

/-- **The invariant** of an encoder that was created with a flag: the splitter has something left,
and no colon in it, and the flag is kept. -/
structure Inv (secret : Bool) (e : ChunkEncoder) : Prop where
  ok : ∀ s, e.splitter = .ok s → s.InBounds ∧ s.asSlice ≠ [] ∧ s.str.isSecret = secret ∧
    ∀ b ∈ s.str.value, Base64.isBase64 b = true
  error : e.max ≠ 0 → ∀ b, e.splitter = .error b → b = secret

theorem inv_empty (secret : Bool) : Inv secret empty :=
  ⟨fun _ hs => absurd hs (by simp [empty]), fun hmax => absurd rfl hmax⟩

/-- What is encoded with the flag. -/
theorem value_encoded (encoded : Bytes) (h : encoded.isSecret = false) (secret : Bool) :
    (if secret then encoded.secret else encoded).value = encoded.value ∧
      (if secret then encoded.secret else encoded).isSecret = secret := by
  cases secret with
  | true => exact ⟨Bytes.value_secret encoded, Bytes.isSecret_secret encoded⟩
  | false => exact ⟨rfl, h⟩

/-- **A new encoder** keeps the invariant, and has all the text left. -/
theorem new_spec [Base64.Engine] (bytes : List UInt8) (max : ℕ) (secret : Bool) :
    Inv secret (new bytes max secret) ∧ (new bytes max secret).max = max ∧
      (max ≠ 0 → (new bytes max secret).text = Base64.Engine.encode bytes) := by
  unfold new
  by_cases hmax : max = 0
  · rw [if_pos hmax]
    exact ⟨inv_empty secret, hmax.symm, fun hne => absurd hmax hne⟩
  · rw [if_neg hmax]
    dsimp only
    obtain ⟨hvalue, hsecret⟩ :=
      value_encoded (.ofVec (Base64.Engine.encode bytes) .valid false) rfl secret
    have hencode : (Bytes.ofVec (Base64.Engine.encode bytes) .valid false).value =
        Base64.Engine.encode bytes := rfl
    rw [hencode] at hvalue ⊢
    by_cases hnil : Base64.Engine.encode bytes = []
    · rw [hnil, if_neg (by decide)]
      exact ⟨⟨fun _ hs => absurd hs (by simp), fun _ b hb => (Except.error.inj hb).symm⟩, rfl,
        fun _ => rfl⟩
    · rw [if_pos (by simpa using hnil)]
      have hslice := Splitter.asSlice_new .arg
        (if secret then (Bytes.ofVec (Base64.Engine.encode bytes) .valid false).secret
          else .ofVec (Base64.Engine.encode bytes) .valid false)
      refine ⟨⟨fun s hs => ?_, fun _ b hb => absurd hb (by simp)⟩, rfl, fun _ =>
        hslice.trans hvalue⟩
      obtain rfl := Except.ok.inj hs
      refine ⟨⟨Nat.zero_le _, Nat.le_refl _⟩, by rw [hslice, hvalue]; exact hnil, hsecret,
        fun b hb => ?_⟩
      have hmem : b ∈ Base64.Engine.encode bytes := hvalue ▸ hb
      exact Base64.Engine.isBase64_encode bytes b hmem

/-- A piece of encoded text is an `Arg`. -/
theorem admits_of_isBase64 {bs : List UInt8} (h : ∀ b ∈ bs, Base64.isBase64 b = true)
    (hne : bs ≠ []) : Kind.arg.Admits bs := by
  refine Kind.admits_iff.mpr ⟨?_, fun b hb => (Base64.isInvalidForWord_of_isBase64 (h b hb)).1⟩
  obtain ⟨b, rest, rfl⟩ := List.exists_cons_of_ne_nil hne
  have hcolon := (Base64.isInvalidForWord_of_isBase64 (h b List.mem_cons_self)).2
  exact argFirstCheck_cons_of_ne hcolon rest

/-- An item that an encoder with a maximum and a flag may give. -/
structure Sound (max : ℕ) (secret : Bool) (item : Bytes) : Prop where
  admits : Kind.arg.Admits item.value
  length_le : item.value.length ≤ max
  isSecret : item.isSecret = secret

variable {secret : Bool} {e : ChunkEncoder}

/-- **One call**: there is no text left, or all that is left fits into a chunk, or a full chunk is
cut off. -/
theorem next_cases (h : Inv secret e) (hmax : e.max ≠ 0) :
    ∃ item e', e.next = .ok (some item, e') ∧ Inv secret e' ∧ Sound e.max secret item ∧
      (e.text = [] ∧ item.value = Vinezombie.text "+" ∧ e' = empty ∨
        e.text ≠ [] ∧ e.text.length < e.max ∧ item.value = e.text ∧ e' = empty ∨
        e.max ≤ e.text.length ∧ item.value = e.text.take e.max ∧ e'.max = e.max ∧
          e'.text = e.text.drop e.max) := by
  unfold next text
  rw [if_neg hmax]
  cases hsplitter : e.splitter with
  | error b =>
    obtain rfl := h.error hmax b hsplitter
    obtain ⟨hvalue, hsecret⟩ := value_encoded plus rfl b
    have hadmits : Kind.arg.Admits plus.value :=
      show Kind.arg.type.findInvalid plus.value = none by decide +kernel
    have hlength : plus.value.length = 1 := by decide +kernel
    exact ⟨_, _, rfl, inv_empty b, ⟨hvalue ▸ hadmits, by rw [hvalue]; omega, hsecret⟩,
      .inl ⟨rfl, hvalue, rfl⟩⟩
  | ok s =>
    obtain ⟨hbounds, hne, hsecret, hbase⟩ := h.ok s hsplitter
    have hslice := Splitter.asSlice_untilCount s e.max
    have hsub : ∀ b ∈ s.asSlice, Base64.isBase64 b = true := fun b hb =>
      hbase b (Splitter.mem_of_mem_asSlice hb)
    have hlen : (s.asSlice.take e.max).length = min e.max s.asSlice.length := List.length_take
    have hpos : 0 < s.asSlice.length := List.length_pos_iff.mpr hne
    have hadmits : Kind.arg.Admits (s.asSlice.take e.max) :=
      admits_of_isBase64 (fun b hb => hsub b (List.mem_of_mem_take hb))
        (List.length_pos_iff.mp (by omega))
    have hpeek : ((s.save false true).untilCount e.max).peekRest .arg =
        .ok (((s.save false true).untilCount e.max).extract (s.asSlice.take e.max)) := by
      rw [Splitter.peekRest, hslice, (Kind.admits_iff.mp hadmits).1]
    obtain ⟨chunk, hchunk⟩ :
        ∃ chunk, ((s.save false true).untilCount e.max).extract (s.asSlice.take e.max) = chunk :=
      ⟨_, rfl⟩
    have hvalue : chunk.value = s.asSlice.take e.max := by rw [← hchunk]; rfl
    have hsound : Sound e.max secret chunk :=
      ⟨hvalue ▸ hadmits, by rw [hvalue, hlen]; exact Nat.min_le_left _ _, by
        rw [← hchunk]; exact hsecret⟩
    obtain ⟨left, hleft⟩ : ∃ left,
        (((s.save false true).untilCount e.max).advance chunk.value.length).drop = left := ⟨_, rfl⟩
    have hdrop : left.asSlice = s.asSlice.drop chunk.value.length := by
      rw [← hleft]
      exact Splitter.asSlice_drop s e.max chunk.value.length
    have hstr : left.str = s.str := by rw [← hleft]; rfl
    have hbounds' : left.InBounds := by
      rw [← hleft]
      exact hbounds.drop e.max (by rw [hvalue, hlen]; exact Nat.min_le_right _ _)
    dsimp only
    rw [hpeek, hchunk]
    dsimp only [bind, Except.bind]
    rw [hleft]
    by_cases hshort : chunk.value.length < e.max
    · rw [if_pos hshort]
      rw [hvalue, hlen] at hshort
      refine ⟨chunk, empty, rfl, inv_empty secret, hsound,
        .inr (.inl ⟨hne, by omega, hvalue.trans (List.take_of_length_le (by omega)), rfl⟩)⟩
    · rw [if_neg hshort]
      rw [hvalue, hlen] at hshort
      have hfull : chunk.value.length = e.max := by rw [hvalue, hlen]; omega
      rw [hfull] at hdrop
      by_cases hempty : left.range.len = 0
      · rw [if_pos hempty]
        have hnil : s.asSlice.drop e.max = [] := by
          rw [← hdrop]
          exact List.eq_nil_of_length_eq_zero (hbounds'.length_asSlice.trans hempty)
        refine ⟨chunk, _, rfl, ⟨fun _ hs => absurd hs (by simp), fun _ b hb => ?_⟩, hsound,
          .inr (.inr ⟨by omega, hvalue, rfl, hnil.symm⟩)⟩
        rw [← Except.error.inj hb, hstr]
        exact hsecret
      · rw [if_neg hempty]
        refine ⟨chunk, _, rfl, ⟨fun s' hs' => ?_, fun _ b hb => absurd hb (by simp)⟩, hsound,
          .inr (.inr ⟨by omega, hvalue, rfl, hdrop⟩)⟩
        obtain rfl := Except.ok.inj hs'
        refine ⟨hbounds', fun hnil => hempty ?_, by rw [hstr]; exact hsecret, ?_⟩
        · rw [← hbounds'.length_asSlice, hnil]
          rfl
        · rw [hstr]
          exact hbase

/-- What `len` counts. -/
theorem len_eq (h : Inv secret e) (hmax : e.max ≠ 0) : e.len = e.text.length / e.max + 1 := by
  unfold len text
  rw [if_neg hmax]
  cases hsplitter : e.splitter with
  | error b => simp
  | ok s =>
    dsimp only
    rw [(h.ok s hsplitter).1.length_asSlice]

/-- The items that an encoder without flags gives which has the same text left. -/
theorem bytes_toList (plain : Base64.ChunkEncoder) (hmax : plain.max ≠ 0) :
    (plain.text = [] ∧ plain.toList.map (·.bytes) = [Vinezombie.text "+"]) ∨
      (plain.text ≠ [] ∧ plain.text.length < plain.max ∧
        plain.toList.map (·.bytes) = [plain.text]) ∨
      ∃ rest : Base64.ChunkEncoder, plain.max ≤ plain.text.length ∧ rest.max = plain.max ∧
        rest.text = plain.text.drop plain.max ∧
        plain.toList.map (·.bytes) = plain.text.take plain.max :: rest.toList.map (·.bytes) := by
  rcases Base64.ChunkEncoder.next_cases hmax with ⟨hnil, hnext⟩ |
    ⟨chunk, hnext, hwhole, hne, hshort⟩ | ⟨chunk, rest, hnext, hmax', hfull, happend⟩
  · refine .inl ⟨hnil, ?_⟩
    rw [Base64.ChunkEncoder.toList_of_next hnext, Base64.ChunkEncoder.toList_empty]
    rfl
  · refine .inr (.inl ⟨hne, hshort, ?_⟩)
    rw [Base64.ChunkEncoder.toList_of_next hnext, Base64.ChunkEncoder.toList_empty, hwhole]
    rfl
  · refine .inr (.inr ⟨rest, ?_, hmax', ?_, ?_⟩)
    · rw [happend, List.length_append]
      omega
    · rw [happend, ← hfull, List.drop_left]
    · rw [Base64.ChunkEncoder.toList_of_next hnext, happend, ← hfull, List.take_left]
      rfl

/-- **What is left**: as many items as `len` says, with the bytes that the encoder gives which has
the same text left and no flags. -/
theorem exists_gives (h : Inv secret e) :
    ∃ items, Gives next e items ∧ items.length = e.len ∧ (∀ item ∈ items, Sound e.max secret item) ∧
      ∀ plain : Base64.ChunkEncoder, plain.max = e.max → e.max ≠ 0 → plain.text = e.text →
        items.map (·.value) = plain.toList.map (·.bytes) := by
  have hempty : Gives next empty [] := .nil rfl
  by_cases hmax : e.max = 0
  · refine ⟨[], .nil (if_pos hmax), (if_pos hmax).symm, ?_, fun _ _ hne => absurd hmax hne⟩
    exact fun _ hitem => absurd hitem List.not_mem_nil
  induction hn : e.text.length using Nat.strong_induction_on generalizing e with
  | _ n ih =>
    obtain ⟨item, e', hnext, hinv, hsound, hcases⟩ := next_cases h hmax
    have hone : ∀ i ∈ [item], Sound e.max secret i := by
      intro i hi
      rwa [List.mem_singleton.mp hi]
    rcases hcases with ⟨hnil, hvalue, rfl⟩ | ⟨hne, hshort, hvalue, rfl⟩ |
      ⟨hlong, hvalue, hmaxe, hdrop⟩
    · refine ⟨[item], .cons hnext hempty, ?_, hone, fun plain hplain _ htext => ?_⟩
      · rw [len_eq h hmax, hnil, List.length_nil, Nat.zero_div]
        rfl
      · rcases bytes_toList plain (by omega) with ⟨-, hlist⟩ | ⟨hne, -⟩ |
          ⟨_, hlong, -⟩
        · rw [hlist, List.map_singleton, hvalue]
        · exact absurd (htext.trans hnil) hne
        · rw [htext, hnil, List.length_nil] at hlong
          omega
    · refine ⟨[item], .cons hnext hempty, ?_, hone, fun plain hplain _ htext => ?_⟩
      · rw [len_eq h hmax, Nat.div_eq_of_lt hshort]
        rfl
      · rcases bytes_toList plain (by omega) with ⟨hnil, -⟩ | ⟨-, -, hlist⟩ |
          ⟨_, hlong, -⟩
        · exact absurd (htext.symm.trans hnil) hne
        · rw [hlist, List.map_singleton, hvalue, htext]
        · rw [htext] at hlong
          omega
    · have hlength : e.text.length = e.max + e'.text.length := by
        rw [hdrop, List.length_drop]
        omega
      obtain ⟨items, hitems, hlen, hall, hmap⟩ :=
        ih e'.text.length (by omega) hinv (by omega) rfl
      refine ⟨item :: items, .cons hnext hitems, ?_, ?_, fun plain hplain _ htext => ?_⟩
      · rw [List.length_cons, hlen, len_eq hinv (by omega), len_eq h hmax, hmaxe, hlength,
          Nat.add_div_left _ (Nat.pos_of_ne_zero hmax)]
      · rintro i (_ | ⟨_, hi⟩)
        · exact hsound
        · exact hmaxe ▸ hall i hi
      · rcases bytes_toList plain (by omega) with ⟨hnil, -⟩ | ⟨-, hshort, -⟩ |
          ⟨rest, -, hrest, htext', hlist⟩
        · rw [← htext, hnil, List.length_nil] at hlong
          omega
        · rw [htext] at hshort
          omega
        · rw [hlist, List.map_cons, hvalue, htext, hplain, hmap rest (by omega) (by omega)]
          rw [htext', htext, hplain, hdrop]

/-- **A number of calls** keeps the invariant, and the maximum unless the encoder is emptied. -/
theorem exists_calls (h : Inv secret e) (k : ℕ) :
    ∃ given e', calls next e k = .ok (given, e') ∧ Inv secret e' ∧ e'.max ≤ e.max := by
  induction k generalizing e with
  | zero => exact ⟨[], e, rfl, h, Nat.le_refl _⟩
  | succ k ih =>
    obtain ⟨item, e₁, hnext, hinv, hle⟩ :
        ∃ item e₁, e.next = .ok (item, e₁) ∧ Inv secret e₁ ∧ e₁.max ≤ e.max := by
      by_cases hmax : e.max = 0
      · exact ⟨none, e, if_pos hmax, h, Nat.le_refl _⟩
      · obtain ⟨item, e₁, hnext, hinv, -, ⟨-, -, rfl⟩ | ⟨-, -, -, rfl⟩ | ⟨-, -, hmax₁, -⟩⟩ :=
          next_cases h hmax
        · exact ⟨some item, empty, hnext, hinv, Nat.zero_le _⟩
        · exact ⟨some item, empty, hnext, hinv, Nat.zero_le _⟩
        · exact ⟨some item, e₁, hnext, hinv, hmax₁.le⟩
    obtain ⟨given, e', hcalls, hinv', hle'⟩ := ih hinv
    exact ⟨item :: given, e', calls_succ hnext hcalls, hinv', hle'.trans hle⟩

/-- **An encoder after any number of calls** gives as many items as `len` and `size_hint` say, each
of them an `Arg` with at most the maximum of bytes, and secret if that was asked for; it is empty
exactly if that is none; and it gives nothing after them. -/
theorem calls_new [Base64.Engine] (bytes : List UInt8) (max : ℕ) (secret : Bool) (k : ℕ) :
    ∃ given e items, calls next (new bytes max secret) k = .ok (given, e) ∧
      (∀ n, ∃ e', calls next e n =
        .ok ((items.take n).map some ++ List.replicate (n - items.length) none, e')) ∧
      e.len = items.length ∧ e.sizeHint = (items.length, some items.length) ∧
      (e.isEmpty = true ↔ items = []) ∧
      ∀ item ∈ items, Kind.arg.Admits item.value ∧ item.value.length ≤ max ∧
        (secret = true → item.isSecret = true) := by
  obtain ⟨hinv, hmax, -⟩ := new_spec bytes max secret
  obtain ⟨given, e, hcalls, hinv', hle⟩ := exists_calls hinv k
  obtain ⟨items, hitems, hlen, hsound, -⟩ := exists_gives hinv'
  refine ⟨given, e, items, hcalls, fun n => ?_, hlen.symm, by rw [sizeHint, hlen], ?_,
    fun item hitem => ?_⟩
  · obtain ⟨e', he', -⟩ := hitems.calls_eq n
    exact ⟨e', he'⟩
  · rw [isEmpty, beq_iff_eq, ← List.length_eq_zero_iff, hlen]
    by_cases hzero : e.max = 0
    · exact iff_of_true hzero (if_pos hzero)
    · rw [len_eq hinv' hzero]
      exact iff_of_false hzero (Nat.succ_ne_zero _)
  · obtain ⟨hadmits, hlength, hsecret⟩ := hsound item hitem
    exact ⟨hadmits, hlength.trans (hle.trans hmax.le), fun htrue => hsecret.trans htrue⟩

end ChunkEncoder

end Flagged

/-! ## Chunks and back -/

namespace Base64

/-- What else the source relies on: text that is decoded is padded to groups of four characters. -/
class StrictEngine [Engine] : Prop extends LawfulEngine where
  four_dvd_of_decode : ∀ text bytes, Engine.decode text = .ok bytes → 4 ∣ text.length

theorem four_dvd_of_decodeStandard {text bytes : List UInt8}
    (h : decodeStandard text = some bytes) : 4 ∣ text.length := by
  induction text using decodeStandard.induct generalizing bytes with
  | case1 => exact ⟨0, rfl⟩
  | case2 w x y z rest bytes bytes' hrest _ ih =>
    have hdvd := ih hrest
    simp only [List.length_cons]
    omega
  | case3 w x y z rest hnone =>
    rw [decodeStandard] at h
    split at h
    · rename_i hgroup hrest
      exact (hnone _ _ hgroup hrest).elim
    · exact absurd h (by simp)
  | case4 text hnil hcons =>
    unfold decodeStandard at h
    split at h
    · exact (hnil rfl).elim
    · exact (hcons _ _ _ _ _ rfl).elim
    · exact absurd h (by simp)

theorem strict_standardEngine : @StrictEngine standardEngine :=
  letI := standardEngine
  { toLawfulEngine := lawful_standardEngine
    four_dvd_of_decode := by
      intro text bytes h
      simp only [Engine.decode] at h
      split at h
      · rename_i hdecode
        exact four_dvd_of_decodeStandard hdecode
      · exact absurd h (by simp) }

variable [Engine]

/-- The data is got back from full chunks and a last one unless that is a `+` of the text. -/
theorem decode_payload_iff [StrictEngine] {bytes full last : List UInt8} {max : ℕ}
    (hfull : max ∣ full.length) (hlast : last.length < max)
    (h : Engine.encode bytes = full ∧ last = Vinezombie.text "+" ∨
      Engine.encode bytes = full ++ last ∧ last ≠ []) :
    Engine.decode (full ++ ChunkDecoder.payload last) = .ok bytes ↔
      ¬((Engine.encode bytes).length % max = 1 ∧
        (Engine.encode bytes).getLast? = some (byte '+')) := by
  have hplus : Vinezombie.text "+" = [byte '+'] := by decide
  rw [ChunkDecoder.payload]
  rcases h with ⟨hencode, rfl⟩ | ⟨hencode, hne⟩
  · rw [if_pos rfl, List.append_nil, ← hencode]
    refine iff_of_true (LawfulEngine.decode_encode bytes) fun hcond => ?_
    rw [hencode, Nat.mod_eq_zero_of_dvd hfull] at hcond
    exact absurd hcond.1 (by decide)
  · have hmod : (Engine.encode bytes).length % max = last.length := by
      obtain ⟨n, hn⟩ := hfull
      rw [hencode, List.length_append, hn, Nat.mul_add_mod, Nat.mod_eq_of_lt hlast]
    have hend : (Engine.encode bytes).getLast? = last.getLast? := by
      rw [hencode, List.getLast?_append_of_ne_nil _ hne]
    rw [hmod, hend]
    by_cases hdata : last = Vinezombie.text "+"
    · have hfour : 4 ∣ (Engine.encode bytes).length := LawfulEngine.four_dvd_length bytes
      rw [if_pos hdata, List.append_nil]
      refine iff_of_false (fun hdecode => ?_) (not_not.mpr ?_)
      · -- a group of four characters is not complete without the `+`
        have hfour' := StrictEngine.four_dvd_of_decode full bytes hdecode
        rw [hencode, List.length_append, hdata, hplus, List.length_singleton] at hfour
        omega
      · rw [hdata, hplus]
        exact ⟨rfl, rfl⟩
    · rw [if_neg hdata, ← hencode]
      refine iff_of_true (LawfulEngine.decode_encode bytes) fun hcond => hdata ?_
      obtain ⟨b, hb⟩ := List.length_eq_one_iff.mp hcond.1
      rw [hb, List.getLast?_singleton] at hcond
      rw [hb, hplus, Option.some.inj hcond.2]

/-- **The decoder gets the data back** at the last item, and nothing before it, unless the encoded
data ends with a `+` that is left over after a number of full chunks. -/
theorem outputs_chunks_iff [StrictEngine] (bytes : List UInt8) (max : ℕ) (secret : Bool)
    (hmax : 2 ≤ max) :
    (∃ items, Gives Flagged.ChunkEncoder.next (.new bytes max secret) items ∧
      Machine.outputs (fun (d : ChunkDecoder) (item : Bytes) => d.add item.value)
          (ChunkDecoder.new max) items =
        List.replicate (items.length - 1) none ++ [some (.ok bytes)]) ↔
    ¬((Engine.encode bytes).length % max = 1 ∧
      (Engine.encode bytes).getLast? = some (byte '+')) := by
  obtain ⟨hinv, hmaxe, htext⟩ := Flagged.ChunkEncoder.new_spec bytes max secret
  obtain ⟨hplain, hmaxp⟩ := ChunkEncoder.text_new bytes max (by omega)
  obtain ⟨items, hitems, -, -, hmap⟩ := Flagged.ChunkEncoder.exists_gives hinv
  have hbytes := hmap (.new bytes max) (hmaxp.trans hmaxe.symm) (by omega)
    (hplain.trans (htext (by omega)).symm)
  obtain ⟨chunks, last, hlist, hchunks, hlast, hcases⟩ :=
    ChunkEncoder.exists_toList (by omega) (.new bytes max) hmaxp
  have houtputs : Machine.outputs (fun (d : ChunkDecoder) (item : Bytes) => d.add item.value)
      (ChunkDecoder.new max) items =
      List.replicate (items.length - 1) none ++
        [some (Engine.decode (chunks.flatMap (·.bytes) ++ ChunkDecoder.payload last.bytes))] := by
    have hlength : items.length = chunks.length + 1 := by
      have hlen := congrArg List.length hbytes
      rwa [List.length_map, List.length_map, hlist, List.length_append, List.length_singleton]
        at hlen
    rw [← Machine.outputs_map ChunkDecoder.add (fun item : Bytes => item.value), hbytes,
      Machine.outputs_map, hlist, ChunkDecoder.outputs_add chunks last _ hchunks hlast,
      List.map_const', hlength, Nat.add_sub_cancel]
    rfl
  have hfull : max ∣ (chunks.flatMap (·.bytes)).length := by
    rw [List.length_flatMap]
    refine List.dvd_sum fun n hn => ?_
    obtain ⟨chunk, hchunk, rfl⟩ := List.mem_map.mp hn
    rw [hchunks chunk hchunk]
  rw [hplain] at hcases
  have hiff := decode_payload_iff hfull hlast
    (hcases.imp (fun h => ⟨h.1, by rw [h.2]; rfl⟩) id)
  rw [← hiff]
  constructor
  · rintro ⟨items', hitems', h⟩
    rw [hitems'.unique hitems, houtputs] at h
    exact Option.some.inj (List.singleton_inj.mp (List.append_cancel_left h))
  · intro h
    exact ⟨items, hitems, by rw [houtputs, h]⟩

omit [Engine] in
/-- Data that is got back in chunks of two, although the text ends with a `+`. -/
theorem outputs_chunks_iff_standard :
    letI := standardEngine
    2 ≤ 2 ∧ ((∃ items, Gives Flagged.ChunkEncoder.next (.new [0, 0, 62] 2 true) items ∧
      Machine.outputs (fun (d : ChunkDecoder) (item : Bytes) => d.add item.value)
          (ChunkDecoder.new 2) items =
        List.replicate (items.length - 1) none ++ [some (.ok [0, 0, 62])]) ↔
    ¬((Engine.encode [0, 0, 62]).length % 2 = 1 ∧
      (Engine.encode [0, 0, 62]).getLast? = some (byte '+'))) :=
  letI := standardEngine
  letI := strict_standardEngine
  ⟨by decide, outputs_chunks_iff [0, 0, 62] 2 true (by decide)⟩

omit [Engine] in
/-- The text `AAA+` in chunks of three: the decoder takes the last one for an empty one. -/
theorem not_outputs_chunks :
    letI := standardEngine
    ¬∃ items, Gives Flagged.ChunkEncoder.next (.new [0, 0, 62] 3 false) items ∧
      Machine.outputs (fun (d : ChunkDecoder) (item : Bytes) => d.add item.value)
          (ChunkDecoder.new 3) items =
        List.replicate (items.length - 1) none ++ [some (.ok [0, 0, 62])] := by
  let _ : Engine := standardEngine
  rintro ⟨items, hitems, houtputs⟩
  have hencode : Engine.encode [0, 0, 62] = text "AAA+" := by decide +kernel
  have hgives : Gives Flagged.ChunkEncoder.next (.new [0, 0, 62] 3 false)
      [⟨text "AAA", true, .unknown, false⟩, ⟨text "+", true, .unknown, false⟩] := by
    rw [Flagged.ChunkEncoder.new, hencode]
    exact .cons rfl (.cons rfl (.nil rfl))
  rw [hitems.unique hgives] at houtputs
  revert houtputs
  decide +kernel

end Base64

end Vinezombie
