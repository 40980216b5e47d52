import Vinezombie.Strings.Splitter

/-!
# Base64 in chunks

`string/base64.rs`: data is encoded and cut into chunks of a fixed length for `AUTHENTICATE`, and
chunks are collected until one is shorter than that.

The encoding itself is the engine `STANDARD` of the `base64` crate.  `Engine` is what the source
uses of it: the two directions, and that encoded text consists of the characters of the alphabet and
the padding character.  A `ChunkEncoder` carries what this makes true of it: its splitter has
something left, and no colon in it, so that every chunk is an `Arg`.

* `ChunkEncoder.next`, `ChunkEncoder.toList`: the chunks, one by one and all.
* `ChunkDecoder.add`, `ChunkDecoder.decode`.
-/

namespace Vinezombie

namespace Base64

/-- `base64::DecodeError`. -/
inductive DecodeError where
  | invalidByte (offset : ℕ) (b : UInt8)
  | invalidLength
  | invalidLastSymbol (offset : ℕ) (b : UInt8)
  | invalidPadding
  deriving DecidableEq, Repr

/-- The standard alphabet and the padding character. -/
def isBase64 (b : UInt8) : Bool :=
  isAsciiAlphabetic b || isAsciiDigit b || b == byte '+' || b == byte '/' || b == byte '='

/-- `base64::engine::general_purpose::STANDARD`. -/
class Engine where
  encode : List UInt8 → List UInt8
  decode : List UInt8 → Except DecodeError (List UInt8)
  isBase64_encode : ∀ bytes, ∀ b ∈ encode bytes, isBase64 b = true

theorem isInvalidForWord_of_isBase64 {b : UInt8} (h : isBase64 b = true) :
    isInvalidForWord true b = false ∧ b ≠ byte ':' := by
  refine ⟨isInvalidForWord_of_class h rfl, ?_⟩
  rintro rfl
  exact absurd h (by decide)

/-- Encoded text that is not empty is an `Arg`. -/
theorem encode_valid [Engine] {bytes : List UInt8} (hne : Engine.encode bytes ≠ []) :
    StringType.arg.findInvalid (Engine.encode bytes) = none := by
  refine StringType.arg.findInvalid_eq_none_iff.mpr ⟨?_, fun b hb =>
    (isInvalidForWord_of_isBase64 (Engine.isBase64_encode bytes b hb)).1⟩
  obtain ⟨b, rest, hb⟩ := List.exists_cons_of_ne_nil hne
  rw [StringType.checkOthers_arg, hb]
  refine argFirstCheck_cons_of_ne
    (isInvalidForWord_of_isBase64 (Engine.isBase64_encode bytes b ?_)).2 rest
  rw [hb]
  exact List.mem_cons_self

/-! ## Encoding -/

/-- `ChunkEncoder`.  The splitter is absent where the source has `Err`: what is left to say is that
nothing follows. -/
structure ChunkEncoder where
  splitter : Option (Splitter .arg)
  max : ℕ
  /-- There is something left to split, and every chunk of it is an `Arg`. -/
  valid : ∀ s ∈ splitter, s.Valid ∧ s.asSlice ≠ [] ∧ ∀ b ∈ s.asSlice, b ≠ byte ':'

namespace ChunkEncoder

/-- `ChunkEncoder::empty`. -/
def empty : ChunkEncoder := ⟨none, 0, by simp⟩

/-- `ChunkEncoder::new`. -/
def new [Engine] (bytes : List UInt8) (max : ℕ) : ChunkEncoder :=
  if max = 0 then empty
  else if h : Engine.encode bytes ≠ [] then
    { splitter := some (Splitter.new ⟨Engine.encode bytes, encode_valid h⟩)
      max := max
      valid := by
        intro s hs
        rw [← Option.some.inj hs, Splitter.asSlice_new]
        exact ⟨Splitter.valid_new _, h, fun b hb =>
          (isInvalidForWord_of_isBase64 (Engine.isBase64_encode bytes b hb)).2⟩ }
  else ⟨none, max, by simp⟩

/-- `splitter.save_end().until_count(self.max).rest::<Arg>()`. -/
def cut (s : Splitter .arg) (max : ℕ) : Except InvalidString Arg × Splitter .arg :=
  s.saveEnd fun s => (s.untilCount max).rest .arg

/-- **The chunk**: it is there, and is what comes first. -/
theorem cut_spec {s : Splitter .arg} {max : ℕ} (hmax : max ≠ 0) (hs : s.Valid)
    (hne : s.asSlice ≠ []) (hcolon : ∀ b ∈ s.asSlice, b ≠ byte ':') :
    ∃ (chunk : Arg) (s' : Splitter .arg), cut s max = (.ok chunk, s') ∧
      chunk.bytes = s.asSlice.take max ∧ s'.Valid ∧ s'.asSlice = s.asSlice.drop max := by
  have hslice := Splitter.asSlice_untilCount hs max
  obtain ⟨b, rest, hb⟩ := List.exists_cons_of_ne_nil hne
  obtain ⟨n, rfl⟩ := Nat.exists_eq_succ_of_ne_zero hmax
  obtain ⟨chunk, hchunk, hrest⟩ := Splitter.rest_of_checkOthers_none
    (s := s.untilCount (n + 1)) (U := .arg) (by
      rw [hslice, hb, List.take_succ_cons, StringType.checkOthers_arg]
      exact argFirstCheck_cons_of_ne (hcolon b (by rw [hb]; exact List.mem_cons_self)) _)
  rw [hslice] at hchunk
  have hlen : chunk.bytes.length ≤ s.asSlice.length := by
    rw [hchunk, List.length_take]
    exact Nat.min_le_right _ _
  have hcut : cut s (n + 1) = (.ok chunk, s.advance chunk.bytes.length) := by
    rw [cut, Splitter.saveEnd, hrest]
    rfl
  refine ⟨chunk, s.advance chunk.bytes.length, hcut, hchunk, hs.advance hlen, ?_⟩
  rw [Splitter.asSlice_advance, hchunk, List.length_take]
  rcases Nat.le_total (n + 1) s.asSlice.length with h | h
  · rw [Nat.min_eq_left h]
  · rw [Nat.min_eq_right h, List.drop_of_length_le (Nat.le_refl _), List.drop_of_length_le h]

theorem cut_isOk {s : Splitter .arg} {max : ℕ} (hmax : max ≠ 0)
    (h : s.Valid ∧ s.asSlice ≠ [] ∧ ∀ b ∈ s.asSlice, b ≠ byte ':') :
    (cut s max).1.isOk = true := by
  obtain ⟨chunk, s', hcut, -⟩ := cut_spec hmax h.1 h.2.1 h.2.2
  rw [hcut]
  rfl

/-- What a chunk leaves can be split on. -/
theorem valid_of_cut {s : Splitter .arg} {max : ℕ} (hmax : max ≠ 0)
    (h : s.Valid ∧ s.asSlice ≠ [] ∧ ∀ b ∈ s.asSlice, b ≠ byte ':')
    (hne : ¬ (cut s max).2.isEmpty = true) :
    (cut s max).2.Valid ∧ (cut s max).2.asSlice ≠ [] ∧
      ∀ b ∈ (cut s max).2.asSlice, b ≠ byte ':' := by
  obtain ⟨chunk, s', hcut, -, hs', hslice⟩ := cut_spec hmax h.1 h.2.1 h.2.2
  rw [hcut] at hne ⊢
  refine ⟨hs', fun hnil => hne (hs'.isEmpty_iff.mpr hnil), fun b hb => ?_⟩
  rw [hslice] at hb
  exact h.2.2 b (List.mem_of_mem_drop hb)

/-- The literal `"+"`. -/
def plus : Arg := .fromStr "+"

/-- `next`. -/
def next (e : ChunkEncoder) : Option (Arg × ChunkEncoder) :=
  if hmax : e.max = 0 then none
  else
    match hs : e.splitter with
    | none => some (plus, empty)
    | some s =>
      let chunk := unwrap (cut s e.max).1 (cut_isOk hmax (e.valid s hs))
      if chunk.bytes.length < e.max then some (chunk, empty)
      else if hne : (cut s e.max).2.isEmpty = true then some (chunk, ⟨none, e.max, by simp⟩)
      else some (chunk, ⟨some (cut s e.max).2, e.max, by
        intro s' hs'
        rw [← Option.some.inj hs']
        exact valid_of_cut hmax (e.valid s hs) hne⟩)

/-- A bound on the number of chunks that are left. -/
def fuel (e : ChunkEncoder) : ℕ :=
  if e.max = 0 then 0
  else
    match e.splitter with
    | none => 1
    | some s => s.asSlice.length + 1

theorem fuel_next {e e' : ChunkEncoder} {chunk : Arg} (h : e.next = some (chunk, e')) :
    e'.fuel < e.fuel := by
  unfold next at h
  split at h
  · exact absurd h (by simp)
  · rename_i hmax
    have hempty : empty.fuel = 0 := rfl
    split at h
    · rename_i hs
      rw [Option.some.injEq, Prod.mk.injEq] at h
      rw [← h.2, hempty, fuel, if_neg hmax, hs]
      exact Nat.one_pos
    · rename_i s hs
      obtain ⟨_, s', hcut, -, -, hslice⟩ :=
        cut_spec hmax (e.valid s hs).1 (e.valid s hs).2.1 (e.valid s hs).2.2
      have hpos : 0 < s.asSlice.length := List.length_pos_iff.mpr (e.valid s hs).2.1
      have hfuel : e.fuel = s.asSlice.length + 1 := by rw [fuel, if_neg hmax, hs]
      dsimp only at h
      split at h
      · rw [Option.some.injEq, Prod.mk.injEq] at h
        rw [← h.2, hempty]
        omega
      · split at h
        · rw [Option.some.injEq, Prod.mk.injEq] at h
          rw [← h.2, hfuel, fuel, if_neg hmax]
          exact Nat.lt_add_of_pos_left hpos
        · rw [Option.some.injEq, Prod.mk.injEq] at h
          rw [← h.2, hfuel, fuel, if_neg hmax]
          show (cut s e.max).2.asSlice.length + 1 < s.asSlice.length + 1
          rw [hcut, hslice, List.length_drop]
          omega

/-- All the chunks, as a `for` loop over the encoder sees them. -/
def toList (e : ChunkEncoder) : List Arg :=
  match _h : e.next with
  | none => []
  | some (chunk, e') => chunk :: toList e'
termination_by e.fuel
decreasing_by exact fuel_next _h

end ChunkEncoder

/-! ## Decoding -/

/-- `ChunkDecoder`: what was collected, and the length of a chunk. -/
structure ChunkDecoder where
  buf : List UInt8
  chunkLen : ℕ
  deriving DecidableEq

namespace ChunkDecoder

/-- `ChunkDecoder::new`. -/
def new (chunkLen : ℕ) : ChunkDecoder := ⟨[], chunkLen⟩

variable [Engine] (d : ChunkDecoder)

/-- `decode`, which empties the decoder. -/
def decode : Except DecodeError (List UInt8) × ChunkDecoder :=
  (Engine.decode d.buf, { d with buf := [] })

/-- `add`. -/
def add (chunk : List UInt8) : Option (Except DecodeError (List UInt8)) × ChunkDecoder :=
  if chunk.length < d.chunkLen then
    let d' := if chunk ≠ text "+" then { d with buf := d.buf ++ chunk } else d
    (some d'.decode.1, d'.decode.2)
  else (none, { d with buf := d.buf ++ chunk })

end ChunkDecoder

end Base64

end Vinezombie
