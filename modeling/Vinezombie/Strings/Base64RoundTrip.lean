import Mathlib.Algebra.BigOperators.Ring.List
import Vinezombie.Library.Machine
import Vinezombie.Strings.Base64

/-!
# Chunks and back

A `ChunkEncoder` ends with a chunk that is shorter than the others, which is `+` if there is nothing
left to put into it.  A `ChunkDecoder` takes a shorter chunk for the last one, and `+` for an empty
one.  But `+` is also a character of the alphabet, so the two agree only because encoded text is
never one character longer than a number of full chunks: its length and that of a full chunk are
multiples of four.

`LawfulEngine` is what is asked of the engine for that.  The last section gives an engine, the
encoding with the standard alphabet and padding, that has it.

* `ChunkEncoder.exists_toList`: what the chunks are.
* `ChunkDecoder.outputs_add`: what the decoder answers to chunks.
* `outputs_toList`: the decoder gets the data back that the encoder was given.
-/

namespace Vinezombie

open Library

namespace Base64

/-- What the source relies on: decoding undoes encoding, and encoded text is made of groups of four
characters. -/
class LawfulEngine [Engine] : Prop where
  decode_encode : ∀ bytes, Engine.decode (Engine.encode bytes) = .ok bytes
  four_dvd_length : ∀ bytes, 4 ∣ (Engine.encode bytes).length

/-! ## The chunks -/

namespace ChunkEncoder

/-- The text that is left. -/
def text (e : ChunkEncoder) : List UInt8 :=
  match e.splitter with
  | none => []
  | some s => s.asSlice

theorem text_new [Engine] (bytes : List UInt8) (max : ℕ) (hmax : max ≠ 0) :
    (new bytes max).text = Engine.encode bytes ∧ (new bytes max).max = max := by
  unfold new
  rw [if_neg hmax]
  split
  · exact ⟨Splitter.asSlice_new _, rfl⟩
  · rename_i hnil
    exact ⟨(not_not.mp hnil).symm, rfl⟩

/-- **One chunk**: there is nothing left, or all that is left fits, or there is a full chunk. -/
theorem next_cases {e : ChunkEncoder} (hmax : e.max ≠ 0) :
    (e.text = [] ∧ e.next = some (plus, empty)) ∨
    (∃ chunk, e.next = some (chunk, empty) ∧ e.text = chunk.bytes ∧ e.text ≠ [] ∧
      e.text.length < e.max) ∨
    ∃ chunk e', e.next = some (chunk, e') ∧ e'.max = e.max ∧ chunk.bytes.length = e.max ∧
      e.text = chunk.bytes ++ e'.text := by
  unfold next
  rw [dif_neg hmax]
  split
  · rename_i hs
    refine .inl ⟨?_, rfl⟩
    rw [text, hs]
  · rename_i s hs
    have htext : e.text = s.asSlice := by rw [text, hs]
    obtain ⟨hvalid, hne, hcolon⟩ := e.valid s hs
    obtain ⟨chunk, s', hcut, hchunk, hs', hrest⟩ := cut_spec hmax hvalid hne hcolon
    have hunwrap : unwrap (cut s e.max).1 (cut_isOk hmax (e.valid s hs)) = chunk :=
      unwrap_eq_of_eq_ok (congrArg Prod.fst hcut) _
    have hlen : chunk.bytes.length = min e.max s.asSlice.length := by
      rw [hchunk, List.length_take]
    dsimp only
    rw [hunwrap]
    split
    · rename_i hshort
      refine .inr (.inl ⟨chunk, rfl, ?_, by rw [htext]; exact hne, by rw [htext]; omega⟩)
      rw [htext, hchunk, List.take_of_length_le (by omega)]
    · rename_i hlong
      have hfull : chunk.bytes.length = e.max := by omega
      have happend : s.asSlice = chunk.bytes ++ s'.asSlice := by
        rw [hchunk, hrest, List.take_append_drop]
      split
      · rename_i hempty
        rw [hcut] at hempty
        refine .inr (.inr ⟨chunk, _, rfl, rfl, hfull, ?_⟩)
        rw [htext, happend, hs'.isEmpty_iff.mp hempty]
        rfl
      · refine .inr (.inr ⟨chunk, _, rfl, rfl, hfull, ?_⟩)
        rw [htext, happend]
        show _ = chunk.bytes ++ (cut s e.max).2.asSlice
        rw [hcut]

theorem toList_empty : empty.toList = [] := by
  rw [toList]
  rfl

theorem toList_of_next {e e' : ChunkEncoder} {chunk : Arg} (h : e.next = some (chunk, e')) :
    e.toList = chunk :: e'.toList := by
  rw [toList]
  split
  · rename_i hnone
    rw [h] at hnone
    exact absurd hnone (by simp)
  · rename_i chunk' e'' hsome
    rw [h, Option.some.injEq, Prod.mk.injEq] at hsome
    rw [hsome.1, hsome.2]

/-- **The chunks** that an encoder gives: full ones and a last one, which is `+` or what is left of
the text. -/
theorem exists_toList {max : ℕ} (hmax : 1 < max) (e : ChunkEncoder) (he : e.max = max) :
    ∃ (chunks : List Arg) (last : Arg), e.toList = chunks ++ [last] ∧
      (∀ chunk ∈ chunks, chunk.bytes.length = max) ∧ last.bytes.length < max ∧
      (e.text = chunks.flatMap (·.bytes) ∧ last = plus ∨
        e.text = chunks.flatMap (·.bytes) ++ last.bytes ∧ last.bytes ≠ []) := by
  induction hn : e.text.length using Nat.strong_induction_on generalizing e with
  | _ n ih =>
    rcases next_cases (e := e) (by omega) with ⟨htext, hnext⟩ | ⟨chunk, hnext, htext, hne, hshort⟩ |
      ⟨chunk, e', hnext, hmax', hfull, htext⟩
    · refine ⟨[], plus, ?_, by simp, hmax, .inl ⟨htext, rfl⟩⟩
      rw [toList_of_next hnext, toList_empty]
      rfl
    · refine ⟨[], chunk, ?_, by simp, by rw [← htext, ← he]; exact hshort,
        .inr ⟨htext, by rw [← htext]; exact hne⟩⟩
      rw [toList_of_next hnext, toList_empty]
      rfl
    · have hless : e'.text.length < n := by
        rw [← hn, htext, List.length_append]
        omega
      obtain ⟨chunks, last, htoList, hchunks, hlast, hrest⟩ :=
        ih e'.text.length hless e' (hmax'.trans he) rfl
      refine ⟨chunk :: chunks, last, ?_, ?_, hlast, ?_⟩
      · rw [toList_of_next hnext, htoList]
        rfl
      · rintro c (_ | ⟨_, hc⟩)
        · rw [hfull, he]
        · exact hchunks c hc
      · rw [htext, List.flatMap_cons]
        rcases hrest with ⟨h, hplus⟩ | ⟨h, hne⟩
        · exact .inl ⟨by rw [h], hplus⟩
        · exact .inr ⟨by rw [h, List.append_assoc], hne⟩

end ChunkEncoder

/-! ## The answers -/

namespace ChunkDecoder

variable [Engine]

/-- What a chunk adds to the text: `+` is an empty one. -/
def payload (chunk : List UInt8) : List UInt8 := if chunk = text "+" then [] else chunk

/-- A last chunk. -/
theorem add_of_lt {d : ChunkDecoder} {chunk : List UInt8} (h : chunk.length < d.chunkLen) :
    d.add chunk = (some (Engine.decode (d.buf ++ payload chunk)), ⟨[], d.chunkLen⟩) := by
  unfold add
  rw [if_pos h, payload]
  by_cases hplus : chunk = text "+"
  · rw [if_pos hplus, if_neg (not_not.mpr hplus), List.append_nil]
    rfl
  · rw [if_neg hplus, if_pos hplus]
    rfl

/-- A chunk that is not the last. -/
theorem add_of_le {d : ChunkDecoder} {chunk : List UInt8} (h : d.chunkLen ≤ chunk.length) :
    d.add chunk = (none, ⟨d.buf ++ chunk, d.chunkLen⟩) := by
  unfold add
  rw [if_neg (by omega)]

/-- **The answers to a list of chunks** of which only the last is shorter than the others. -/
theorem outputs_add (chunks : List Arg) (last : Arg) (d : ChunkDecoder)
    (hchunks : ∀ chunk ∈ chunks, chunk.bytes.length = d.chunkLen)
    (hlast : last.bytes.length < d.chunkLen) :
    Machine.outputs (fun d (chunk : Arg) => d.add chunk.bytes) d (chunks ++ [last]) =
      chunks.map (fun _ => none) ++
        [some (Engine.decode (d.buf ++ chunks.flatMap (·.bytes) ++ payload last.bytes))] := by
  induction chunks generalizing d with
  | nil => simp [Machine.outputs, add_of_lt hlast]
  | cons chunk chunks ih =>
    have hadd : d.add chunk.bytes = (none, _) := add_of_le (hchunks chunk (by simp)).ge
    rw [List.cons_append, Machine.outputs, hadd,
      ih ⟨d.buf ++ chunk.bytes, d.chunkLen⟩ (fun c hc => hchunks c (by simp [hc])) hlast]
    simp

end ChunkDecoder

/-- **Chunks and back.**  Data is cut into full chunks and a shorter one, and the decoder answers
the last of them, and only that one, with the data. -/
theorem outputs_toList [Engine] [LawfulEngine] (bytes : List UInt8) (max : ℕ) (hmax : 1 < max)
    (hfour : 4 ∣ max) :
    ∃ (chunks : List Arg) (last : Arg), (ChunkEncoder.new bytes max).toList = chunks ++ [last] ∧
      (∀ chunk ∈ chunks, chunk.bytes.length = max) ∧ last.bytes.length < max ∧
      Machine.outputs (fun (d : ChunkDecoder) (chunk : Arg) => d.add chunk.bytes)
          (ChunkDecoder.new max) (chunks ++ [last]) =
        chunks.map (fun _ => none) ++ [some (.ok bytes)] := by
  obtain ⟨htext, hmax'⟩ := ChunkEncoder.text_new bytes max (by omega)
  obtain ⟨chunks, last, htoList, hchunks, hlast, hrest⟩ :=
    ChunkEncoder.exists_toList hmax (ChunkEncoder.new bytes max) hmax'
  refine ⟨chunks, last, htoList, hchunks, hlast, ?_⟩
  rw [ChunkDecoder.outputs_add chunks last (ChunkDecoder.new max) hchunks hlast]
  have hpayload : chunks.flatMap (·.bytes) ++ ChunkDecoder.payload last.bytes =
      Engine.encode bytes := by
    rw [← htext]
    rcases hrest with ⟨h, rfl⟩ | ⟨h, hne⟩
    · rw [h]
      exact List.append_nil _
    · -- the last chunk is a number of groups of four, so it is not `+`
      have hlen : 4 ∣ (chunks.flatMap (·.bytes)).length + last.bytes.length := by
        rw [← List.length_append, ← h, htext]
        exact LawfulEngine.four_dvd_length bytes
      have hfull : 4 ∣ (chunks.flatMap (·.bytes)).length := by
        rw [List.length_flatMap]
        refine List.dvd_sum fun n hn => ?_
        obtain ⟨chunk, hchunk, rfl⟩ := List.mem_map.mp hn
        rw [hchunks chunk hchunk]
        exact hfour
      have hfour' : 4 ∣ last.bytes.length := (Nat.dvd_add_right hfull).mp hlen
      have hplus : last.bytes ≠ Vinezombie.text "+" := by
        intro hplus
        rw [hplus] at hfour'
        exact absurd hfour' (by decide)
      rw [h, ChunkDecoder.payload, if_neg hplus]
  show _ ++ [some (Engine.decode ([] ++ chunks.flatMap (·.bytes) ++
    ChunkDecoder.payload last.bytes))] = _
  rw [List.nil_append, hpayload, LawfulEngine.decode_encode]

/-! ## The standard alphabet -/

/-- The character for a number below 64. -/
def symbol (n : ℕ) : UInt8 :=
  if n < 26 then UInt8.ofNat (65 + n)
  else if n < 52 then UInt8.ofNat (97 + (n - 26))
  else if n < 62 then UInt8.ofNat (48 + (n - 52))
  else if n = 62 then byte '+'
  else byte '/'

/-- The number for a character. -/
def value (b : UInt8) : Option ℕ :=
  if byte 'A' ≤ b ∧ b ≤ byte 'Z' then some (b.toNat - 65)
  else if byte 'a' ≤ b ∧ b ≤ byte 'z' then some (b.toNat - 97 + 26)
  else if byte '0' ≤ b ∧ b ≤ byte '9' then some (b.toNat - 48 + 52)
  else if b = byte '+' then some 62
  else if b = byte '/' then some 63
  else none

theorem value_symbol : ∀ n < 64, value (symbol n) = some n := by decide

theorem isBase64_symbol : ∀ n < 64, isBase64 (symbol n) = true := by decide

/-- Three bytes to four characters, with padding at the end. -/
def encodeStandard : List UInt8 → List UInt8
  | [] => []
  | [a] => [symbol (a.toNat / 4), symbol (a.toNat % 4 * 16), byte '=', byte '=']
  | [a, b] =>
    [symbol (a.toNat / 4), symbol (a.toNat % 4 * 16 + b.toNat / 16), symbol (b.toNat % 16 * 4),
      byte '=']
  | a :: b :: c :: rest =>
    symbol (a.toNat / 4) :: symbol (a.toNat % 4 * 16 + b.toNat / 16) ::
      symbol (b.toNat % 16 * 4 + c.toNat / 64) :: symbol (c.toNat % 64) :: encodeStandard rest

/-- A group of four characters.  Bits that do not belong to a byte have to be zero. -/
def decodeGroup (last : Bool) (w x y z : UInt8) : Option (List UInt8) :=
  match value w, value x, value y, value z with
  | some i, some j, some k, some l =>
    some [UInt8.ofNat (i * 4 + j / 16), UInt8.ofNat (j % 16 * 16 + k / 4),
      UInt8.ofNat (k % 4 * 64 + l)]
  | some i, some j, some k, none =>
    if last ∧ z = byte '=' ∧ k % 4 = 0 then
      some [UInt8.ofNat (i * 4 + j / 16), UInt8.ofNat (j % 16 * 16 + k / 4)]
    else none
  | some i, some j, none, none =>
    if last ∧ y = byte '=' ∧ z = byte '=' ∧ j % 16 = 0 then some [UInt8.ofNat (i * 4 + j / 16)]
    else none
  | _, _, _, _ => none

/-- Groups of four characters, of which only the last may be padded. -/
def decodeStandard : List UInt8 → Option (List UInt8)
  | [] => some []
  | w :: x :: y :: z :: rest =>
    match decodeGroup rest.isEmpty w x y z, decodeStandard rest with
    | some bytes, some bytes' => some (bytes ++ bytes')
    | _, _ => none
  | _ => none

theorem decodeStandard_encodeStandard (bytes : List UInt8) :
    decodeStandard (encodeStandard bytes) = some bytes := by
  have hpad : value (byte '=') = none := by decide
  have hbyte : ∀ (b : UInt8) (n : ℕ), n = b.toNat → UInt8.ofNat n = b := by
    rintro b n rfl
    exact UInt8.ofNat_toNat
  induction bytes using encodeStandard.induct with
  | case1 => rfl
  | case2 a =>
    have ha := a.toNat_lt
    rw [encodeStandard, decodeStandard, decodeGroup, value_symbol _ (by omega),
      value_symbol _ (by omega), hpad]
    dsimp only
    rw [if_pos ⟨rfl, rfl, rfl, by omega⟩, hbyte a _ (by omega)]
    rfl
  | case3 a b =>
    have ha := a.toNat_lt
    have hb := b.toNat_lt
    rw [encodeStandard, decodeStandard, decodeGroup, value_symbol _ (by omega),
      value_symbol _ (by omega), value_symbol _ (by omega), hpad]
    dsimp only
    rw [if_pos ⟨rfl, rfl, by omega⟩, hbyte a _ (by omega), hbyte b _ (by omega)]
    rfl
  | case4 a b c rest ih =>
    have ha := a.toNat_lt
    have hb := b.toNat_lt
    have hc := c.toNat_lt
    rw [encodeStandard, decodeStandard, decodeGroup, value_symbol _ (by omega),
      value_symbol _ (by omega), value_symbol _ (by omega), value_symbol _ (by omega), ih]
    simp only [List.cons_append, List.nil_append]
    rw [hbyte a _ (by omega), hbyte b _ (by omega), hbyte c _ (by omega)]

theorem isBase64_encodeStandard (bytes : List UInt8) :
    ∀ b ∈ encodeStandard bytes, isBase64 b = true := by
  have hpad : isBase64 (byte '=') = true := by decide
  induction bytes using encodeStandard.induct with
  | case1 => simp [encodeStandard]
  | case2 a =>
    have ha := a.toNat_lt
    simp [encodeStandard, hpad, isBase64_symbol (a.toNat / 4) (by omega),
      isBase64_symbol (a.toNat % 4 * 16) (by omega)]
  | case3 a b =>
    have ha := a.toNat_lt
    have hb := b.toNat_lt
    simp [encodeStandard, hpad, isBase64_symbol (a.toNat / 4) (by omega),
      isBase64_symbol (a.toNat % 4 * 16 + b.toNat / 16) (by omega),
      isBase64_symbol (b.toNat % 16 * 4) (by omega)]
  | case4 a b c rest ih =>
    have ha := a.toNat_lt
    have hb := b.toNat_lt
    have hc := c.toNat_lt
    simp only [encodeStandard, List.mem_cons]
    rintro x (rfl | rfl | rfl | rfl | hx)
    · exact isBase64_symbol _ (by omega)
    · exact isBase64_symbol _ (by omega)
    · exact isBase64_symbol _ (by omega)
    · exact isBase64_symbol _ (by omega)
    · exact ih x hx

theorem four_dvd_length_encodeStandard (bytes : List UInt8) :
    4 ∣ (encodeStandard bytes).length := by
  induction bytes using encodeStandard.induct with
  | case1 => exact ⟨0, rfl⟩
  | case2 a => exact ⟨1, rfl⟩
  | case3 a b => exact ⟨1, rfl⟩
  | case4 a b c rest ih =>
    simp only [encodeStandard, List.length_cons]
    omega

theorem encodeStandard_ne_nil {bytes : List UInt8} (h : bytes ≠ []) :
    encodeStandard bytes ≠ [] := by
  cases bytes using encodeStandard.fun_cases_unfolding with
  | case1 => exact absurd rfl h
  | case2 a => simp
  | case3 a b => simp
  | case4 a b c rest => simp

/-- The standard alphabet with padding, up to which of the errors is returned. -/
@[reducible] def standardEngine : Engine where
  encode := encodeStandard
  decode text :=
    match decodeStandard text with
    | some bytes => .ok bytes
    | none => .error .invalidLength
  isBase64_encode := isBase64_encodeStandard

theorem lawful_standardEngine : @LawfulEngine standardEngine :=
  letI := standardEngine
  { decode_encode := fun bytes => by
      simp only [Engine.decode, Engine.encode, decodeStandard_encodeStandard]
    four_dvd_length := four_dvd_length_encodeStandard }

end Base64

end Vinezombie
