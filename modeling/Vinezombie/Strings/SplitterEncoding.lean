import Vinezombie.Strings.Encoding
import Vinezombie.Strings.FlaggedSteps

/-!
# What a splitter knows about its range

A splitter remembers whether the bytes in its range are ASCII, are UTF-8, or nothing.  It cuts its
range at any byte, and gives up what it knows where it has to, with one exception: a guard that
restores only one end of the range leaves what is known about the shorter range to the longer one.

* `Encoding.Describes`, `Splitter.Sound`: what is known about a range is so, and likewise for the
  ranges that guards restore.
* `Splitter.Mends`: the bytes that a guard puts back are such as the splitter says.
* `Splitter.sound_restore_iff`: only then is a splitter right after the guard is dropped.
* `Splitter.Sound.apply`, `Splitter.Sound.run`: the methods of splitters.
-/

namespace Vinezombie

open Library Library.Utf8

namespace Flagged

/-! ## Cutting at a byte -/

/-- A class of bytes at the first of which a UTF-8 string can be cut: it has bytes below 128 only,
or all bytes from 128 on. -/
def Splits (p : UInt8 → Bool) : Prop :=
  (∀ b, p b = true → isAscii b = true) ∨ ∀ b, p b = false → isAscii b = true

theorem Splits.not {p : UInt8 → Bool} (hp : Splits p) : Splits fun b => !p b := by
  rcases hp with hp | hp
  · exact .inr fun b hb => hp b (by simpa using hb)
  · exact .inl fun b hb => hp b (by simpa using hb)

/-- **Cutting at the first byte of a class.** -/
theorem Splits.valid {p : UInt8 → Bool} (hp : Splits p) {slice : List UInt8} {idx : ℕ}
    (hidx : slice.findIdx? p = some idx) (h : Valid slice) :
    Valid (slice.take idx) ∧ Valid (slice.drop idx) := by
  obtain ⟨hlt, hb, hbefore⟩ := List.findIdx?_eq_some_iff_getElem.mp hidx
  have hsplit : slice.take idx ++ slice[idx] :: slice.drop (idx + 1) = slice := by
    rw [← List.drop_eq_getElem_cons hlt, List.take_append_drop]
  rcases hp with hp | hp
  · rw [List.drop_eq_getElem_cons hlt]
    rw [← hsplit, valid_append_cons_iff (hp _ hb)] at h
    exact ⟨h.1, (valid_cons_iff (hp _ hb)).mpr h.2⟩
  · have hascii : ∀ b ∈ slice.take idx, isAscii b = true := by
      intro b hmem
      obtain ⟨j, hj, rfl⟩ := List.getElem_of_mem hmem
      rw [List.length_take] at hj
      rw [List.getElem_take]
      exact hp _ (by simpa using hbefore j (by omega))
    refine ⟨valid_of_isAscii hascii, ?_⟩
    rw [← List.take_append_drop idx slice, valid_ascii_append_iff hascii] at h
    exact h

/-- A byte from 128 on is not UTF-8 after bytes below 128. -/
theorem not_valid_append_singleton {l : List UInt8} {c : UInt8} (hl : ∀ b ∈ l, isAscii b = true)
    (hc : isAscii c = false) : ¬ Valid (l ++ [c]) := by
  rw [valid_ascii_append_iff hl]
  exact not_valid_singleton hc

/-- The bytes that are invalid for a kind are below 128, or all bytes from 128 on are. -/
theorem splits_isInvalid (U : Kind) : Splits U.type.isInvalid := by
  by_cases hU : U = .cmd
  · rw [hU]
    exact .inr (forall_byte (by decide +kernel))
  · refine .inl fun b hb => ?_
    by_contra hhigh
    have hvalid := Kind.isInvalid_of_class hU (f := fun c => !isAscii c) rfl (b := b)
      (by simpa using hhigh)
    rw [hb] at hvalid
    exact absurd hvalid (by simp)

/-! ## Ranges -/

/-- What is known about the encoding of some bytes is so. -/
def Encoding.Describes : Encoding → List UInt8 → Prop
  | unknown, _ => True
  | utf8, slice => Valid slice
  | ascii, slice => ∀ b ∈ slice, isAscii b = true

namespace Encoding

variable {e : Encoding} {slice slice' : List UInt8}

theorem Describes.valid (h : e.Describes slice) (he : e ≠ .unknown) : Valid slice := by
  cases e with
  | unknown => exact absurd rfl he
  | utf8 => exact h
  | ascii => exact valid_of_isAscii h

/-- What is known about bytes is known about some of them, where it may be only that they are
UTF-8 if those are. -/
theorem Describes.mono (h : e.Describes slice) (hsub : ∀ b ∈ slice', b ∈ slice)
    (hvalid : Valid slice → Valid slice') : e.Describes slice' := by
  cases e with
  | unknown => trivial
  | utf8 => exact hvalid h
  | ascii => exact fun b hb => h b (hsub b hb)

theorem describes_nil (e : Encoding) : e.Describes [] := by
  cases e with
  | unknown => trivial
  | utf8 => exact valid_nil
  | ascii => simp [Describes]

/-- What is known about bytes holds of more of them exactly if it holds of those. -/
theorem Describes.append_left_iff (h : e.Describes slice) :
    e.Describes (slice ++ slice') ↔ e.Describes slice' := by
  cases e with
  | unknown => exact Iff.rfl
  | utf8 => exact valid_append_left_iff h
  | ascii =>
    refine ⟨fun hall b hb => hall b (by simp [hb]), fun hall b hb => ?_⟩
    rcases List.mem_append.mp hb with hb | hb
    · exact h b hb
    · exact hall b hb

theorem Describes.append_right_iff (h : e.Describes slice) :
    e.Describes (slice' ++ slice) ↔ e.Describes slice' := by
  cases e with
  | unknown => exact Iff.rfl
  | utf8 => exact valid_append_right_iff h
  | ascii =>
    refine ⟨fun hall b hb => hall b (by simp [hb]), fun hall b hb => ?_⟩
    rcases List.mem_append.mp hb with hb | hb
    · exact hall b hb
    · exact h b hb

/-- Once a byte that is not below 128 was cut off, nothing is known any more. -/
theorem describes_ite {b : UInt8} (h : isAscii b = true → e.Describes slice) :
    (if !isAscii b then Encoding.unknown else e).Describes slice := by
  cases hb : isAscii b with
  | true => exact h hb
  | false => trivial

end Encoding

namespace Range

/-- A range of a string, and what is known about the bytes in it. -/
structure Sound (value : List UInt8) (r : Range) : Prop where
  start_le : r.start ≤ r.stop
  stop_le : r.stop ≤ value.length
  describes : r.encoding.Describes (r.constrain value)

/-- A range inside another one. -/
def Within (r r' : Range) : Prop := r'.start ≤ r.start ∧ r.stop ≤ r'.stop

variable {value : List UInt8} {r : Range}

theorem length_constrain (h : r.stop ≤ value.length) :
    (r.constrain value).length = r.stop - r.start := by
  rw [constrain, List.length_drop, List.length_take, Nat.min_eq_left h]

/-- Bytes are cut off at the front. -/
theorem Sound.drop (h : Sound value r) {n : ℕ} (hn : n ≤ (r.constrain value).length)
    {e : Encoding} (he : e.Describes ((r.constrain value).drop n)) :
    Sound value ⟨r.start + n, r.stop, e⟩ ∧ Within ⟨r.start + n, r.stop, e⟩ r := by
  rw [length_constrain h.stop_le] at hn
  have hle := h.start_le
  refine ⟨⟨by show r.start + n ≤ r.stop; omega, h.stop_le, ?_⟩,
    by show r.start ≤ r.start + n; omega, Nat.le_refl _⟩
  rw [constrain, List.drop_drop] at he
  exact he

/-- Bytes are cut off at the end. -/
theorem Sound.take (h : Sound value r) {n : ℕ} (hn : n ≤ (r.constrain value).length)
    {e : Encoding} (he : e.Describes ((r.constrain value).take n)) :
    Sound value ⟨r.start, r.start + n, e⟩ ∧ Within ⟨r.start, r.start + n, e⟩ r := by
  rw [length_constrain h.stop_le] at hn
  have hle := h.start_le
  have hstop := h.stop_le
  refine ⟨⟨by show r.start ≤ r.start + n; omega, by show r.start + n ≤ value.length; omega, ?_⟩,
    Nat.le_refl _, by show r.start + n ≤ r.stop; omega⟩
  rw [constrain, List.take_drop, List.take_take, Nat.min_eq_left (by omega)] at he
  exact he

theorem Within.trans {r₁ r₂ r₃ : Range} (h : Within r₁ r₂) (h' : Within r₂ r₃) : Within r₁ r₃ :=
  ⟨h'.1.trans h.1, h.2.trans h'.2⟩

/-- **A range that is put back**, to one inside of which it lies, or one end of it. -/
theorem Within.restore {r saved : Range} (h : Within r saved) (hr : r.start ≤ r.stop)
    (start stop : Bool) :
    (r.restore saved start stop).start ≤ (r.restore saved start stop).stop ∧
      (r.restore saved start stop).Within saved := by
  obtain ⟨hstart, hstop⟩ := h
  unfold Range.restore Range.Within
  cases start with
  | true =>
    cases stop with
    | true => exact ⟨hstart.trans (hr.trans hstop), Nat.le_refl _, Nat.le_refl _⟩
    | false => exact ⟨hstart.trans hr, Nat.le_refl _, hstop⟩
  | false =>
    cases stop with
    | true => exact ⟨hr.trans hstop, hstart, Nat.le_refl _⟩
    | false => exact ⟨hr, hstart, hstop⟩

/-- **`consume`** keeps what is known unless it is that the bytes are UTF-8. -/
theorem Sound.consume (h : Sound value r) (count : ℕ) :
    Sound value (r.consume count) ∧ Within (r.consume count) r := by
  have hlen := length_constrain h.stop_le
  refine h.take (n := min count r.len) ?_ ?_
  · rw [hlen]
    exact Nat.min_le_right _ _
  · split
    · trivial
    · rename_i hnot
      have hdesc := h.describes
      cases he : r.encoding with
      | unknown => trivial
      | utf8 =>
        have hzero : min count r.len = 0 := by
          by_contra hpos
          exact hnot ⟨Nat.pos_of_ne_zero hpos, he⟩
        rw [hzero]
        exact Encoding.describes_nil _
      | ascii =>
        rw [he] at hdesc
        exact fun b hb => hdesc b (List.mem_of_mem_take hb)

/-- **Moving past the bytes before the first one of a class**, or past all of them. -/
theorem Sound.advance_findIdx (h : Sound value r) {p : UInt8 → Bool} (hp : Splits p) {idx : ℕ}
    (hidx : (r.constrain value).findIdx? p = some idx) :
    Sound value { r with start := r.start + idx } ∧ Within { r with start := r.start + idx } r := by
  refine h.drop (Library.Scan.lt_length_of_findIdx? hidx).le ?_
  exact h.describes.mono (fun b hb => List.mem_of_mem_drop hb) fun hv => (hp.valid hidx hv).2

theorem Sound.advance_all (h : Sound value r) :
    Sound value { r with start := r.stop } ∧ Within { r with start := r.stop } r := by
  have hle := h.start_le
  have hlen := length_constrain h.stop_le
  have hnil : (r.constrain value).drop (r.stop - r.start) = [] := by
    rw [← hlen, List.drop_length]
  have hdrop := h.drop (n := r.stop - r.start) (e := r.encoding) (by omega)
    (by rw [hnil]; exact Encoding.describes_nil _)
  rwa [Nat.add_sub_cancel' hle] at hdrop

end Range

/-! ## Splitters -/

/-- Each guard was made inside the next one. -/
def Nested : Range → List SavedIndices → Prop
  | _, [] => True
  | r, g :: guards => r.Within g.saved ∧ Nested g.saved guards

theorem Nested.within {r r' : Range} (hr : r'.Within r) {guards : List SavedIndices}
    (h : Nested r guards) : Nested r' guards := by
  cases guards with
  | nil => trivial
  | cons g guards => exact ⟨hr.trans h.1, h.2⟩

namespace Splitter

/-- **What holds of a splitter**: what it knows about its range is so, and likewise for the ranges
that its guards restore. -/
structure Sound (s : Splitter) : Prop where
  str : s.str.Sound
  range : s.range.Sound s.str.value
  guards : ∀ g ∈ s.guards, g.saved.Sound s.str.value
  nested : Nested s.range s.guards

variable {s : Splitter}

/-- A smaller range. -/
theorem Sound.ofRange (h : s.Sound) {r : Range}
    (hr : r.Sound s.str.value ∧ r.Within s.range) : Sound { s with range := r } :=
  ⟨h.str, hr.1, h.guards, h.nested.within hr.2⟩

theorem sound_new {kind : Kind} {b : Bytes} (h : b.Sound) : (new kind b).Sound where
  str := h
  range :=
    { start_le := Nat.zero_le _
      stop_le := Nat.le_refl _
      describes := by
        show Encoding.Describes _ ((b.value.take b.value.length).drop 0)
        rw [List.take_length, List.drop_zero]
        show (if b.utf8 = .valid then Encoding.utf8 else .unknown).Describes b.value
        split
        · rename_i hvalid
          exact h.valid hvalid
        · trivial }
  guards := by simp [new]
  nested := trivial

theorem Sound.save (h : s.Sound) (start stop : Bool) : (s.save start stop).Sound where
  str := h.str
  range := h.range
  guards := by
    rintro g (_ | ⟨_, hg⟩)
    · exact h.range
    · exact h.guards g hg
  nested := ⟨⟨Nat.le_refl _, Nat.le_refl _⟩, h.nested⟩

theorem Sound.checkEncoding (h : s.Sound) : s.checkEncoding.Sound := by
  have hset : ∀ e : Encoding, e.Describes s.asSlice →
      Sound { s with range.encoding := e } := fun e he =>
    h.ofRange ⟨⟨h.range.start_le, h.range.stop_le, he⟩, Nat.le_refl _, Nat.le_refl _⟩
  unfold Splitter.checkEncoding
  split
  · cases hidx : s.asSlice.findIdx? fun c => !isAscii c with
    | none =>
      refine hset .ascii fun b hb => ?_
      simpa using List.findIdx?_eq_none_iff.mp hidx b hb
    | some idx =>
      dsimp only
      split
      · rename_i hvalid
        refine hset .utf8 ?_
        -- the bytes before the index are below 128
        have hascii : ∀ b ∈ s.asSlice.take idx, isAscii b = true := by
          intro b hb
          rw [Library.Scan.take_eq_takeWhile_of_findIdx? hidx] at hb
          simpa using List.mem_takeWhile_imp hb
        show Valid s.asSlice
        rw [← List.take_append_drop idx s.asSlice, valid_ascii_append_iff hascii]
        exact hvalid
      · exact h
  · exact h

theorem Sound.nextByte (h : s.Sound) : s.nextByte.Sound := by
  unfold Splitter.nextByte
  cases hhead : s.asSlice.head? with
  | none => exact h
  | some b =>
    obtain ⟨rest, hslice⟩ := List.head?_eq_some_iff.mp hhead
    have hslice' : s.range.constrain s.str.value = b :: rest := hslice
    refine h.ofRange (h.range.drop (n := 1) (by rw [hslice']; simp) ?_)
    refine Encoding.describes_ite fun hb => ?_
    refine h.range.describes.mono (fun c hc => List.mem_of_mem_drop hc) fun hv => ?_
    rw [hslice', valid_cons_iff hb] at hv
    rw [hslice']
    exact hv

theorem Sound.rnextByte (h : s.Sound) : s.rnextByte.Sound := by
  unfold Splitter.rnextByte
  cases hlast : s.asSlice.getLast? with
  | none => exact h
  | some b =>
    obtain ⟨init, hslice⟩ := List.getLast?_eq_some_iff.mp hlast
    have hslice' : s.range.constrain s.str.value = init ++ [b] := hslice
    have hlen := Range.length_constrain h.range.stop_le
    rw [hslice', List.length_append, List.length_singleton] at hlen
    have hstop : s.range.stop - 1 = s.range.start + init.length := by omega
    dsimp only
    rw [hstop]
    refine h.ofRange (h.range.take (by rw [hslice']; simp) ?_)
    refine Encoding.describes_ite fun hb => ?_
    refine h.range.describes.mono (fun c hc => List.mem_of_mem_take hc) fun hv => ?_
    rw [hslice', valid_append_cons_iff hb] at hv
    rw [hslice', List.take_left]
    exact hv.1

theorem Sound.consumeWhile (h : s.Sound) {f : UInt8 → Bool} (hf : Splits f) :
    (s.consumeWhile f).Sound := by
  unfold Splitter.consumeWhile
  cases hidx : s.asSlice.findIdx? fun b => !f b with
  | none => exact h.ofRange h.range.advance_all
  | some idx => exact h.ofRange (h.range.advance_findIdx hf.not hidx)

theorem Sound.untilByte (h : s.Sound) (f : List UInt8 → UInt8 → Bool) : (s.untilByte f).Sound := by
  unfold Splitter.untilByte
  split
  · exact h.ofRange (h.range.consume _)
  · exact h

theorem Sound.untilCount (h : s.Sound) (len : ℕ) : (s.untilCount len).Sound :=
  h.ofRange (h.range.consume len)

theorem Sound.untilByteEq (h : s.Sound) (b : UInt8) : (s.untilByteEq b).Sound := by
  unfold Splitter.untilByteEq
  cases hidx : s.asSlice.findIdx? (· == b) with
  | none => exact h
  | some idx =>
    refine h.ofRange (h.range.take (Library.Scan.lt_length_of_findIdx? hidx).le ?_)
    have hdesc := h.range.describes
    split
    · trivial
    · rename_i hnot
      cases he : s.range.encoding with
      | unknown => trivial
      | utf8 =>
        have hb : isAscii b = true := by simpa [he] using hnot
        have hsplits : Splits (· == b) := .inl fun c hc => by rw [eq_of_beq hc]; exact hb
        rw [he] at hdesc
        exact (hsplits.valid hidx hdesc).1
      | ascii =>
        rw [he] at hdesc
        exact fun c hc => hdesc c (List.mem_of_mem_take hc)

/-! ### Guards -/

/-- The bytes that come back into the range when a guard of one end of it is dropped. -/
def putBack (s : Splitter) (g : SavedIndices) : List UInt8 :=
  if g.start then (s.str.value.take s.range.start).drop g.saved.start
  else (s.str.value.take g.saved.stop).drop s.range.stop

/-- **A guard may be dropped**: it restores both ends of the range or none, or what the splitter
knows about its range also holds of the bytes that come back into it. -/
def Mends (s : Splitter) : Prop :=
  ∀ g ∈ s.guards.head?, g.start ≠ g.stop → s.range.encoding.Describes (s.putBack g)

theorem drop_append_drop {value : List UInt8} {i j k : ℕ} (hij : i ≤ j) (hjk : j ≤ k) :
    (value.take k).drop i = (value.take j).drop i ++ (value.take k).drop j := by
  have hsplit : value.take k = value.take j ++ (value.take k).drop j := by
    conv_lhs => rw [← List.take_append_drop j (value.take k), List.take_take,
      Nat.min_eq_left hjk]
  by_cases hj : j ≤ value.length
  · conv_lhs => rw [hsplit]
    rw [List.drop_append_of_le_length]
    rw [List.length_take, Nat.min_eq_left hj]
    exact hij
  · have hk : value.take k = value.take j := by
      rw [List.take_of_length_le (by omega), List.take_of_length_le (by omega)]
    have hnil : (value.take k).drop j = [] :=
      List.drop_eq_nil_of_le (by rw [List.length_take]; omega)
    rw [hnil, List.append_nil, hk]

/-- **The range after a guard of one end is dropped**: what is known about it is so exactly if the
guard may be dropped. -/
theorem sound_restore_iff (h : s.Sound) {g : SavedIndices} {guards : List SavedIndices}
    (hguards : s.guards = g :: guards) (hone : g.start ≠ g.stop) :
    (s.range.restore g.saved g.start g.stop).encoding.Describes
        ((s.range.restore g.saved g.start g.stop).constrain s.str.value) ↔
      s.range.encoding.Describes (s.putBack g) := by
  have hwithin : s.range.Within g.saved := by
    have hnested := h.nested
    rw [hguards] at hnested
    exact hnested.1
  have hle := h.range.start_le
  have hdesc := h.range.describes
  unfold Range.restore putBack
  cases hstart : g.start with
  | true =>
    have hstop : g.stop = false := by
      cases hs : g.stop with
      | true => exact absurd (hstart.trans hs.symm) hone
      | false => rfl
    rw [hstop]
    show s.range.encoding.Describes ((s.str.value.take s.range.stop).drop g.saved.start) ↔ _
    rw [drop_append_drop hwithin.1 hle]
    exact hdesc.append_right_iff
  | false =>
    have hstop : g.stop = true := by
      cases hs : g.stop with
      | true => rfl
      | false => exact absurd (hstart.trans hs.symm) hone
    rw [hstop]
    show s.range.encoding.Describes ((s.str.value.take g.saved.stop).drop s.range.start) ↔ _
    rw [drop_append_drop hle hwithin.2]
    exact hdesc.append_left_iff

/-- Where a range lies after a guard is dropped. -/
theorem within_restore (h : s.Sound) {g : SavedIndices} {guards : List SavedIndices}
    (hguards : s.guards = g :: guards) :
    (s.range.restore g.saved g.start g.stop).start ≤
        (s.range.restore g.saved g.start g.stop).stop ∧
      (s.range.restore g.saved g.start g.stop).stop ≤ s.str.value.length ∧
      (s.range.restore g.saved g.start g.stop).Within g.saved := by
  have hnested := h.nested
  rw [hguards] at hnested
  obtain ⟨hle, hwithin⟩ := hnested.1.restore h.range.start_le g.start g.stop
  exact ⟨hle, hwithin.2.trans (h.guards g (by rw [hguards]; simp)).stop_le, hwithin⟩

/-- **Dropping a guard that may be dropped.** -/
theorem Sound.drop (h : s.Sound) (hmends : s.Mends) : s.drop.Sound := by
  unfold Splitter.drop
  cases hguards : s.guards with
  | nil => exact h
  | cons g guards =>
    obtain ⟨hle, hstop, hwithin⟩ := within_restore h hguards
    have hnested := h.nested
    rw [hguards] at hnested
    refine ⟨h.str, ⟨hle, hstop, ?_⟩, fun g' hg' => h.guards g' (by rw [hguards]; simp [hg']),
      hnested.2.within hwithin⟩
    by_cases hone : g.start = g.stop
    · have hsaved := (h.guards g (by rw [hguards]; simp)).describes
      show (s.range.restore g.saved g.start g.stop).encoding.Describes
        ((s.range.restore g.saved g.start g.stop).constrain s.str.value)
      unfold Range.restore
      rw [hone]
      cases g.stop with
      | true => exact hsaved
      | false => exact h.range.describes
    · exact (sound_restore_iff h hguards hone).mpr (hmends g (by rw [hguards]; rfl) hone)

theorem Sound.apply (h : s.Sound) (o : SplitterOp) (hdrop : o = .drop → s.Mends) :
    (o.apply s).Sound := by
  have hwhite : Splits isAsciiWhitespace := .inl (forall_byte (by decide +kernel))
  cases o with
  | nextByte => exact h.nextByte
  | rnextByte => exact h.rnextByte
  | consumeInvalid U => exact h.consumeWhile (splits_isInvalid U)
  | consumeWhitespace => exact h.consumeWhile hwhite
  | untilByte f => exact h.untilByte f
  | untilByteEq b => exact h.untilByteEq b
  | untilCount len => exact h.untilCount len
  | checkEncoding => exact h.checkEncoding
  | save start stop => exact h.save start stop
  | drop => exact h.drop (hdrop rfl)
  | clone => exact ⟨h.str, h.range, by simp [SplitterOp.apply, Splitter.clone], trivial⟩

/-! ### Extraction -/

/-- **Where an extraction ends**, both parts are UTF-8 if the whole range is. -/
theorem valid_of_peek {e : Extraction} {b : Bytes} (hpeek : e.peek s = .ok b) :
    ∃ n ≤ s.asSlice.length, b = s.extract (s.asSlice.take n) ∧
      (Valid s.asSlice → Valid (s.asSlice.take n) ∧ Valid (s.asSlice.drop n)) := by
  obtain ⟨n, hn, hb, -, ⟨rfl, -⟩ | hidx⟩ := Extraction.begins_of_peek hpeek
  · refine ⟨_, hn, hb, fun hv => ?_⟩
    rw [List.take_length, List.drop_length]
    exact ⟨hv, valid_nil⟩
  · exact ⟨n, hn, hb, fun hv => (splits_isInvalid e.kind).valid hidx hv⟩

/-- A string with bytes of the range, which are UTF-8 if all of them are. -/
theorem Sound.extract (h : s.Sound) {slice : List UInt8} (hslice : Valid s.asSlice → Valid slice) :
    (s.extract slice).Sound := by
  unfold Splitter.extract
  cases hlazy : s.isUtf8Lazy with
  | false => exact Utf8Flag.sound_unknown _
  | true =>
    refine Utf8Flag.sound_valid (hslice ?_)
    exact h.range.describes.valid (of_decide_eq_true hlazy)

/-- **A string that is extracted, and the splitter after it.** -/
theorem Sound.run (h : s.Sound) {e : Extraction} {b : Bytes} {s' : Splitter}
    (hrun : e.run s = some (b, s')) : b.Sound ∧ s'.Sound := by
  obtain ⟨-, ⟨hpeek, hs'⟩ | ⟨rfl, -, rfl⟩⟩ := Extraction.run_eq_some hrun
  · obtain ⟨n, hn, rfl, hvalid⟩ := valid_of_peek hpeek
    refine ⟨h.extract fun hv => (hvalid hv).1, ?_⟩
    rcases hs' with rfl | rfl
    · exact h
    · have hlen : (s.extract (s.asSlice.take n)).value.length = n := by
        show (s.asSlice.take n).length = n
        rw [List.length_take, Nat.min_eq_left hn]
      rw [hlen]
      refine h.ofRange (h.range.drop hn ?_)
      exact h.range.describes.mono (fun c hc => List.mem_of_mem_drop hc) fun hv => (hvalid hv).2
  · exact ⟨Utf8Flag.sound_unknown _, h⟩

/-- The rest of a splitter, as a `Bytes`. -/
theorem run_peekRest_bytes (s : Splitter) :
    (Extraction.peekRest .bytes).run s = some (s.extract s.asSlice, s) := by
  have hinto : s.kind.into .bytes = true := by
    cases s.kind <;> rfl
  unfold Extraction.run Extraction.allowed
  rw [if_pos hinto]
  rfl

/-- A splitter that takes its range to be ASCII when it is not: it can be cut where it is wrong
about UTF-8 too. -/
theorem exists_untilCount (he : s.range.encoding = .ascii)
    (hle : s.range.start ≤ s.range.stop) (hstop : s.range.stop ≤ s.str.value.length)
    (hnot : ¬ Encoding.ascii.Describes s.asSlice) :
    ∃ n, (s.untilCount n).range.encoding = .ascii ∧ ¬ Valid (s.untilCount n).asSlice := by
  have hmem : ∃ c ∈ s.asSlice, (!isAscii c) = true := by
    by_contra hall
    push Not at hall
    exact hnot fun c hc => by simpa using hall c hc
  obtain ⟨idx, hidx⟩ : ∃ idx, s.asSlice.findIdx? (fun c => !isAscii c) = some idx := by
    cases hidx : s.asSlice.findIdx? fun c => !isAscii c with
    | some idx => exact ⟨idx, rfl⟩
    | none =>
      obtain ⟨c, hc, hhigh⟩ := hmem
      exact absurd (List.findIdx?_eq_none_iff.mp hidx c hc) (by simp [hhigh])
  have hlt := Library.Scan.lt_length_of_findIdx? hidx
  have hlen : s.asSlice.length = s.range.len := Range.length_constrain hstop
  have hmin : min (idx + 1) s.range.len = idx + 1 := by omega
  refine ⟨idx + 1, ?_, ?_⟩
  · show (if 0 < min (idx + 1) s.range.len ∧ s.range.encoding = .utf8 then _ else _) = _
    rw [he]
    simp
  · have hslice : (s.untilCount (idx + 1)).asSlice = s.asSlice.take (idx + 1) := by
      show (s.str.value.take (s.range.start + min (idx + 1) s.range.len)).drop s.range.start =
        ((s.str.value.take s.range.stop).drop s.range.start).take (idx + 1)
      rw [hmin, List.take_drop, List.take_take, Nat.min_eq_left]
      have hrange : s.range.len = s.range.stop - s.range.start := rfl
      omega
    obtain ⟨_, hhigh, -⟩ := List.findIdx?_eq_some_iff_getElem.mp hidx
    rw [hslice, List.take_succ_eq_append_getElem hlt]
    refine not_valid_append_singleton (fun b hb => ?_) (by simpa using hhigh)
    rw [Library.Scan.take_eq_takeWhile_of_findIdx? hidx] at hb
    simpa using List.mem_takeWhile_imp hb

end Splitter

end Flagged

end Vinezombie
