import Vinezombie.Library.Scan
import Vinezombie.Strings.Newtypes

/-!
# The splitter

`string/splitter.rs`: a string together with the range of it that has not been consumed.  The model
keeps the source's indices, so that a saved range can be restored, and every method is described by
what it does to `asSlice`, the bytes still in the range.

* `Valid`: the range lies inside the string.  Every splitter starts valid and every method keeps it
  valid; it is what makes `is_empty` mean that no byte is left.
* `string_of_checkOthers_none`, `string_of_checkOthers_some`: extraction up to the first byte that
  is invalid for the requested type, and its refusal.
* `rest_of_checkOthers_none`, `restOrDefault_eq`: extraction of all that is left.
* `saveEnd`: a guard that restores the end of the range, as one expression.
-/

namespace Vinezombie

open Library.Scan

/-- `Splitter<T>`.  The field `string` is called `str` here, since a method has its name, and
`range.end` is called `stop`. -/
structure Splitter (T : StringType) where
  str : Str T
  start : ℕ
  stop : ℕ

namespace Splitter

variable {T U : StringType} (s : Splitter T)

/-! ## The methods -/

/-- `Splitter::new`. -/
def new (str : Str T) : Splitter T := ⟨str, 0, str.bytes.length⟩

/-- `Range::len`, which is also `Splitter::len`. -/
def len : ℕ := s.stop - s.start

/-- `is_empty`. -/
def isEmpty : Bool := s.len == 0

/-- `as_slice`, that is `&string[start..end]`. -/
def asSlice : List UInt8 := (s.str.bytes.take s.stop).drop s.start

/-- `self.range.start += count`. -/
def advance (count : ℕ) : Splitter T := { s with start := s.start + count }

/-- `Range::consume(count, true)`: keep at most `count` bytes. -/
def truncate (count : ℕ) : Splitter T := { s with stop := s.start + min count s.len }

/-- `Range::restore`. -/
def restore (saved : Splitter T) (start stop : Bool) : Splitter T :=
  { s with
    start := if start then saved.start else s.start
    stop := if stop then saved.stop else s.stop }

/-- `save_end()` followed by `f` on the guard, which is then dropped. -/
def saveEnd {α : Type} (f : Splitter T → α × Splitter T) : α × Splitter T :=
  ((f s).1, (f s).2.restore s false true)

/-- `peek_byte`. -/
def peekByte : Option UInt8 := s.asSlice.head?

/-- `next_byte`. -/
def nextByte : Option UInt8 × Splitter T :=
  match s.peekByte with
  | some b => (some b, s.advance 1)
  | none => (none, s)

/-- The two `consume_*` methods: move past the leading bytes that satisfy `f`. -/
def consumeWhile (f : UInt8 → Bool) : Splitter T :=
  match s.asSlice.findIdx? fun b => !f b with
  | some idx => s.advance idx
  | none => { s with start := s.stop }

/-- `consume_invalid`. -/
def consumeInvalid (U : StringType) : Splitter T := s.consumeWhile U.isInvalid

/-- `consume_whitespace`. -/
def consumeWhitespace : Splitter T := s.consumeWhile isAsciiWhitespace

/-- `until_byte_eq`. -/
def untilByteEq (b : UInt8) : Splitter T :=
  match s.asSlice.findIdx? (· == b) with
  | some idx => { s with stop := s.start + idx }
  | none => s

/-- `until_count`. -/
def untilCount (count : ℕ) : Splitter T := s.truncate count

/-- The end of `peek_string` and `peek_rest`: the bytes are known to be valid one by one, and the
whole-string check decides. -/
def fromChecked (U : StringType) (slice : List UInt8) (h : ∀ b ∈ slice, U.isInvalid b = false) :
    Except InvalidString (Str U) :=
  match ho : U.checkOthers slice with
  | some e => .error e
  | none => .ok ⟨slice, U.findInvalid_eq_none_iff.mpr ⟨ho, h⟩⟩

theorem isInvalid_take_of_findIdx? {l : List UInt8} {i : ℕ}
    (h : l.findIdx? U.isInvalid = some i) : ∀ b ∈ l.take i, U.isInvalid b = false := by
  intro b hb
  rw [take_eq_takeWhile_of_findIdx? h] at hb
  simpa using List.mem_takeWhile_imp hb

theorem isInvalid_of_findIdx?_none {l : List UInt8} (h : l.findIdx? U.isInvalid = none) :
    ∀ b ∈ l, U.isInvalid b = false :=
  fun b hb => by simpa using List.findIdx?_eq_none_iff.mp h b hb

/-- What `string` takes off. -/
def peekString (U : StringType) (requireRest : Bool) : Except InvalidString (Str U) :=
  match h : s.asSlice.findIdx? U.isInvalid with
  | some idx =>
    if requireRest then .error (.byte (s.asSlice.getD idx 0))
    else fromChecked U (s.asSlice.take idx) (isInvalid_take_of_findIdx? h)
  | none => fromChecked U s.asSlice (isInvalid_of_findIdx?_none h)

theorem isInvalid_asSlice [Str.Conv T U] : ∀ b ∈ s.asSlice, U.isInvalid b = false := by
  intro b hb
  exact Str.Conv.byte_valid (T := T) b
    (s.str.isInvalid_eq_false (List.mem_of_mem_take (List.mem_of_mem_drop hb)))

/-- What `rest` takes off. -/
def peekRest (U : StringType) [Str.Conv T U] : Except InvalidString (Str U) :=
  fromChecked U s.asSlice s.isInvalid_asSlice

/-- The common end of `string` and `rest`: consume what was extracted, or nothing. -/
def take (extracted : Except InvalidString (Str U)) : Except InvalidString (Str U) × Splitter T :=
  match extracted with
  | .ok next => (.ok next, s.advance next.bytes.length)
  | .error e => (.error e, s)

/-- The common end of `string_or_default` and `rest_or_default`. -/
def takeOrDefault [Str.HasEmpty U] (extracted : Except InvalidString (Str U)) :
    Str U × Splitter T :=
  match extracted with
  | .ok next => (next, s.advance next.bytes.length)
  | .error _ => (.empty, s.advance 0)

/-- `string`. -/
def string (U : StringType) (requireRest : Bool) : Except InvalidString (Str U) × Splitter T :=
  s.take (s.peekString U requireRest)

/-- `rest`. -/
def rest (U : StringType) [Str.Conv T U] : Except InvalidString (Str U) × Splitter T :=
  s.take (s.peekRest U)

/-- `string_or_default`. -/
def stringOrDefault (U : StringType) [Str.HasEmpty U] (requireRest : Bool) : Str U × Splitter T :=
  s.takeOrDefault (s.peekString U requireRest)

/-- `rest_or_default`. -/
def restOrDefault (U : StringType) [Str.Conv T U] [Str.HasEmpty U] : Str U × Splitter T :=
  s.takeOrDefault (s.peekRest U)

/-! ## What the methods do to the remaining bytes -/

@[simp] theorem asSlice_new (str : Str T) : (new str).asSlice = str.bytes := by
  simp [new, asSlice]

@[simp] theorem asSlice_advance (count : ℕ) :
    (s.advance count).asSlice = s.asSlice.drop count := by
  simp [advance, asSlice, List.drop_drop]

/-- Stopping `count` bytes after the start keeps the first `count` bytes. -/
theorem asSlice_stop {count : ℕ} (h : count ≤ s.asSlice.length) :
    ({ s with stop := s.start + count } : Splitter T).asSlice = s.asSlice.take count := by
  have hle : s.start + count ≤ s.stop ∨ count = 0 := by
    rw [asSlice, List.length_drop, List.length_take] at h
    omega
  rcases hle with hle | rfl
  · rw [asSlice, asSlice, List.take_drop, List.take_take, Nat.min_eq_left hle]
  · simp [asSlice]

/-- The bytes that are left after a guard of the end is dropped: those the saved splitter had, less
what was consumed through the guard. -/
theorem asSlice_restore_stop {saved : Splitter T} (count : ℕ) (hstr : s.str = saved.str)
    (hstart : s.start = saved.start + count) :
    (s.restore saved false true).asSlice = saved.asSlice.drop count := by
  simp only [restore, asSlice, hstr, hstart, List.drop_drop, Bool.false_eq_true, if_false,
    if_true]

@[simp] theorem nextByte_fst : s.nextByte.1 = s.asSlice.head? := by
  unfold nextByte peekByte
  cases h : s.asSlice.head? with
  | none => rfl
  | some b => rfl

@[simp] theorem asSlice_nextByte : s.nextByte.2.asSlice = s.asSlice.tail := by
  unfold nextByte peekByte
  cases h : s.asSlice.head? with
  | none =>
    rw [List.head?_eq_none_iff] at h
    simp [h]
  | some b => simp

theorem nextByte_of_nil (h : s.asSlice = []) : s.nextByte = (none, s) := by
  rw [nextByte, peekByte, h]
  rfl

theorem nextByte_of_cons {b : UInt8} {l : List UInt8} (h : s.asSlice = b :: l) :
    s.nextByte = (some b, s.advance 1) := by
  rw [nextByte, peekByte, h]
  rfl

@[simp] theorem asSlice_consumeWhile (f : UInt8 → Bool) :
    (s.consumeWhile f).asSlice = s.asSlice.dropWhile f := by
  have hf : (fun b => !!f b) = f := by funext b; simp
  unfold consumeWhile
  cases h : s.asSlice.findIdx? fun b => !f b with
  | none =>
    have hd := dropWhile_eq_nil_of_findIdx? h
    rw [hf] at hd
    rw [hd]
    simp [asSlice]
  | some idx =>
    have hd := drop_eq_dropWhile_of_findIdx? h
    rw [hf] at hd
    rw [asSlice_advance, hd]

@[simp] theorem asSlice_consumeInvalid (U : StringType) :
    (s.consumeInvalid U).asSlice = s.asSlice.dropWhile U.isInvalid :=
  s.asSlice_consumeWhile _

@[simp] theorem asSlice_consumeWhitespace :
    s.consumeWhitespace.asSlice = s.asSlice.dropWhile isAsciiWhitespace :=
  s.asSlice_consumeWhile _

theorem asSlice_untilByteEq (b : UInt8) :
    (s.untilByteEq b).asSlice = s.asSlice.takeWhile fun c => !(c == b) := by
  unfold untilByteEq
  cases h : s.asSlice.findIdx? (· == b) with
  | none => exact (takeWhile_eq_self_of_findIdx? h).symm
  | some idx =>
    show ({ s with stop := s.start + idx } : Splitter T).asSlice = _
    rw [asSlice_stop s (Nat.le_of_lt (lt_length_of_findIdx? h)), take_eq_takeWhile_of_findIdx? h]

@[simp] theorem str_untilByteEq (b : UInt8) : (s.untilByteEq b).str = s.str := by
  unfold untilByteEq
  split <;> rfl

@[simp] theorem start_untilByteEq (b : UInt8) : (s.untilByteEq b).start = s.start := by
  unfold untilByteEq
  split <;> rfl

/-! ## Validity of the range -/

/-- The range lies inside the string. -/
structure Valid : Prop where
  start_le : s.start ≤ s.stop
  stop_le : s.stop ≤ s.str.bytes.length

variable {s}

theorem valid_new (str : Str T) : (new str).Valid :=
  ⟨Nat.zero_le _, Nat.le_refl _⟩

theorem Valid.length_asSlice (h : s.Valid) : s.asSlice.length = s.len := by
  have := h.stop_le
  rw [asSlice, len, List.length_drop, List.length_take]
  omega

theorem Valid.isEmpty_iff (h : s.Valid) : s.isEmpty = true ↔ s.asSlice = [] := by
  rw [isEmpty, ← h.length_asSlice, beq_iff_eq, List.length_eq_zero_iff]

theorem Valid.isEmpty_of_cons (h : s.Valid) {b : UInt8} {l : List UInt8}
    (hl : s.asSlice = b :: l) : s.isEmpty = false := by
  rw [Bool.eq_false_iff, Ne, h.isEmpty_iff, hl]
  exact List.cons_ne_nil b l

theorem Valid.advance (h : s.Valid) {count : ℕ} (hc : count ≤ s.asSlice.length) :
    (s.advance count).Valid := by
  have h1 := h.start_le
  rw [h.length_asSlice, len] at hc
  exact ⟨show s.start + count ≤ s.stop by omega, h.stop_le⟩

theorem Valid.nextByte (h : s.Valid) : s.nextByte.2.Valid := by
  unfold Splitter.nextByte peekByte
  cases hb : s.asSlice.head? with
  | none => exact h
  | some b =>
    refine h.advance ?_
    cases hl : s.asSlice with
    | nil => simp [hl] at hb
    | cons c l => simp

theorem Valid.consumeWhile (h : s.Valid) (f : UInt8 → Bool) : (s.consumeWhile f).Valid := by
  unfold Splitter.consumeWhile
  split
  · rename_i idx hidx
    exact h.advance (Nat.le_of_lt (lt_length_of_findIdx? hidx))
  · exact ⟨Nat.le_refl _, h.stop_le⟩

/-- **What a guard of the end leaves**, when all the bytes before a delimiter are taken through it:
the delimiter and what follows. -/
theorem restore_untilByteEq (h : s.Valid) {b : UInt8} {count : ℕ}
    (hcount : count = (s.asSlice.takeWhile fun c => !(c == b)).length) :
    (((s.untilByteEq b).advance count).restore s false true).Valid ∧
      (((s.untilByteEq b).advance count).restore s false true).asSlice =
        s.asSlice.dropWhile fun c => !(c == b) := by
  have hle : count ≤ s.asSlice.length := by
    rw [hcount]
    exact (List.takeWhile_sublist _).length_le
  have hvalid := h.advance hle
  constructor
  · exact ⟨by simpa [Splitter.restore, Splitter.advance] using hvalid.start_le,
      by simpa [Splitter.restore, Splitter.advance] using hvalid.stop_le⟩
  · rw [asSlice_restore_stop _ count (by simp [Splitter.advance]) (by simp [Splitter.advance]),
      hcount, drop_length_takeWhile]

theorem Valid.truncate (h : s.Valid) (count : ℕ) : (s.truncate count).Valid := by
  have h1 := h.stop_le
  have h2 : min count s.len ≤ s.stop - s.start := Nat.min_le_right _ _
  have h3 := h.start_le
  exact ⟨show s.start ≤ s.start + min count s.len by omega,
    show s.start + min count s.len ≤ s.str.bytes.length by omega⟩

theorem asSlice_untilCount (h : s.Valid) (count : ℕ) :
    (s.untilCount count).asSlice = s.asSlice.take count := by
  have hlen : min count s.len ≤ s.asSlice.length := by
    rw [h.length_asSlice]
    exact Nat.min_le_right _ _
  rw [untilCount, Splitter.truncate, asSlice_stop s hlen, ← h.length_asSlice,
    ← List.take_eq_take_min]

/-! ## Extraction -/

theorem fromChecked_of_none {slice : List UInt8} {h : ∀ b ∈ slice, U.isInvalid b = false}
    (ho : U.checkOthers slice = none) :
    fromChecked U slice h = .ok ⟨slice, U.findInvalid_eq_none_iff.mpr ⟨ho, h⟩⟩ := by
  unfold fromChecked
  split
  · rename_i e he
    rw [ho] at he
    exact absurd he (by simp)
  · rfl

theorem fromChecked_of_some {slice : List UInt8} {h : ∀ b ∈ slice, U.isInvalid b = false}
    {e : InvalidString} (ho : U.checkOthers slice = some e) : fromChecked U slice h = .error e := by
  unfold fromChecked
  split
  · rename_i e' he
    rw [ho] at he
    rw [Option.some.inj he]
  · rename_i he
    rw [ho] at he
    exact absurd he (by simp)

/-- The bytes that `peek_string::<U>` looks at: those before the first one invalid for `U`. -/
def validPrefix (U : StringType) (l : List UInt8) : List UInt8 :=
  l.takeWhile fun b => !U.isInvalid b

/-- What follows the valid bytes. -/
def afterPrefix (U : StringType) (l : List UInt8) : List UInt8 :=
  l.dropWhile fun b => !U.isInvalid b

theorem isInvalid_validPrefix (U : StringType) (l : List UInt8) :
    ∀ b ∈ validPrefix U l, U.isInvalid b = false := by
  intro b hb
  simpa using List.mem_takeWhile_imp hb

theorem peekString_false (U : StringType) :
    s.peekString U false =
      fromChecked U (validPrefix U s.asSlice) (isInvalid_validPrefix U s.asSlice) := by
  unfold peekString
  split
  · rename_i idx h
    simp only [Bool.false_eq_true, if_false, take_eq_takeWhile_of_findIdx? h]
    rfl
  · rename_i h
    simp only [validPrefix, takeWhile_eq_self_of_findIdx? h]

/-- **Extraction succeeds** when the leading valid bytes pass the whole-string check: exactly those
bytes are returned and consumed. -/
theorem string_of_checkOthers_none (h : U.checkOthers (validPrefix U s.asSlice) = none) :
    ∃ w : Str U, w.bytes = validPrefix U s.asSlice ∧
      s.string U false = (.ok w, s.advance w.bytes.length) := by
  refine ⟨⟨_, U.findInvalid_eq_none_iff.mpr ⟨h, isInvalid_validPrefix U _⟩⟩, rfl, ?_⟩
  rw [string, peekString_false, fromChecked_of_none h]
  rfl

/-- **Extraction is refused** otherwise, and nothing is consumed. -/
theorem string_of_checkOthers_some {e : InvalidString}
    (h : U.checkOthers (validPrefix U s.asSlice) = some e) : s.string U false = (.error e, s) := by
  rw [string, peekString_false, fromChecked_of_some h]
  rfl

/-- `string::<U>(true)` on a range that is a `U` from end to end. -/
theorem string_true_of_findInvalid_none (h : U.findInvalid s.asSlice = none) :
    s.string U true = (.ok ⟨s.asSlice, h⟩, s.advance s.asSlice.length) := by
  obtain ⟨ho, hb⟩ := U.findInvalid_eq_none_iff.mp h
  unfold string peekString
  split
  · rename_i idx hidx
    obtain ⟨hlt, hinv, -⟩ := List.findIdx?_eq_some_iff_getElem.mp hidx
    rw [hb _ (List.getElem_mem hlt)] at hinv
    exact absurd hinv (by simp)
  · rw [fromChecked_of_none ho]
    rfl

theorem asSlice_advance_validPrefix (U : StringType) :
    (s.advance (validPrefix U s.asSlice).length).asSlice = afterPrefix U s.asSlice := by
  rw [asSlice_advance, validPrefix, drop_length_takeWhile, afterPrefix]

theorem length_validPrefix_le (U : StringType) (l : List UInt8) :
    (validPrefix U l).length ≤ l.length :=
  (List.takeWhile_sublist _).length_le

theorem rest_of_checkOthers_none [Str.Conv T U] (h : U.checkOthers s.asSlice = none) :
    ∃ w : Str U, w.bytes = s.asSlice ∧ s.rest U = (.ok w, s.advance w.bytes.length) := by
  refine ⟨⟨_, U.findInvalid_eq_none_iff.mpr ⟨h, s.isInvalid_asSlice⟩⟩, rfl, ?_⟩
  rw [rest, peekRest, fromChecked_of_none h]
  rfl

/-- `rest_or_default` of a type without a whole-string check is the rest. -/
theorem restOrDefault_eq [Str.Conv T U] [Str.HasEmpty U] (h : U.checkOthers s.asSlice = none) :
    ∃ w : Str U, w.bytes = s.asSlice ∧ s.restOrDefault U = (w, s.advance w.bytes.length) := by
  refine ⟨⟨_, U.findInvalid_eq_none_iff.mpr ⟨h, s.isInvalid_asSlice⟩⟩, rfl, ?_⟩
  rw [restOrDefault, peekRest, fromChecked_of_none h]
  rfl

/-- `string_or_default` of a type without a whole-string check is the leading valid bytes. -/
theorem stringOrDefault_eq [Str.HasEmpty U] (h : U.checkOthers (validPrefix U s.asSlice) = none) :
    ∃ w : Str U, w.bytes = validPrefix U s.asSlice ∧
      s.stringOrDefault U false = (w, s.advance w.bytes.length) := by
  refine ⟨⟨_, U.findInvalid_eq_none_iff.mpr ⟨h, isInvalid_validPrefix U _⟩⟩, rfl, ?_⟩
  rw [stringOrDefault, peekString_false, fromChecked_of_none h]
  rfl

theorem eq_of_take_ok {r : Except InvalidString (Str U)} {w : Str U} {s' : Splitter T}
    (h : s.take r = (.ok w, s')) : r = .ok w ∧ s' = s.advance w.bytes.length := by
  cases r with
  | error e => exact absurd (congrArg Prod.fst h) (by simp [take])
  | ok next =>
    obtain ⟨hw, hs'⟩ := Prod.mk.inj h
    obtain rfl := Except.ok.inj hw
    exact ⟨rfl, hs'.symm⟩

theorem bytes_of_fromChecked_ok {slice : List UInt8} {h : ∀ b ∈ slice, U.isInvalid b = false}
    {w : Str U} (hw : fromChecked U slice h = .ok w) : w.bytes = slice := by
  cases ho : U.checkOthers slice with
  | some e =>
    rw [fromChecked_of_some ho] at hw
    exact absurd hw (by simp)
  | none =>
    rw [fromChecked_of_none ho] at hw
    rw [← Except.ok.inj hw]

/-- What `string::<U>(false)` returned is the leading valid bytes. -/
theorem of_string_false_ok {w : Str U} {s' : Splitter T} (h : s.string U false = (.ok w, s')) :
    w.bytes = validPrefix U s.asSlice ∧ s' = s.advance w.bytes.length := by
  obtain ⟨hpeek, hs'⟩ := s.eq_of_take_ok h
  rw [peekString_false] at hpeek
  exact ⟨bytes_of_fromChecked_ok hpeek, hs'⟩

/-- What `string::<U>(true)` returned is the whole range. -/
theorem of_string_true_ok {w : Str U} {s' : Splitter T} (h : s.string U true = (.ok w, s')) :
    w.bytes = s.asSlice ∧ s' = s.advance w.bytes.length := by
  obtain ⟨hpeek, hs'⟩ := s.eq_of_take_ok h
  refine ⟨?_, hs'⟩
  unfold peekString at hpeek
  split at hpeek
  · exact absurd hpeek (by simp)
  · exact bytes_of_fromChecked_ok hpeek

/-- A scan for a string of type `U` stops at the end of valid bytes. -/
theorem validPrefix_append {U : StringType} {l r : List UInt8}
    (hl : ∀ b ∈ l, U.isInvalid b = false) (hr : ∀ b ∈ r.head?, U.isInvalid b = true) :
    validPrefix U (l ++ r) = l :=
  takeWhile_append_of_stop (by simpa using hl) (by simpa using hr)

theorem afterPrefix_append {U : StringType} {l r : List UInt8}
    (hl : ∀ b ∈ l, U.isInvalid b = false) (hr : ∀ b ∈ r.head?, U.isInvalid b = true) :
    afterPrefix U (l ++ r) = r :=
  dropWhile_append_of_stop (by simpa using hl) (by simpa using hr)

end Splitter

end Vinezombie
