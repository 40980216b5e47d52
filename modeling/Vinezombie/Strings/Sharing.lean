import Vinezombie.Strings.Bytes
import Vinezombie.Util.ThinArc

/-!
# How strings share memory

`string/bytes.rs`: a string that owns its data has a pointer into a buffer, and a `ThinArc` of the
`OwnedSlice` that is the buffer.  Clones and parts of the string share the buffer; a string that is
given other bytes gets a buffer of its own, and drops what it had.  `into_vec` takes the buffer back
if nobody else has it, and copies the bytes otherwise.

What becomes of the bytes and the flags of a string is in `Strings.Bytes`; here it is where the bytes
are, and who owns them.  A pointer into memory that somebody else owns, for as long as the string is
borrowed from there, is a string of bytes.

Any number of threads may have strings.  A call takes place at once, but for the accesses to the
block of a `ThinArc` that follow its first one, which are actions of their own.

* `State`, `step`: buffers and strings, and what can be done with them.
* `Values.step`: the same without memory.
* `outcome_spec`: where the bytes of a string are after a call that changes it.
-/

namespace Vinezombie

namespace Sharing

/-! ## Strings in memory -/

/-- What a pointer leads to. -/
inductive Place where
  | outside (value : List UInt8)
  | inside (buffer start len : ℕ)
  deriving DecidableEq

/-- The slice of a slice. -/
def Place.part (start len : ℕ) : Place → Place
  | .outside value => .outside ((value.drop start).take len)
  | .inside buffer start' _ => .inside buffer (start' + start) len

/-- What a string is about to do. -/
inductive Pc where
  /-- Nothing in particular. -/
  | live
  /-- In `into_vec`, the only owner: before the `OwnedSlice` is moved out of the block. -/
  | reading
  /-- Before `dealloc`. -/
  | freeing
  /-- Before `into_vec_with_slice`. -/
  | unwrapped
  /-- In `into_vec`, one of several owners: before `to_vec`. -/
  | copying
  /-- After `into_vec`. -/
  | vec (v : List UInt8)
  | gone
  deriving DecidableEq

/-- `Bytes`. -/
structure Handle where
  pc : Pc
  value : Place
  ownership : Option ℕ
  utf8 : Utf8Flag
  secret : Bool

/-- The string, if it has these bytes. -/
def Handle.bytes (h : Handle) (value : List UInt8) : Bytes :=
  ⟨value, h.ownership.isSome, h.utf8, h.secret⟩

/-- Who has the memory of a buffer. -/
inductive Status where
  | available
  /-- A `Vec` that `into_vec` has returned. -/
  | given
  | freed
  deriving DecidableEq

/-- An `OwnedSlice` and the block it is in.  What is behind the bytes that it was made of does not
matter. -/
structure Buffer (w : ℕ) where
  arc : ThinArc.State w
  cells : List UInt8
  status : Status
  /-- What it was made of. -/
  contents : List UInt8

/-- Where the drop of an owner is. -/
inductive End where
  /-- Before `fetch_sub`. -/
  | releasing
  /-- Before `drop_in_place`. -/
  | destroying
  | deallocating
  deriving DecidableEq

/-- The memory that strings use, and the strings. -/
structure State (w : ℕ) where
  buffers : List (Buffer w)
  handles : List Handle
  /-- Owners that are being dropped. -/
  ends : List (ℕ × End)
  /-- How many owners were cloned. -/
  clones : ℕ

/-- There are no strings. -/
def new {w : ℕ} : State w := ⟨[], [], [], 0⟩

/-- Why there is no next state. -/
inductive Stop where
  /-- The action is not possible. -/
  | blocked
  /-- Memory is used that is not there. -/
  | fault
  deriving DecidableEq

/-! ## Calls -/

/-- The functions that make a string: `from_str` and others that borrow, and those that make the
bytes they are given into a `Vec`. -/
inductive Init where
  | borrow (value : List UInt8) (utf8 : Utf8Flag)
  | alloc (value : List UInt8) (utf8 : Utf8Flag) (secret : Bool)

/-- The string that is made, as a value. -/
def Init.bytes : Init → Bytes
  | .borrow value utf8 => ⟨value, false, utf8, false⟩
  | .alloc value utf8 secret => .ofVec value utf8 secret

/-- What `using_value` is given: a slice of the string or a constant. -/
inductive Part where
  | slice (start len : ℕ)
  | static (value : List UInt8)

/-- The bytes of the part. -/
def Part.of (value : List UInt8) : Part → List UInt8
  | .slice start len => (value.drop start).take len
  | .static value => value

/-- The part is one of these bytes. -/
def Part.Within (value : List UInt8) : Part → Prop
  | .slice start len => start + len ≤ value.length
  | .static _ => True

instance (value : List UInt8) (part : Part) : Decidable (part.Within value) :=
  match part with
  | .slice _ _ => inferInstanceAs (Decidable (_ ≤ _))
  | .static _ => inferInstanceAs (Decidable True)

/-- Where the part is, of a string that is at `place`. -/
def Part.place (place : Place) : Part → Place
  | .slice start len => place.part start len
  | .static value => .outside value

/-- The methods that change a string. -/
inductive Edit where
  | owning
  | makeOwning
  | secret
  | toUtf8
  | intoUtf8Lossy
  | transform (tf : Transform)

/-- What the method makes of a string, as a value. -/
def Edit.apply (b : Bytes) : Edit → Bytes
  | .owning => b.owning
  | .makeOwning => b.makeOwning
  | .secret => b.secret
  | .toUtf8 => b.toUtf8.2
  | .intoUtf8Lossy => b.intoUtf8Lossy
  | .transform tf => b.transform tf

/-- Where the slice begins that a transform returns, if it borrows it. -/
def start (bytes : List UInt8) : Transform → ℕ
  | .trimAscii side =>
    let slice := if side ≠ .atStart then bytes.rdropWhile isAsciiWhitespace else bytes
    if side ≠ .atEnd then (slice.takeWhile isAsciiWhitespace).length else 0
  | .asciiCasemap _ => 0
  | .ircCasemap _ => 0

/-- What becomes of the pointer. -/
inductive Outcome where
  | keep
  /-- It leads to a part of the same slice. -/
  | part (start len : ℕ)
  /-- `OwnedBytes::from_vec`, and what there was is dropped. -/
  | fresh (value : List UInt8)

/-- What the method does to the memory. -/
def Edit.outcome (b : Bytes) : Edit → Outcome
  | .owning => if !b.isOwning then .fresh b.value else .keep
  | .makeOwning => if !b.isOwning then .fresh b.value else .keep
  | .secret => if !b.isSecret && b.isOwning then .fresh b.value else .keep
  | .toUtf8 => .keep
  | .intoUtf8Lossy =>
    match b.utf8Cow.1 with
    | .borrowed _ => .keep
    | .owned o => .fresh o
  | .transform tf =>
    let tfed := tf.transform b.value
    if tfed.transformed.bytes.isEmpty then .fresh []
    else
      match tfed.transformed with
      | .borrowed s => .part (start b.value tf) s.length
      | .owned o => .fresh o

/-- A call that begins, or what is left of one. -/
inductive Action where
  | make (init : Init)
  | clone (i : ℕ)
  | usingValue (i : ℕ) (part : Part) (utf8 : Utf8Policy)
  | edit (i : ℕ) (e : Edit)
  /-- `into_vec`, up to `load`. -/
  | intoVec (i : ℕ)
  | drop (i : ℕ)
  /-- `std::mem::forget`. -/
  | forget (i : ℕ)
  /-- The next access of `into_vec`. -/
  | next (i : ℕ)
  /-- The next access of a drop. -/
  | finish (j : ℕ)

/-! ## Strings as values -/

/-- What has become of a string. -/
inductive Slot where
  | string (b : Bytes)
  | vec (v : List UInt8)
  | gone

namespace Values

/-- The strings after a call.  There is no result if it is not possible. -/
def step (slots : List Slot) : Action → Option (List Slot)
  | .make init => some (slots ++ [.string init.bytes])
  | .clone i =>
    match slots[i]? with
    | some (.string b) => some (slots ++ [.string b])
    | _ => none
  | .usingValue i part utf8 =>
    match slots[i]? with
    | some (.string b) =>
      if part.Within b.value then some (slots ++ [.string (b.usingValue (part.of b.value) utf8)])
      else none
    | _ => none
  | .edit i e =>
    match slots[i]? with
    | some (.string b) => some (slots.set i (.string (e.apply b)))
    | _ => none
  | .intoVec i =>
    match slots[i]? with
    | some (.string b) => some (slots.set i (.vec b.value))
    | _ => none
  | .drop i | .forget i =>
    match slots[i]? with
    | some (.string _) => some (slots.set i .gone)
    | _ => none
  | .next _ | .finish _ => some slots

/-- The strings after a number of calls. -/
def run (slots : List Slot) : List Action → Option (List Slot)
  | [] => some slots
  | a :: as => (step slots a).bind fun slots => run slots as

end Values

/-! ## Strings in memory, after a call -/

namespace State

variable {w : ℕ}

/-- The bytes that a pointer leads to. -/
def read (s : State w) : Place → Option (List UInt8)
  | .outside value => some value
  | .inside b start len =>
    match s.buffers[b]? with
    | some buffer =>
      if buffer.status = .available ∧ start + len ≤ buffer.cells.length then
        some ((buffer.cells.drop start).take len)
      else none
    | none => none

/-- The bytes that a pointer leads to, which have to be there. -/
def load (s : State w) (place : Place) : Except Stop (List UInt8) :=
  match s.read place with
  | some value => .ok value
  | none => .error .fault

/-- A string that nobody is in a call with. -/
def live (s : State w) (i : ℕ) : Except Stop Handle :=
  match s.handles[i]? with
  | some h => if h.pc = .live then .ok h else .error .blocked
  | none => .error .blocked

/-- There is one more string. -/
def push (s : State w) (h : Handle) : State w := { s with handles := s.handles ++ [h] }

/-- A string is changed. -/
def set (s : State w) (i : ℕ) (h : Handle) : State w := { s with handles := s.handles.set i h }

/-- The drop of an owner begins. -/
def release (s : State w) (ownership : Option ℕ) : State w :=
  { s with ends := s.ends ++ (ownership.map fun b => (b, End.releasing)).toList }

/-- `OwnedBytes::from_vec`: the pointer and the owner. -/
def fromVec (s : State w) (value : List UInt8) : Place × Option ℕ × State w :=
  if value.isEmpty then (.outside [], none, s)
  else (.inside s.buffers.length 0 value.length, some s.buffers.length,
    { s with buffers := s.buffers ++ [⟨ThinArc.new, value, .available, value⟩] })

/-- An access to a block. -/
def onArc (s : State w) (b : ℕ) (a : ThinArc.Action) : Except Stop (State w) :=
  match s.buffers[b]? with
  | some buffer =>
    match ThinArc.step buffer.arc a with
    | .ok arc => .ok { s with buffers := s.buffers.set b { buffer with arc := arc } }
    | .error _ => .error .fault
  | none => .error .fault

/-- The count of the block is one. -/
def sole (s : State w) (b : ℕ) : Bool :=
  match s.buffers[b]? with
  | some buffer => decide (buffer.arc.rc = 1)
  | none => false

/-- Somebody takes the memory of a buffer. -/
def take (s : State w) (b : ℕ) (status : Status) (wipe : Bool) : Except Stop (State w) :=
  match s.buffers[b]? with
  | some buffer =>
    if buffer.status = .available then
      let cells := if wipe then List.replicate buffer.cells.length 0 else buffer.cells
      .ok { s with buffers := s.buffers.set b { buffer with cells := cells, status := status } }
    else .error .fault
  | none => .error .fault

/-- `OwnedBytes::clone`, if there is one. -/
def cloneOwnership (s : State w) (ownership : Option ℕ) : Except Stop (State w) :=
  match ownership with
  | some b => ({ s with clones := s.clones + 1 } : State w).onArc b .clone
  | none => .ok s

end State

/-- The string begins where its buffer begins. -/
def Handle.atStart (h : Handle) (b : ℕ) : Bool :=
  match h.value with
  | .inside b' start _ => decide (b' = b ∧ start = 0)
  | .outside _ => false

section Step

variable {w : ℕ}

/-- A string after a method that changed it to `b`. -/
def edited (s : State w) (i : ℕ) (h : Handle) (b : Bytes) : Outcome → State w
  | .keep => s.set i { h with utf8 := b.utf8, secret := b.isSecret }
  | .part start len =>
    s.set i { h with value := h.value.part start len, utf8 := b.utf8, secret := b.isSecret }
  | .fresh value =>
    let (place, ownership, s) := s.fromVec value
    (s.set i ⟨.live, place, ownership, b.utf8, b.isSecret⟩).release h.ownership

/-- The next access of `into_vec`. -/
def next (s : State w) (i : ℕ) (h : Handle) : Except Stop (State w) :=
  match h.pc, h.ownership with
  | .reading, some b => do
    let s ← s.onArc b .read
    .ok (s.set i { h with pc := .freeing })
  | .freeing, some b => do
    let s ← s.onArc b .dealloc
    .ok (s.set i { h with pc := .unwrapped })
  | .unwrapped, some b => do
    let value ← s.load h.value
    -- what is not given out is dropped, and erased before if the string is secret
    let s ← if h.atStart b then s.take b .given false else s.take b .freed h.secret
    .ok (s.set i { h with pc := .vec value })
  | .copying, some b => do
    let value ← s.load h.value
    .ok ((s.set i { h with pc := .vec value }).release (some b))
  | _, _ => .error .blocked

/-- The next access of a drop. -/
def finish (s : State w) (j b : ℕ) : End → Except Stop (State w)
  | .releasing => do
    let last := s.sole b
    let s ← s.onArc b .drop
    .ok { s with ends := if last then s.ends.set j (b, .destroying) else s.ends.eraseIdx j }
  | .destroying => do
    let s ← s.onArc b .destroy
    let s ← s.take b .freed false
    .ok { s with ends := s.ends.set j (b, .deallocating) }
  | .deallocating => do
    let s ← s.onArc b .dealloc
    .ok { s with ends := s.ends.eraseIdx j }

/-- A call up to its first access, or the next access of one. -/
def step (s : State w) : Action → Except Stop (State w)
  | .make (.borrow value utf8) => .ok (s.push ⟨.live, .outside value, none, utf8, false⟩)
  | .make (.alloc value utf8 secret) =>
    let (place, ownership, s) := s.fromVec value
    .ok (s.push ⟨.live, place, ownership, utf8, secret⟩)
  | .clone i => do
    let h ← s.live i
    let s ← s.cloneOwnership h.ownership
    .ok (s.push h)
  | .usingValue i part utf8 => do
    let h ← s.live i
    let value ← s.load h.value
    if part.Within value then
      let utf8 := (h.bytes value).utf8ForPolicy utf8
      if (part.of value).isEmpty then
        .ok (s.push { h with value := .outside [], ownership := none, utf8 := utf8 })
      else do
        let s ← s.cloneOwnership h.ownership
        .ok (s.push { h with value := part.place h.value, utf8 := utf8 })
    else .error .blocked
  | .edit i e => do
    let h ← s.live i
    let value ← s.load h.value
    .ok (edited s i h (e.apply (h.bytes value)) (e.outcome (h.bytes value)))
  | .intoVec i => do
    let h ← s.live i
    match h.ownership with
    | none =>
      let value ← s.load h.value
      .ok (s.set i { h with pc := .vec value })
    | some b =>
      let pc := if s.sole b then Pc.reading else .copying
      let s ← s.onArc b .tryUnwrap
      .ok (s.set i { h with pc := pc })
  | .drop i => do
    let h ← s.live i
    .ok ((s.set i { h with pc := .gone }).release h.ownership)
  | .forget i => do
    let h ← s.live i
    match h.ownership with
    | none => .ok (s.set i { h with pc := .gone })
    | some b =>
      let s ← s.onArc b .forget
      .ok (s.set i { h with pc := .gone })
  | .next i =>
    match s.handles[i]? with
    | some h => next s i h
    | none => .error .blocked
  | .finish j =>
    match s.ends[j]? with
    | some (b, pc) => finish s j b pc
    | none => .error .blocked

end Step

/-! ## Changing a string -/

/-- A borrowed result of `map_bytes` is the whole slice. -/
theorem eq_of_mapBytes_borrowed {bytes s : List UInt8} {utf8 : Utf8Policy} {f : UInt8 → UInt8}
    (h : (mapBytes bytes utf8 f).transformed = .borrowed s) : s = bytes := by
  unfold mapBytes at h
  dsimp only at h
  split at h
  · exact (Cow.borrowed.inj h).symm
  · cases h

/-- Where `TrimAscii` finds its slice. -/
theorem start_trimAscii (side : StringSide) (bytes : List UInt8) :
    start bytes (.trimAscii side) + (trimAscii side bytes).length ≤ bytes.length ∧
      (bytes.drop (start bytes (.trimAscii side))).take (trimAscii side bytes).length =
        trimAscii side bytes := by
  obtain ⟨slice, hslice⟩ : ∃ slice,
      slice = if side ≠ .atStart then bytes.rdropWhile isAsciiWhitespace else bytes := ⟨_, rfl⟩
  obtain ⟨rest, hrest⟩ : ∃ rest, bytes = slice ++ rest := by
    rw [hslice]
    split
    · exact ⟨_, List.rdropWhile_append_rtakeWhile.symm⟩
    · exact ⟨[], (List.append_nil _).symm⟩
  have hstart : start bytes (.trimAscii side) =
      if side ≠ .atEnd then (slice.takeWhile isAsciiWhitespace).length else 0 := by
    rw [hslice]
    rfl
  have htrim : trimAscii side bytes = slice.drop (start bytes (.trimAscii side)) := by
    rw [hstart]
    unfold trimAscii
    dsimp only
    rw [← hslice]
    split
    · exact (Library.Scan.drop_length_takeWhile _ _).symm
    · rfl
  have hle : start bytes (.trimAscii side) ≤ slice.length := by
    rw [hstart]
    split
    · exact (List.takeWhile_prefix _).length_le
    · exact Nat.zero_le _
  rw [htrim]
  generalize start bytes (.trimAscii side) = begin at hle
  rw [hrest, List.length_drop, List.length_append, List.drop_append_of_le_length hle]
  exact ⟨by omega, List.take_left' (List.length_drop ..)⟩

/-- **Where a transform finds the slice** that it returns. -/
theorem start_spec {bytes s : List UInt8} {tf : Transform}
    (h : (tf.transform bytes).transformed = .borrowed s) :
    start bytes tf + s.length ≤ bytes.length ∧
      (bytes.drop (start bytes tf)).take s.length = s := by
  have hwhole : s = bytes → 0 + s.length ≤ bytes.length ∧ (bytes.drop 0).take s.length = s := by
    rintro rfl
    simp
  cases tf with
  | asciiCasemap uppercase =>
    cases uppercase with
    | true => exact hwhole (eq_of_mapBytes_borrowed h)
    | false => exact hwhole (eq_of_mapBytes_borrowed h)
  | ircCasemap casemap => exact hwhole (eq_of_mapBytes_borrowed h)
  | trimAscii side =>
    obtain rfl := Cow.borrowed.inj h
    exact start_trimAscii side bytes

/-- What is known of a string after a call that changes it. -/
def Agrees (b b' : Bytes) : Outcome → Prop
  | .keep => b'.value = b.value ∧ b'.isOwning = b.isOwning
  | .part start len =>
    start + len ≤ b.value.length ∧ b'.value = (b.value.drop start).take len ∧
      b'.isOwning = b.isOwning
  | .fresh value => b'.value = value ∧ b'.isOwning = !value.isEmpty

/-- A string that is copied if it has to be. -/
theorem agrees_ite {b b' : Bytes} {c : Prop} [Decidable c] {secret : Bool}
    (hvalue : b'.value = b.value) (howning : b'.isOwning = b.isOwning) :
    Agrees b (if c then b.owningForce secret else b') (if c then .fresh b.value else .keep) := by
  split
  · exact ⟨rfl, rfl⟩
  · exact ⟨hvalue, howning⟩

/-- What `utf8_cow` borrows is the whole slice. -/
theorem eq_of_utf8Cow_borrowed {b : Bytes} {s : List UInt8} (h : b.utf8Cow.1 = .borrowed s) :
    s = b.value := by
  have hlossy (hl : fromUtf8Lossy b.value = .borrowed s) : s = b.value := by
    unfold fromUtf8Lossy at hl
    split at hl
    · exact (Cow.borrowed.inj hl).symm
    · cases hl
  unfold Bytes.utf8Cow at h
  split at h
  · exact (Cow.borrowed.inj h).symm
  · exact hlossy h
  · split at h
    · rename_i s' hs'
      obtain rfl := Cow.borrowed.inj h
      exact hlossy hs'
    · cases h

theorem agrees_transform (b : Bytes) (tf : Transform) :
    Agrees b (b.transform tf) (Edit.outcome b (.transform tf)) := by
  unfold Bytes.transform Edit.outcome
  dsimp only
  split
  · exact ⟨rfl, rfl⟩
  · cases htf : (tf.transform b.value).transformed with
    | borrowed s =>
      obtain ⟨hle, hs⟩ := start_spec htf
      exact ⟨hle, hs.symm, rfl⟩
    | owned o => exact ⟨rfl, rfl⟩

/-- **Where the bytes of a string are after a call that changes it.** -/
theorem outcome_spec (e : Edit) (b : Bytes) : Agrees b (e.apply b) (e.outcome b) := by
  cases e with
  | owning => exact agrees_ite rfl rfl
  | makeOwning => exact agrees_ite rfl rfl
  | secret => exact agrees_ite rfl rfl
  | toUtf8 =>
    refine ⟨Bytes.value_toUtf8 b, ?_⟩
    show b.toUtf8.2.isOwning = b.isOwning
    unfold Bytes.toUtf8
    split
    · rfl
    · rfl
    · split <;> rfl
  | intoUtf8Lossy =>
    cases hcow : b.utf8Cow.1 with
    | borrowed s =>
      have happly : Edit.apply b .intoUtf8Lossy = ⟨s, b.isOwning, .valid, b.isSecret⟩ := by
        simp only [Edit.apply, Bytes.intoUtf8Lossy, hcow]
      have houtcome : Edit.outcome b .intoUtf8Lossy = .keep := by simp only [Edit.outcome, hcow]
      rw [happly, houtcome]
      exact ⟨eq_of_utf8Cow_borrowed hcow, rfl⟩
    | owned o =>
      have happly : Edit.apply b .intoUtf8Lossy = .ofVec o .valid false := by
        simp only [Edit.apply, Bytes.intoUtf8Lossy, hcow]
      have houtcome : Edit.outcome b .intoUtf8Lossy = .fresh o := by
        simp only [Edit.outcome, hcow]
      rw [happly, houtcome]
      exact ⟨rfl, rfl⟩
  | transform tf => exact agrees_transform b tf

end Sharing

end Vinezombie
