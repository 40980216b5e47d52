import Vinezombie.Util.OwnedSlice

/-!
# Buffers for secrets

`string/secretbuf.rs`: a buffer counts itself how much of its memory is in use.  All of the memory
is written to before anything else is done with it, so that readers can be given what is not in use.

Arguments of type `usize` are natural numbers below `2 ^ 64`; whether sums of them are checked for
overflow depends on how the program was built.

* `SecretBuf` and its functions.
* `SecretBuf.holding`: a buffer that holds some bytes, and others in the memory that is not in use.
* `reserve_cases`: the ways in which `reserve` can end.
* `exists_of_reserve`, `reserve_outOfBounds_iff`: what it leaves, and when it goes wrong.
-/

namespace Vinezombie

open Library Library.Cells

/-! ## Faults -/

/-- How a function can end other than by returning. -/
inductive Fault where
  | panic
  | outOfBounds (write : OutOfBounds)
  deriving DecidableEq, Repr

/-- The result of writes to memory. -/
def inBounds {α : Type} (writes : Except OutOfBounds α) : Except Fault α :=
  writes.mapError .outOfBounds

/-- The result of a function that may panic. -/
def orPanic {α : Type} (result : Option α) : Except Fault α :=
  match result with
  | some a => .ok a
  | none => .error .panic

/-- `+` on `usize`, in a program that was built with checks for overflow or without. -/
def usizeAdd (checks : Bool) (a b : ℕ) : Except Fault ℕ :=
  if a + b < 2 ^ 64 then .ok (a + b)
  else if checks then .error .panic
  else .ok ((a + b) % 2 ^ 64)

/-- `std::io::Read`, with errors of type `E`.  `read` is given a buffer of some length, and returns
the bytes that it has written to the front of it. -/
class Read (R : Type) (E : outParam Type) where
  read : R → ℕ → Except E (List UInt8) × R

/-- `std::io::Cursor`, with what is left of its slice. -/
structure Cursor where
  rest : List UInt8

/-- A cursor is never in error. -/
instance : Read Cursor Empty where
  read cursor n := (.ok (cursor.rest.take n), ⟨cursor.rest.drop n⟩)

/-! ## The buffer -/

/-- `SecretBuf`. -/
structure SecretBuf where
  data : OwnedSlice UInt8
  len : ℕ

namespace SecretBuf

/-- `From<Vec<u8>>`. -/
def fromVec (value : Vec UInt8) : Except Fault SecretBuf := do
  let len := (OwnedSlice.fromVec value).2
  let data ← inBounds ((OwnedSlice.fromVec value).1.initCapacity len)
  pure ⟨data, len⟩

/-- `with_capacity`, which does to a new `Vec` what `From<Vec<u8>>` does. -/
def withCapacity (alloc : Allocator) (count : ℕ) : Except Fault SecretBuf := do
  let vec ← orPanic (Vec.withCapacity alloc count)
  fromVec vec

/-- `reserve`. -/
def reserve (checks : Bool) (alloc : Allocator) (len : ℕ) (buf : SecretBuf) :
    Except Fault SecretBuf :=
  if buf.data.writeCapacity buf.len < len then do
    let count ← usizeAdd checks buf.len len
    let vec ← orPanic (Vec.withCapacity alloc count)
    let vec ← orPanic (vec.extendFromSlice alloc (buf.data.asSlice buf.len))
    let resized ← inBounds ((OwnedSlice.fromVec vec).1.initCapacity buf.len)
    -- the old memory is overwritten before it is given back
    let _ ← inBounds buf.data.reinitAll
    pure { buf with data := resized }
  else pure buf

/-- What `push` does with a buffer that is full. -/
def pushReserve (checks : Bool) (alloc : Allocator) (extra : ℕ) (buf : SecretBuf) :
    Except Fault SecretBuf :=
  if buf.len = buf.data.capacity then do
    let len ← usizeAdd checks 1 extra
    buf.reserve checks alloc len
  else pure buf

/-- What `push` does then.  Nothing checks that there is an element to write to. -/
def pushUnchecked (byte : UInt8) (buf : SecretBuf) : Except Fault SecretBuf := do
  let data ← inBounds (buf.data.update fun cells => write cells buf.len byte)
  pure ⟨data, buf.len + 1⟩

/-- `push`. -/
def push (checks : Bool) (alloc : Allocator) (byte : UInt8) (extra : ℕ) (buf : SecretBuf) :
    Except Fault SecretBuf := do
  let buf ← buf.pushReserve checks alloc extra
  buf.pushUnchecked byte

/-- What `push_cstr` does when it has reserved room. -/
def pushCstrReserved (slice : List UInt8) (buf : SecretBuf) : Except Fault SecretBuf :=
  let len := slice.length + 1
  -- where the rest of the memory is cut off after `len` elements
  if buf.data.writeCapacity buf.len < len then .error .panic
  else do
    let data ← inBounds (buf.data.update (writeAll slice buf.len))
    let data ← inBounds (data.update fun cells => write cells (buf.len + slice.length) 0)
    pure ⟨data, buf.len + len⟩

/-- `push_cstr`. -/
def pushCstr (checks : Bool) (alloc : Allocator) (slice : List UInt8) (buf : SecretBuf) :
    Except Fault SecretBuf := do
  let buf ← buf.reserve checks alloc (slice.length + 1)
  buf.pushCstrReserved slice

section

variable {R E : Type} [Read R E]

/-- What `read_from` returns, with the buffer and the reader. -/
structure ReadFrom (R E : Type) where
  result : Except E ℕ
  buf : SecretBuf
  reader : R

/-- The loop of `read_from`.  `write_to` begins behind the bytes that have been read. -/
def readLoop (expect : ℕ) (buf : SecretBuf) (bytesRead : ℕ) (read : R) :
    Except Fault (ReadFrom R E) :=
  if bytesRead < expect then
    let start := buf.len + bytesRead
    match Read.read read (buf.data.writeCapacity start) with
    | (.error e, read) => .ok ⟨.error e, buf, read⟩
    | (.ok bytes, read) =>
      if bytes.length = 0 then .ok ⟨.ok bytesRead, buf, read⟩
      -- where `write_to` is split
      else if buf.data.writeCapacity start < bytes.length then .error .panic
      else (inBounds (buf.data.update (writeAll bytes start))).bind fun data =>
        readLoop expect { buf with data := data } (bytesRead + bytes.length) read
  else .ok ⟨.ok bytesRead, buf, read⟩
termination_by expect - bytesRead

/-- What `read_from` does after the loop, unless the reader is in error: only then does the length
of the buffer change. -/
def ReadFrom.finish (outcome : ReadFrom R E) : ReadFrom R E :=
  match outcome.result with
  | .ok bytesRead =>
    { outcome with buf := { outcome.buf with len := outcome.buf.len + bytesRead } }
  | .error _ => outcome

/-- `read_from`. -/
def readFrom (checks : Bool) (alloc : Allocator) (expect : ℕ) (read : R) (buf : SecretBuf) :
    Except Fault (ReadFrom R E) := do
  let buf ← buf.reserve checks alloc expect
  let outcome ← readLoop expect buf 0 read
  pure outcome.finish

end

/-- `push_slice`. -/
def pushSlice (checks : Bool) (alloc : Allocator) (slice : List UInt8) (buf : SecretBuf) :
    Except Fault SecretBuf := do
  let outcome : ReadFrom Cursor Empty ← buf.readFrom checks alloc slice.length ⟨slice⟩
  pure outcome.buf

/-- `clear`. -/
def clear (buf : SecretBuf) : SecretBuf := { buf with len := 0 }

/-- `Drop`. -/
def drop (buf : SecretBuf) : Except Fault PUnit := do
  let _ ← inBounds buf.data.reinitAll
  pure ⟨⟩

/-! ## What a buffer holds -/

/-- The cells that are in use. -/
def contents (buf : SecretBuf) : List (Option UInt8) := buf.data.cells.take buf.len

/-- A buffer that holds `bytes`, with `spare` in the memory that is not in use. -/
def holding (bytes spare : List UInt8) : SecretBuf := ⟨⟨(bytes ++ spare).map some⟩, bytes.length⟩

/-- All of the memory has been written to, and the part in use is no larger than that. -/
def Valid (buf : SecretBuf) : Prop :=
  ∃ bytes spare, buf = holding bytes spare ∧ (bytes ++ spare).length < 2 ^ 63

section Holding

variable (bytes spare : List UInt8)

@[simp] theorem len_holding : (holding bytes spare).len = bytes.length := rfl

@[simp] theorem capacity_holding :
    (holding bytes spare).data.capacity = bytes.length + spare.length := by
  simp [holding, OwnedSlice.capacity]

@[simp] theorem writeCapacity_holding (n : ℕ) :
    (holding bytes spare).data.writeCapacity n = bytes.length + spare.length - n := by
  unfold OwnedSlice.writeCapacity
  rw [capacity_holding]

@[simp] theorem contents_holding : (holding bytes spare).contents = bytes.map some := by
  unfold contents holding
  rw [List.map_append, List.take_left' (List.length_map some)]

@[simp] theorem asSlice_holding : (holding bytes spare).data.asSlice bytes.length = bytes := by
  show (holding bytes spare).contents.reduceOption = bytes
  rw [contents_holding, List.reduceOption, List.filterMap_map]
  exact List.filterMap_some

/-- **Bytes that there is room for.** -/
theorem update_writeAll_holding {old : List UInt8} {slice : List UInt8}
    (h : old.length = slice.length) :
    (holding bytes (old ++ spare)).data.update (writeAll slice bytes.length) =
      .ok (holding (bytes ++ slice) spare).data := by
  have hwrite := writeAll_append slice (bytes.map some) (old.map some) (spare.map some)
    (by simpa using h)
  rw [List.length_map] at hwrite
  unfold OwnedSlice.update holding
  rw [List.map_append, List.map_append, ← List.append_assoc, hwrite, List.map_append,
    List.map_append]
  rfl

theorem update_write_holding (old byte : UInt8) :
    ((holding bytes (old :: spare)).data.update fun cells => write cells bytes.length byte) =
      .ok (holding (bytes ++ [byte]) spare).data := by
  have hwrite := write_append (bytes.map some) (some old) (spare.map some) byte
  rw [List.length_map] at hwrite
  unfold OwnedSlice.update holding
  simp [hwrite, Except.map]

end Holding

/-! ## New buffers -/

/-- **From a `Vec` with nothing in it.** -/
theorem fromVec_nil {value : Vec UInt8} (h : value.elements = []) :
    fromVec value = .ok (holding [] (List.replicate value.capacity 0)) := by
  have hlen : (OwnedSlice.fromVec value).2 = 0 := by
    unfold OwnedSlice.fromVec
    rw [h]
    rfl
  unfold fromVec
  dsimp only
  rw [hlen, OwnedSlice.initCapacity_zero, OwnedSlice.capacity_fromVec]
  unfold holding
  rw [List.nil_append, List.map_replicate]
  rfl

/-- **From any other `Vec`** other memory is written to. -/
theorem fromVec_outOfBounds {value : Vec UInt8} (h : value.elements ≠ []) :
    fromVec value = .error (.outOfBounds ⟨value.capacity, value.capacity⟩) := by
  have hle : (OwnedSlice.fromVec value).2 ≤ (OwnedSlice.fromVec value).1.capacity := by
    rw [OwnedSlice.capacity_fromVec]
    exact value.length_le
  have hpos : 0 < (OwnedSlice.fromVec value).2 := List.length_pos_iff.mpr h
  unfold fromVec
  dsimp only
  rw [OwnedSlice.initCapacity_of_pos hpos hle, OwnedSlice.capacity_fromVec]
  rfl

theorem withCapacity_of_lt {count : ℕ} (alloc : Allocator) (h : count < 2 ^ 63) :
    withCapacity alloc count = .ok (holding [] (List.replicate (alloc.grant count) 0)) := by
  unfold withCapacity Vec.withCapacity
  rw [dif_pos h]
  exact fromVec_nil rfl

theorem withCapacity_of_le {count : ℕ} (alloc : Allocator) (h : 2 ^ 63 ≤ count) :
    withCapacity alloc count = .error .panic := by
  unfold withCapacity Vec.withCapacity
  rw [dif_neg (Nat.not_lt.mpr h)]
  rfl

/-! ## Room for more -/

/-- A request for so many bytes panics. -/
def Refused (checks : Bool) (count : ℕ) : Prop :=
  if count < 2 ^ 64 then 2 ^ 63 ≤ count else checks = true

/-- The memory that `reserve` asks for, with the contents copied to it. -/
theorem exists_allocate (alloc : Allocator) {count : ℕ} {slice : List UInt8}
    (hcount : count < 2 ^ 63) (hslice : slice.length < 2 ^ 63) :
    ∃ vec vec' : Vec UInt8, Vec.withCapacity alloc count = some vec ∧
      vec.extendFromSlice alloc slice = some vec' ∧ vec'.elements = slice ∧
      (slice = [] → vec'.capacity = alloc.grant count) := by
  refine ⟨⟨[], alloc.grant count, Nat.zero_le _, alloc.fits count hcount⟩, ?_⟩
  unfold Vec.withCapacity Vec.extendFromSlice
  rw [dif_pos hcount]
  dsimp only
  by_cases hfits : ([] ++ slice).length ≤ alloc.grant count
  · rw [dif_pos hfits]
    exact ⟨_, rfl, rfl, rfl, fun _ => rfl⟩
  · have hlt : ([] ++ slice).length < 2 ^ 63 := hslice
    rw [dif_neg hfits, dif_pos hlt]
    refine ⟨_, rfl, rfl, rfl, fun hnil => ?_⟩
    rw [hnil] at hfits
    exact absurd (Nat.zero_le _) hfits

section Reserve

variable {checks : Bool} {alloc : Allocator} {len : ℕ} {bytes spare : List UInt8}

/-- There is room already. -/
theorem reserve_of_le (h : len ≤ spare.length) :
    (holding bytes spare).reserve checks alloc len = .ok (holding bytes spare) := by
  unfold reserve
  rw [if_neg]
  · rfl
  · simp [h]

/-- The buffer grows: what is left to do is to write to the memory behind the contents. -/
theorem reserve_of_lt (alloc : Allocator) (h : spare.length < len) {count : ℕ}
    (hadd : usizeAdd checks bytes.length len = .ok count) (hcount : count < 2 ^ 63)
    (hbytes : bytes.length < 2 ^ 63) :
    ∃ vec : Vec UInt8, vec.elements = bytes ∧ (bytes = [] → vec.capacity = alloc.grant count) ∧
      (holding bytes spare).reserve checks alloc len =
        (inBounds ((OwnedSlice.fromVec vec).1.initCapacity bytes.length)).map fun resized =>
          ⟨resized, bytes.length⟩ := by
  obtain ⟨vec, vec', hvec, hvec', helements, hcap⟩ := exists_allocate alloc hcount hbytes
  refine ⟨vec', helements, hcap, ?_⟩
  have hroom : (holding bytes spare).data.writeCapacity (holding bytes spare).len < len := by
    simpa using h
  unfold reserve
  rw [if_pos hroom, len_holding, hadd, OwnedSlice.reinitAll_eq, asSlice_holding]
  show (orPanic (Vec.withCapacity alloc count)).bind _ = _
  rw [hvec]
  show (orPanic (vec.extendFromSlice alloc bytes)).bind _ = _
  rw [hvec']
  show (inBounds ((OwnedSlice.fromVec vec').1.initCapacity bytes.length)).bind _ = _
  cases inBounds ((OwnedSlice.fromVec vec').1.initCapacity bytes.length) with
  | error e => rfl
  | ok resized => rfl

/-- **An empty buffer** gets the memory that it asks for. -/
theorem reserve_nil (h : spare.length < len) (hlen : len < 2 ^ 63) :
    (holding [] spare).reserve checks alloc len =
      .ok (holding [] (List.replicate (alloc.grant len) 0)) := by
  have hadd : usizeAdd checks ([] : List UInt8).length len = .ok len := by
    unfold usizeAdd
    rw [List.length_nil, Nat.zero_add, if_pos (by omega)]
  obtain ⟨vec, -, hcap, hreserve⟩ :=
    reserve_of_lt alloc h hadd hlen (Nat.two_pow_pos 63)
  rw [hreserve, List.length_nil, OwnedSlice.initCapacity_zero, OwnedSlice.capacity_fromVec,
    hcap rfl]
  unfold holding
  rw [List.nil_append, List.map_replicate]
  rfl

/-- **A buffer with contents** is written to behind its memory. -/
theorem reserve_outOfBounds (h : spare.length < len) (hlen : len < 2 ^ 64)
    (hbytes : bytes.length < 2 ^ 63) (hne : bytes ≠ [])
    (hrefused : ¬ Refused checks (bytes.length + len)) :
    ∃ w, (holding bytes spare).reserve checks alloc len = .error (.outOfBounds w) := by
  obtain ⟨count, hadd, hcount⟩ : ∃ count,
      usizeAdd checks bytes.length len = .ok count ∧ count < 2 ^ 63 := by
    unfold Refused at hrefused
    unfold usizeAdd
    by_cases hlt : bytes.length + len < 2 ^ 64
    · rw [if_pos hlt] at hrefused ⊢
      exact ⟨_, rfl, Nat.not_le.mp hrefused⟩
    · rw [if_neg hlt] at hrefused ⊢
      rw [if_neg hrefused]
      exact ⟨_, rfl, by omega⟩
  obtain ⟨vec, helements, -, hreserve⟩ := reserve_of_lt alloc h hadd hcount hbytes
  have hle : bytes.length ≤ (OwnedSlice.fromVec vec).1.capacity := by
    rw [OwnedSlice.capacity_fromVec, ← helements]
    exact vec.length_le
  rw [hreserve, OwnedSlice.initCapacity_of_pos (List.length_pos_iff.mpr hne) hle]
  exact ⟨_, rfl⟩

/-- A request that panics. -/
theorem reserve_refused (h : spare.length < len) (hrefused : Refused checks (bytes.length + len)) :
    (holding bytes spare).reserve checks alloc len = .error .panic := by
  have hroom : (holding bytes spare).data.writeCapacity (holding bytes spare).len < len := by
    simpa using h
  unfold reserve
  rw [if_pos hroom, len_holding]
  unfold Refused at hrefused
  unfold usizeAdd
  by_cases hlt : bytes.length + len < 2 ^ 64
  · rw [if_pos hlt] at hrefused ⊢
    have hvec : (Vec.withCapacity alloc (bytes.length + len) : Option (Vec UInt8)) = none := by
      unfold Vec.withCapacity
      rw [dif_neg (Nat.not_lt.mpr hrefused)]
    show (orPanic (Vec.withCapacity alloc (bytes.length + len))).bind _ = _
    rw [hvec]
    rfl
  · rw [if_neg hlt] at hrefused ⊢
    rw [if_pos hrefused]
    rfl

theorem refused_nil_iff (hlen : len < 2 ^ 64) :
    Refused checks (([] : List UInt8).length + len) ↔ 2 ^ 63 ≤ len := by
  unfold Refused
  rw [List.length_nil, Nat.zero_add, if_pos hlen]

/-- **The four ways in which `reserve` can end**: there is room, or the buffer is empty and gets
what it asks for, or the request panics, or other memory is written to. -/
theorem reserve_cases (checks : Bool) (alloc : Allocator) (hlen : len < 2 ^ 64)
    (hlength : bytes.length + spare.length < 2 ^ 63) :
    (len ≤ spare.length ∧
      (holding bytes spare).reserve checks alloc len = .ok (holding bytes spare)) ∨
    (spare.length < len ∧ bytes = [] ∧ len < 2 ^ 63 ∧
      (holding bytes spare).reserve checks alloc len =
        .ok (holding bytes (List.replicate (alloc.grant len) 0))) ∨
    (spare.length < len ∧ Refused checks (bytes.length + len) ∧
      (holding bytes spare).reserve checks alloc len = .error .panic) ∨
    (spare.length < len ∧ bytes ≠ [] ∧ ¬ Refused checks (bytes.length + len) ∧
      ∃ w, (holding bytes spare).reserve checks alloc len = .error (.outOfBounds w)) := by
  by_cases hle : len ≤ spare.length
  · exact .inl ⟨hle, reserve_of_le hle⟩
  · have hlt : spare.length < len := Nat.not_le.mp hle
    by_cases hrefused : Refused checks (bytes.length + len)
    · exact .inr (.inr (.inl ⟨hlt, hrefused, reserve_refused hlt hrefused⟩))
    · by_cases hnil : bytes = []
      · subst hnil
        have hfits : len < 2 ^ 63 := Nat.not_le.mp ((refused_nil_iff hlen).not.mp hrefused)
        exact .inr (.inl ⟨hlt, rfl, hfits, reserve_nil hlt hfits⟩)
      · exact .inr (.inr (.inr ⟨hlt, hnil, hrefused,
          reserve_outOfBounds hlt hlen (by omega) hnil hrefused⟩))

/-- **After `reserve`** there is room, and the contents are what they were. -/
theorem exists_of_reserve {buf : SecretBuf} (hlen : len < 2 ^ 64)
    (hlength : bytes.length + spare.length < 2 ^ 63)
    (h : (holding bytes spare).reserve checks alloc len = .ok buf) :
    ∃ spare', buf = holding bytes spare' ∧ len ≤ spare'.length ∧
      bytes.length + spare'.length < 2 ^ 63 := by
  rcases reserve_cases checks alloc hlen hlength with ⟨hle, hreserve⟩ |
    ⟨-, rfl, hfits, hreserve⟩ | ⟨-, -, hreserve⟩ | ⟨-, -, -, w, hreserve⟩
  · exact ⟨spare, Except.ok.inj (h.symm.trans hreserve), hle, hlength⟩
  · refine ⟨_, Except.ok.inj (h.symm.trans hreserve), ?_, ?_⟩
    · rw [List.length_replicate]
      exact alloc.le len
    · rw [List.length_nil, List.length_replicate, Nat.zero_add]
      exact alloc.fits len hfits
  · exact absurd (h.symm.trans hreserve) (by simp)
  · exact absurd (h.symm.trans hreserve) (by simp)

/-- A buffer need not grow, or is empty, or asks for too much. -/
def CanGrow (checks : Bool) (len : ℕ) (buf : SecretBuf) : Prop :=
  len ≤ buf.data.writeCapacity buf.len ∨ buf.len = 0 ∨ Refused checks (buf.len + len)

/-- **When `reserve` writes to other memory.** -/
theorem reserve_outOfBounds_iff (hlen : len < 2 ^ 64)
    (hlength : bytes.length + spare.length < 2 ^ 63) :
    (∃ w, (holding bytes spare).reserve checks alloc len = .error (.outOfBounds w)) ↔
      ¬ (holding bytes spare).CanGrow checks len := by
  have hspare : (holding bytes spare).data.writeCapacity (holding bytes spare).len =
      spare.length := by simp
  unfold CanGrow
  rw [hspare, len_holding, List.length_eq_zero_iff]
  rcases reserve_cases checks alloc hlen hlength with ⟨hle, hreserve⟩ |
    ⟨-, hnil, -, hreserve⟩ | ⟨-, hrefused, hreserve⟩ | ⟨hlt, hne, hrefused, hreserve⟩
  · rw [hreserve]
    exact iff_of_false (by simp) (not_not_intro (.inl hle))
  · rw [hreserve]
    exact iff_of_false (by simp) (not_not_intro (.inr (.inl hnil)))
  · rw [hreserve]
    exact iff_of_false (by simp) (not_not_intro (.inr (.inr hrefused)))
  · refine iff_of_true hreserve ?_
    rintro (h | h | h)
    · omega
    · exact hne h
    · exact hrefused h

end Reserve

end SecretBuf

end Vinezombie
