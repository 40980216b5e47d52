import Vinezombie.Library.Machine
import Vinezombie.Strings.SecretBufReads

/-!
# Runs of calls on a buffer

Whatever is called, a buffer that comes out of it holds what has been appended to it.  What can go
wrong is that memory behind the buffer is written to, which happens when a buffer that holds
something is made or grows, and when a full buffer is told to make room for `2 ^ 64 - 1` more bytes
in a program without checks for overflow.

* `Call`, `step`: the calls.
* `holds_of_step`: what the buffer holds after a call.
* `step_outOfBounds_iff`: the calls that write to other memory.
* `calls_correct_iff`: runs.
-/

namespace Vinezombie

open Library Library.Cells Library.Machine

/-- `&[u8]`. -/
structure Slice where
  bytes : List UInt8
  fits : bytes.length < 2 ^ 63

namespace SecretBuf

/-- A call that makes a buffer, or one on the buffer there is. -/
inductive Call where
  | withCapacity (alloc : Allocator) (count : UInt64)
  | fromVec (value : Vec UInt8)
  | reserve (alloc : Allocator) (len : UInt64)
  | push (alloc : Allocator) (byte : UInt8) (extra : UInt64)
  | pushCstr (alloc : Allocator) (slice : Slice)
  | pushSlice (alloc : Allocator) (slice : Slice)
  | clear

/-- A call.  A buffer that is made takes the place of the one before, which is dropped. -/
def step (checks : Bool) (buf : SecretBuf) : Call → Except Fault SecretBuf
  | .withCapacity alloc count => do
    let new ← withCapacity alloc count.toNat
    buf.drop
    pure new
  | .fromVec value => do
    let new ← fromVec value
    buf.drop
    pure new
  | .reserve alloc len => buf.reserve checks alloc len.toNat
  | .push alloc byte extra => buf.push checks alloc byte extra.toNat
  | .pushCstr alloc slice => buf.pushCstr checks alloc slice.bytes
  | .pushSlice alloc slice => buf.pushSlice checks alloc slice.bytes
  | .clear => pure buf.clear

/-- `Default`, which is `with_capacity(0)`. -/
def empty : SecretBuf := holding [] []

/-- The bytes that have been appended since the buffer was made or cleared. -/
def Call.appended (bytes : List UInt8) : Call → List UInt8
  | .withCapacity _ _ => []
  | .fromVec value => value.elements
  | .reserve _ _ => bytes
  | .push _ byte _ => bytes ++ [byte]
  | .pushCstr _ slice => bytes ++ (slice.bytes ++ [0])
  | .pushSlice _ slice => bytes ++ slice.bytes
  | .clear => []

/-- The calls that do not write to other memory. -/
def Call.Safe (checks : Bool) (buf : SecretBuf) : Call → Prop
  | .withCapacity _ _ => True
  | .fromVec value => value.elements = []
  | .reserve _ len => buf.CanGrow checks len.toNat
  | .push _ _ extra => buf.data.writeCapacity buf.len ≠ 0 ∨
    if 1 + extra.toNat < 2 ^ 64 then buf.CanGrow checks (1 + extra.toNat) else checks = true
  | .pushCstr _ slice => buf.CanGrow checks (slice.bytes.length + 1)
  | .pushSlice _ slice => buf.CanGrow checks slice.bytes.length
  | .clear => True

theorem withCapacity_zero (alloc : Allocator) : withCapacity alloc 0 = .ok empty := by
  rw [withCapacity_of_lt alloc (by decide), alloc.zero]
  rfl

theorem drop_eq (buf : SecretBuf) : buf.drop = .ok ⟨⟩ := by
  unfold drop
  rw [OwnedSlice.reinitAll_eq]
  rfl

/-- Dropping a buffer always works, so what takes its place is all that matters. -/
theorem drop_then (buf : SecretBuf) (result : Except Fault SecretBuf) :
    (do let new ← result; buf.drop; pure new) = result := by
  rw [drop_eq]
  cases result with
  | error fault => rfl
  | ok new => rfl

theorem step_withCapacity (checks : Bool) (buf : SecretBuf) (alloc : Allocator) (count : UInt64) :
    step checks buf (.withCapacity alloc count) = withCapacity alloc count.toNat :=
  drop_then buf _

theorem step_fromVec (checks : Bool) (buf : SecretBuf) (value : Vec UInt8) :
    step checks buf (.fromVec value) = fromVec value :=
  drop_then buf _

/-! ## Pushing -/

section Push

variable {checks : Bool} {alloc : Allocator} {bytes spare : List UInt8} {buf : SecretBuf}

theorem pushUnchecked_cons (bytes spare : List UInt8) (old byte : UInt8) :
    (holding bytes (old :: spare)).pushUnchecked byte = .ok (holding (bytes ++ [byte]) spare) := by
  unfold pushUnchecked
  rw [len_holding, update_write_holding]
  unfold holding
  rw [List.length_append]
  rfl

/-- There is no element to write to. -/
theorem pushUnchecked_nil (bytes : List UInt8) (byte : UInt8) :
    (holding bytes []).pushUnchecked byte =
      .error (.outOfBounds ⟨bytes.length, bytes.length⟩) := by
  have hlength : (holding bytes []).data.cells.length = bytes.length := by simp [holding]
  unfold pushUnchecked OwnedSlice.update
  dsimp only
  rw [len_holding, write_outOfBounds (Nat.le_of_eq hlength), hlength]
  rfl

theorem pushCstrReserved_append (bytes : List UInt8) {slice old : List UInt8} (last : UInt8)
    (rest : List UInt8) (h : old.length = slice.length) :
    (holding bytes (old ++ last :: rest)).pushCstrReserved slice =
      .ok (holding (bytes ++ (slice ++ [0])) rest) := by
  have hroom : ¬ (holding bytes (old ++ last :: rest)).data.writeCapacity bytes.length <
      slice.length + 1 := by
    rw [writeCapacity_holding, List.length_append, List.length_cons]
    omega
  have hlast := update_write_holding (bytes ++ slice) rest last 0
  rw [List.length_append] at hlast
  unfold pushCstrReserved
  dsimp only
  rw [len_holding, if_neg hroom, update_writeAll_holding bytes (last :: rest) h]
  show (inBounds ((holding (bytes ++ slice) (last :: rest)).data.update _)).bind _ = _
  rw [hlast, ← List.append_assoc]
  unfold holding
  rw [List.length_append, List.length_append]
  rfl

/-- **`push_cstr`** appends the slice and a null byte, where there is room for them. -/
theorem pushCstr_of_reserve {slice : List UInt8}
    (hreserve : buf.reserve checks alloc (slice.length + 1) = .ok (holding bytes spare))
    (hroom : slice.length + 1 ≤ spare.length) :
    ∃ rest, buf.pushCstr checks alloc slice = .ok (holding (bytes ++ (slice ++ [0])) rest) ∧
      slice.length + 1 + rest.length = spare.length := by
  have hsplit : spare = spare.take slice.length ++
      spare[slice.length] :: spare.drop (slice.length + 1) := by
    rw [← List.drop_eq_getElem_cons, List.take_append_drop]
  refine ⟨spare.drop (slice.length + 1), ?_, by rw [List.length_drop]; omega⟩
  have hlength : (spare.take slice.length).length = slice.length :=
    List.length_take_of_le (by omega)
  have hpush := pushCstrReserved_append bytes spare[slice.length]
    (spare.drop (slice.length + 1)) hlength
  rw [← hsplit] at hpush
  unfold pushCstr
  rw [hreserve]
  exact hpush

/-- **`push_slice`** appends the slice, where there is room for it. -/
theorem pushSlice_of_reserve {slice : List UInt8}
    (hreserve : buf.reserve checks alloc slice.length = .ok (holding bytes spare))
    (hroom : slice.length ≤ spare.length) :
    ∃ rest, buf.pushSlice checks alloc slice = .ok (holding (bytes ++ slice) rest) ∧
      slice.length + rest.length = spare.length := by
  obtain ⟨more, rest, out, hread, hends⟩ :=
    exists_readEnds (⟨slice⟩ : Cursor) hreserve hroom
  have hreads : slice = more ++ out.reader.rest := hends.reads
  have hpush : buf.pushSlice checks alloc slice = .ok out.buf := by
    unfold pushSlice
    rw [hread]
    rfl
  rcases hends.result with ⟨-, hout, hend⟩ | ⟨e, -⟩
  · have hmore : more = slice := by
      have hrest : out.reader.rest = [] := by
        rcases hend with hge | hnil
        · have hlength := congrArg List.length hreads
          rw [List.length_append] at hlength
          exact List.length_eq_zero_iff.mp (by omega)
        · exact hnil
      rw [hreads, hrest, List.append_nil]
    subst hmore
    exact ⟨rest, hpush.trans (congrArg _ hout), hends.length⟩
  · exact e.elim

/-- Neither of them asks for memory where there is room. -/
theorem pushCstr_of_le (checks : Bool) (alloc : Allocator) (bytes : List UInt8)
    {slice : List UInt8} (h : slice.length + 1 ≤ spare.length) :
    ∃ rest, (holding bytes spare).pushCstr checks alloc slice =
        .ok (holding (bytes ++ (slice ++ [0])) rest) ∧
      slice.length + 1 + rest.length = spare.length :=
  pushCstr_of_reserve (reserve_of_le h) h

theorem pushSlice_of_le (checks : Bool) (alloc : Allocator) (bytes : List UInt8)
    {slice : List UInt8} (h : slice.length ≤ spare.length) :
    ∃ rest, (holding bytes spare).pushSlice checks alloc slice =
        .ok (holding (bytes ++ slice) rest) ∧
      slice.length + rest.length = spare.length :=
  pushSlice_of_reserve (reserve_of_le h) h

theorem pushReserve_cons (old : UInt8) (extra : ℕ) :
    (holding bytes (old :: spare)).pushReserve checks alloc extra =
      .ok (holding bytes (old :: spare)) := by
  unfold pushReserve
  rw [if_neg]
  · rfl
  · simp

theorem pushReserve_nil (extra : ℕ) : (holding bytes []).pushReserve checks alloc extra =
    (usizeAdd checks 1 extra).bind fun len => (holding bytes []).reserve checks alloc len := by
  unfold pushReserve
  rw [if_pos]
  · rfl
  · simp

/-- **A byte that there is room for.** -/
theorem push_cons (old byte : UInt8) (extra : ℕ) :
    (holding bytes (old :: spare)).push checks alloc byte extra =
      .ok (holding (bytes ++ [byte]) spare) := by
  unfold push
  rw [pushReserve_cons]
  exact pushUnchecked_cons bytes spare old byte

/-- A buffer that is full, when there is no overflow. -/
theorem push_nil (byte : UInt8) {extra : ℕ} (h : 1 + extra < 2 ^ 64) :
    (holding bytes []).push checks alloc byte extra =
      ((holding bytes []).reserve checks alloc (1 + extra)).bind (pushUnchecked byte) := by
  unfold push
  rw [pushReserve_nil, usizeAdd, if_pos h]
  rfl

/-- With checks for overflow, a request for too many bytes panics. -/
theorem push_nil_checked (byte : UInt8) {extra : ℕ} (h : ¬ 1 + extra < 2 ^ 64) :
    (holding bytes []).push true alloc byte extra = .error .panic := by
  unfold push
  rw [pushReserve_nil, usizeAdd, if_neg h]
  rfl

/-- **Without them** it is a request for none, and the byte is written behind the buffer. -/
theorem push_nil_unchecked (byte : UInt8) {extra : ℕ} (h : ¬ 1 + extra < 2 ^ 64)
    (hextra : extra < 2 ^ 64) : (holding bytes []).push false alloc byte extra =
      .error (.outOfBounds ⟨bytes.length, bytes.length⟩) := by
  have hwrap : (1 + extra) % 2 ^ 64 = 0 := by omega
  unfold push
  rw [pushReserve_nil, usizeAdd, if_neg h, if_neg (by simp), hwrap]
  show ((holding bytes []).reserve false alloc 0).bind (pushUnchecked byte) = _
  rw [reserve_of_le (Nat.zero_le _)]
  exact pushUnchecked_nil bytes byte

end Push

/-! ## One call -/

/-- A buffer holds these bytes, and its memory is all in order. -/
def Holds (bytes : List UInt8) (buf : SecretBuf) : Prop :=
  ∃ spare, buf = holding bytes spare ∧ bytes.length + spare.length < 2 ^ 63

section Step

variable {checks : Bool} {bytes : List UInt8} {buf buf' : SecretBuf} {call : Call}

theorem Holds.reserve {alloc : Allocator} {len : ℕ} (h : Holds bytes buf) (hlen : len < 2 ^ 64)
    (hreserve : buf.reserve checks alloc len = .ok buf') :
    Holds bytes buf' ∧ len ≤ buf'.data.writeCapacity buf'.len := by
  obtain ⟨spare, rfl, hlength⟩ := h
  obtain ⟨spare', rfl, hle, hlength'⟩ := exists_of_reserve hlen hlength hreserve
  exact ⟨⟨spare', rfl, hlength'⟩, by simpa using hle⟩

/-- There is an element to write to. -/
theorem Holds.pushUnchecked (h : Holds bytes buf) (hroom : 0 < buf.data.writeCapacity buf.len)
    (byte : UInt8) :
    ∃ buf', buf.pushUnchecked byte = .ok buf' ∧ Holds (bytes ++ [byte]) buf' := by
  obtain ⟨spare, rfl, hlength⟩ := h
  cases spare with
  | nil => exact absurd hroom (by simp)
  | cons old spare =>
    refine ⟨_, pushUnchecked_cons bytes spare old byte, spare, rfl, ?_⟩
    rw [List.length_cons] at hlength
    rw [List.length_append, List.length_singleton]
    omega

/-- What is to be shown of a call: the buffer that it leaves holds the right bytes, and it writes to
other memory only if it is not safe. -/
structure Behaves (bytes : List UInt8) (safe : Prop) (result : Except Fault SecretBuf) : Prop where
  holds : ∀ buf, result = .ok buf → Holds bytes buf
  outOfBounds_iff : (∃ w, result = .error (.outOfBounds w)) ↔ ¬ safe

namespace Behaves

variable {safe : Prop}

theorem of_ok (hsafe : safe) (h : Holds bytes buf) : Behaves bytes safe (.ok buf) :=
  ⟨fun _ hbuf => Except.ok.inj hbuf ▸ h, iff_of_false (by simp) (not_not_intro hsafe)⟩

theorem of_panic (hsafe : safe) : Behaves bytes safe (.error .panic) :=
  ⟨fun _ hbuf => absurd hbuf (by simp), iff_of_false (by simp) (not_not_intro hsafe)⟩

theorem of_outOfBounds (hsafe : ¬ safe) (w : OutOfBounds) :
    Behaves bytes safe (.error (.outOfBounds w)) :=
  ⟨fun _ hbuf => absurd hbuf (by simp), iff_of_true ⟨w, rfl⟩ hsafe⟩

/-- **A call that reserves room**, and does what it is to do once it has it. -/
theorem of_reserve (alloc : Allocator) {len : ℕ} {bytes' : List UInt8}
    {result : Except Fault SecretBuf} (h : Holds bytes buf) (hlen : len < 2 ^ 64)
    (hfault : ∀ fault, buf.reserve checks alloc len = .error fault → result = .error fault)
    (hok : ∀ buf₁, buf.reserve checks alloc len = .ok buf₁ → Holds bytes buf₁ →
      len ≤ buf₁.data.writeCapacity buf₁.len → ∃ buf', result = .ok buf' ∧ Holds bytes' buf') :
    Behaves bytes' (buf.CanGrow checks len) result := by
  have hgrow : (∃ w, buf.reserve checks alloc len = .error (.outOfBounds w)) ↔
      ¬ buf.CanGrow checks len := by
    obtain ⟨spare, rfl, hlength⟩ := h
    exact reserve_outOfBounds_iff hlen hlength
  cases hreserve : buf.reserve checks alloc len with
  | error fault =>
    rw [hfault fault hreserve]
    rw [hreserve] at hgrow
    exact ⟨fun buf' hbuf' => absurd hbuf' (by simp), hgrow⟩
  | ok buf₁ =>
    obtain ⟨hholds, hroom⟩ := h.reserve hlen hreserve
    obtain ⟨buf', hresult, hholds'⟩ := hok buf₁ hreserve hholds hroom
    rw [hreserve] at hgrow
    rw [hresult]
    exact of_ok (not_not.mp fun hnot => absurd (hgrow.mpr hnot) (by simp)) hholds'

end Behaves

theorem behaves_fromVec (value : Vec UInt8) :
    Behaves value.elements (value.elements = []) (fromVec value) := by
  by_cases hnil : value.elements = []
  · rw [fromVec_nil hnil]
    refine .of_ok hnil ⟨_, by rw [hnil], ?_⟩
    rw [hnil, List.length_nil, List.length_replicate, Nat.zero_add]
    exact value.fits
  · rw [fromVec_outOfBounds hnil]
    exact .of_outOfBounds hnil _

theorem behaves_withCapacity (alloc : Allocator) (count : ℕ) :
    Behaves [] True (withCapacity alloc count) := by
  by_cases hlt : count < 2 ^ 63
  · rw [withCapacity_of_lt alloc hlt]
    refine .of_ok trivial ⟨_, rfl, ?_⟩
    rw [List.length_nil, List.length_replicate, Nat.zero_add]
    exact alloc.fits count hlt
  · rw [withCapacity_of_le alloc (Nat.not_lt.mp hlt)]
    exact .of_panic trivial

theorem behaves_push (alloc : Allocator) (byte : UInt8) {extra : ℕ} (h : Holds bytes buf)
    (hextra : extra < 2 ^ 64) :
    Behaves (bytes ++ [byte]) (buf.data.writeCapacity buf.len ≠ 0 ∨
      if 1 + extra < 2 ^ 64 then buf.CanGrow checks (1 + extra) else checks = true)
      (buf.push checks alloc byte extra) := by
  have hbuf := h
  obtain ⟨spare, rfl, -⟩ := h
  cases spare with
  | cons old spare =>
    obtain ⟨buf', hbuf', hholds⟩ := hbuf.pushUnchecked (by simp) byte
    rw [pushUnchecked_cons] at hbuf'
    rw [push_cons, hbuf']
    exact .of_ok (.inl (by simp)) hholds
  | nil =>
    have hfull : (holding bytes []).data.writeCapacity (holding bytes []).len = 0 := by simp
    rw [hfull]
    by_cases hlt : 1 + extra < 2 ^ 64
    · rw [if_pos hlt, push_nil byte hlt]
      have hbehaves : Behaves (bytes ++ [byte]) ((holding bytes []).CanGrow checks (1 + extra))
          (((holding bytes []).reserve checks alloc (1 + extra)).bind (pushUnchecked byte)) := by
        refine .of_reserve alloc hbuf hlt (fun fault hfault => by rw [hfault]; rfl) ?_
        intro buf₁ hreserve hholds hroom
        rw [hreserve]
        exact hholds.pushUnchecked (by omega) byte
      exact ⟨hbehaves.holds, hbehaves.outOfBounds_iff.trans (by simp)⟩
    · rw [if_neg hlt]
      cases checks with
      | true =>
        rw [push_nil_checked byte hlt]
        exact .of_panic (.inr rfl)
      | false =>
        rw [push_nil_unchecked byte hlt hextra]
        exact .of_outOfBounds (by simp) _

theorem behaves_pushCstr (alloc : Allocator) (slice : Slice) (h : Holds bytes buf) :
    Behaves (bytes ++ (slice.bytes ++ [0])) (buf.CanGrow checks (slice.bytes.length + 1))
      (buf.pushCstr checks alloc slice.bytes) := by
  have hfits := slice.fits
  refine .of_reserve alloc h (by omega) (fun fault hfault => ?_) ?_
  · unfold pushCstr
    rw [hfault]
    rfl
  · intro buf₁ hreserve hholds hroom
    obtain ⟨spare, rfl, hlength⟩ := hholds
    rw [writeCapacity_holding, len_holding] at hroom
    obtain ⟨rest, hpush, hrest⟩ := pushCstr_of_reserve hreserve (by omega)
    refine ⟨_, hpush, rest, rfl, ?_⟩
    simp only [List.length_append, List.length_singleton]
    omega

theorem behaves_pushSlice (alloc : Allocator) (slice : Slice) (h : Holds bytes buf) :
    Behaves (bytes ++ slice.bytes) (buf.CanGrow checks slice.bytes.length)
      (buf.pushSlice checks alloc slice.bytes) := by
  have hfits := slice.fits
  refine .of_reserve alloc h (by omega) (fun fault hfault => ?_) ?_
  · unfold pushSlice
    rw [readFrom_fault hfault]
    rfl
  · intro buf₁ hreserve hholds hroom
    obtain ⟨spare, rfl, hlength⟩ := hholds
    rw [writeCapacity_holding, len_holding] at hroom
    obtain ⟨rest, hpush, hrest⟩ := pushSlice_of_reserve hreserve (by omega)
    refine ⟨_, hpush, rest, rfl, ?_⟩
    rw [List.length_append]
    omega

/-- **Every call.** -/
theorem behaves_step (h : Holds bytes buf) (call : Call) :
    Behaves (call.appended bytes) (call.Safe checks buf) (step checks buf call) := by
  cases call with
  | withCapacity alloc count =>
    rw [step_withCapacity]
    exact behaves_withCapacity alloc count.toNat
  | fromVec value =>
    rw [step_fromVec]
    exact behaves_fromVec value
  | reserve alloc len =>
    exact .of_reserve alloc h len.toNat_lt (fun _ hfault => hfault) fun buf₁ hreserve hholds _ =>
      ⟨buf₁, hreserve, hholds⟩
  | push alloc byte extra => exact behaves_push alloc byte h extra.toNat_lt
  | pushCstr alloc slice => exact behaves_pushCstr alloc slice h
  | pushSlice alloc slice => exact behaves_pushSlice alloc slice h
  | clear =>
    obtain ⟨spare, rfl, hlength⟩ := h
    refine .of_ok trivial ⟨bytes ++ spare, rfl, ?_⟩
    show ([] : List UInt8).length + (bytes ++ spare).length < 2 ^ 63
    rw [List.length_append, List.length_nil, Nat.zero_add]
    exact hlength

end Step

/-! ## Runs -/

/-- Calls one after another, on a new buffer. -/
def run (checks : Bool) (calls : List Call) : Except Fault SecretBuf :=
  calls.foldlM (step checks) empty

/-- What is wanted of a run: nothing but the buffer is written to, the buffer holds what has been
appended, in order, and after `reserve` there is room for what was asked for. -/
structure RunCorrect (checks : Bool) (calls : List Call) : Prop where
  inBounds : ∀ w, run checks calls ≠ .error (.outOfBounds w)
  len_le : ∀ buf, run checks calls = .ok buf → buf.len ≤ buf.data.capacity
  contents : ∀ buf, run checks calls = .ok buf →
    buf.contents = (calls.foldl Call.appended []).map some
  room : ∀ buf alloc len, run checks calls = .ok buf →
    calls.getLast? = some (.reserve alloc len) → len.toNat ≤ buf.data.writeCapacity buf.len

section Run

variable {checks : Bool} {calls : List Call} {buf : SecretBuf}

/-- **What the buffer holds after a run.** -/
theorem holds_run (h : run checks calls = .ok buf) :
    Holds (calls.foldl Call.appended []) buf := by
  have hstep : ∀ seen buf call buf', Holds (seen.foldl Call.appended []) buf → True →
      step checks buf call = .ok buf' →
      Holds ((seen ++ [call]).foldl Call.appended []) buf' := by
    intro seen buf call buf' hholds _ hcall
    rw [List.foldl_append]
    exact (behaves_step hholds call).holds buf' hcall
  exact foldlM_invariant (fun seen buf => Holds (seen.foldl Call.appended []) buf) hstep calls []
    empty buf ⟨[], rfl, by decide⟩ (meets_of_forall (fun _ _ => trivial) calls empty) h

/-- Every buffer that comes out of a run is one that `read_from` can rely on. -/
theorem valid_run (h : run checks calls = .ok buf) : buf.Valid := by
  obtain ⟨spare, rfl, hlength⟩ := holds_run h
  refine ⟨_, spare, rfl, ?_⟩
  rwa [List.length_append]

/-- **A run that does not write to other memory.** -/
theorem runCorrect_of_inBounds (h : ∀ w, run checks calls ≠ .error (.outOfBounds w)) :
    RunCorrect checks calls where
  inBounds := h
  len_le buf hrun := by
    obtain ⟨spare, rfl, -⟩ := holds_run hrun
    rw [len_holding, capacity_holding]
    exact Nat.le_add_right _ _
  contents buf hrun := by
    obtain ⟨spare, rfl, -⟩ := holds_run hrun
    exact contents_holding _ spare
  room buf alloc len hrun hlast := by
    obtain ⟨before, rfl⟩ := List.getLast?_eq_some_iff.mp hlast
    cases hbefore : run checks before with
    | error fault =>
      unfold run at hbefore hrun
      rw [List.foldlM_append, hbefore] at hrun
      exact absurd hrun (by simp [bind, Except.bind])
    | ok buf₀ =>
      have hcall : buf₀.reserve checks alloc len.toNat = .ok buf :=
        (foldlM_concat hbefore).symm.trans hrun
      exact ((holds_run hbefore).reserve len.toNat_lt hcall).2

/-- **Runs go right** exactly as long as every call is safe: all buffers are made empty, and only an
empty buffer grows. -/
theorem calls_correct_iff (checks : Bool) (calls : List Call) :
    (∀ before, before <+: calls → RunCorrect checks before) ↔
      Meets (step checks) (fun buf call => call.Safe checks buf) empty calls := by
  rw [meets_iff_forall_split]
  constructor
  · rintro h before call after buf rfl hrun
    by_contra hsafe
    obtain ⟨w, hw⟩ := (behaves_step (holds_run hrun) call).outOfBounds_iff.mpr hsafe
    have hprefix : before ++ [call] <+: before ++ call :: after :=
      ⟨after, by rw [List.append_assoc, List.singleton_append]⟩
    exact (h _ hprefix).inBounds w ((foldlM_concat hrun).trans hw)
  · rintro h before ⟨after, rfl⟩
    refine runCorrect_of_inBounds fun w hw => ?_
    obtain ⟨before', call, rest, buf, rfl, hrun, hcall⟩ := exists_of_foldlM_error hw
    have hsafe := h before' call (rest ++ after) buf
      (by rw [List.append_assoc, List.cons_append]) hrun
    exact (behaves_step (holds_run hrun) call).outOfBounds_iff.mp ⟨w, hcall⟩ hsafe

end Run

/-- A `Vec` of one byte, which has no memory left. -/
def oneByte : Vec UInt8 := ⟨[7], 1, Nat.le_refl 1, by decide⟩

/-- The buffer that is made of it is written to beyond its end. -/
theorem not_runCorrect_oneByte : ¬ RunCorrect true [.fromVec oneByte] := by
  intro h
  have hcall : step true empty (.fromVec oneByte) = .error (.outOfBounds ⟨1, 1⟩) := by
    rw [step_fromVec, fromVec_outOfBounds (by simp [oneByte])]
    rfl
  have hnew : ([] : List Call).foldlM (step true) empty = .ok empty := rfl
  exact h.inBounds ⟨1, 1⟩ ((foldlM_concat hnew).trans hcall)

end SecretBuf

end Vinezombie
