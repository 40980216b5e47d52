import Mathlib.Algebra.Group.Nat.Defs
import Mathlib.Data.List.ReduceOption
import Vinezombie.Library.Cells

/-!
# Memory that is owned

`util/ownedslice.rs`: an `OwnedSlice` is the memory of a `Vec`, without the length of what is in it.
Its users know that length and pass it to the functions that need it.

A `Vec` may get more memory than it asks for; how much is up to the allocator.

* `Vec`, `OwnedSlice`: and the functions that buffers use.
* `initCapacity_zero`, `initCapacity_of_pos`: when `init_capacity` stays within the memory.
-/

namespace Vinezombie

open Library Library.Cells

/-! ## Vectors -/

/-- How much memory there is after some has been asked for.  What is asked for is granted; a `Vec`
asks for at most `isize::MAX` bytes. -/
structure Allocator where
  grant : ℕ → ℕ
  zero : grant 0 = 0
  le : ∀ n, n ≤ grant n
  fits : ∀ n, n < 2 ^ 63 → grant n < 2 ^ 63

/-- An allocator that grants what it is asked for. -/
def Allocator.exact : Allocator := ⟨id, rfl, fun _ => Nat.le_refl _, fun _ h => h⟩

/-- `Vec<T>`, for a type whose values take one byte. -/
structure Vec (T : Type) where
  elements : List T
  capacity : ℕ
  length_le : elements.length ≤ capacity
  fits : capacity < 2 ^ 63

namespace Vec

variable {T : Type}

/-- `Vec::with_capacity`.  There is no result if it panics. -/
def withCapacity (alloc : Allocator) (count : ℕ) : Option (Vec T) :=
  if h : count < 2 ^ 63 then some ⟨[], alloc.grant count, Nat.zero_le _, alloc.fits count h⟩
  else none

/-- `Vec::extend_from_slice`.  There is no result if it panics. -/
def extendFromSlice (alloc : Allocator) (slice : List T) (v : Vec T) : Option (Vec T) :=
  let elements := v.elements ++ slice
  if h : elements.length ≤ v.capacity then some ⟨elements, v.capacity, h, v.fits⟩
  else if h : elements.length < 2 ^ 63 then
    some ⟨elements, alloc.grant elements.length, alloc.le _, alloc.fits _ h⟩
  else none

end Vec

/-! ## Slices -/

/-- `OwnedSlice<T>`, with the cells of its memory. -/
structure OwnedSlice (T : Type) where
  cells : List (Option T)

namespace OwnedSlice

variable {T : Type}

/-- `from_vec`: the memory of the vector, and its length. -/
def fromVec (value : Vec T) : OwnedSlice T × ℕ :=
  (⟨value.elements.map some ++ List.replicate (value.capacity - value.elements.length) none⟩,
    value.elements.length)

/-- `as_slice`, which is there for cells that have been written to. -/
def asSlice (len : ℕ) (data : OwnedSlice T) : List T := (data.cells.take len).reduceOption

/-- `capacity`. -/
def capacity (data : OwnedSlice T) : ℕ := data.cells.length

/-- `write_capacity`. -/
def writeCapacity (len : ℕ) (data : OwnedSlice T) : ℕ := data.capacity - len

theorem capacity_fromVec (value : Vec T) : (fromVec value).1.capacity = value.capacity := by
  have hle := value.length_le
  simp only [fromVec, capacity, List.length_append, List.length_map, List.length_replicate]
  omega

/-- A write to the memory. -/
def update (f : List (Option T) → Except OutOfBounds (List (Option T))) (data : OwnedSlice T) :
    Except OutOfBounds (OwnedSlice T) :=
  (f data.cells).map OwnedSlice.mk

variable [Inhabited T]

/-- `init_capacity`.  The loop begins at the element `len`, and ends as many elements after it as
there are in the whole memory. -/
def initCapacity (len : ℕ) (data : OwnedSlice T) : Except OutOfBounds (OwnedSlice T) :=
  data.update (fill default len (len + data.capacity))

/-- `reinit_all`. -/
def reinitAll (data : OwnedSlice T) : Except OutOfBounds (OwnedSlice T) :=
  data.update (fill default 0 data.capacity)

/-- **`reinit_all`** writes to all of the memory and to nothing else. -/
theorem reinitAll_eq (data : OwnedSlice T) :
    data.reinitAll = .ok ⟨List.replicate data.capacity (some default)⟩ := by
  unfold reinitAll update capacity
  rw [fill_all]
  rfl

/-- **`init_capacity`** does the same when there is nothing in the memory. -/
theorem initCapacity_zero (data : OwnedSlice T) :
    data.initCapacity 0 = .ok ⟨List.replicate data.capacity (some default)⟩ := by
  unfold initCapacity
  rw [Nat.zero_add]
  exact reinitAll_eq data

/-- **When there is something in it**, `init_capacity` goes on behind the end of the memory. -/
theorem initCapacity_of_pos {data : OwnedSlice T} {len : ℕ} (hpos : 0 < len)
    (hle : len ≤ data.capacity) :
    data.initCapacity len = .error ⟨data.capacity, data.capacity⟩ := by
  unfold initCapacity update capacity
  rw [fill_outOfBounds default hle (Nat.lt_add_of_pos_left hpos)]
  rfl

end OwnedSlice

end Vinezombie
