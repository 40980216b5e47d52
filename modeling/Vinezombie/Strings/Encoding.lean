import Vinezombie.Strings.Bytes

/-!
# What a string knows about its encoding

The flag of a string says that its bytes are UTF-8, that they are not, or nothing.  It is set by
the methods that check, and handed on by those that make one string from another.

* `Bytes.Sound`: what the flag of a string says is so.
* `Bytes.Sound.toUtf8`: `to_utf8` returns the bytes, and only if they are UTF-8.
* `Transform.right`: the policies that the transforms of the crate return are right.
* `Bytes.Sound.transform`: a string after a transform.
-/

namespace Vinezombie

open Library.Utf8

/-! ## Flags -/

/-- What the flag says about the bytes is so. -/
structure Utf8Flag.Sound (flag : Utf8Flag) (value : List UInt8) : Prop where
  valid : flag = .valid → Valid value
  invalid : flag = .invalid → ¬ Valid value

/-- What the flag of a string says is so. -/
def Bytes.Sound (b : Bytes) : Prop := b.utf8.Sound b.value

theorem Utf8Flag.sound_unknown (value : List UInt8) : Utf8Flag.unknown.Sound value :=
  ⟨by simp, by simp⟩

theorem Utf8Flag.sound_valid {value : List UInt8} (h : Valid value) : Utf8Flag.valid.Sound value :=
  ⟨fun _ => h, by simp⟩

theorem Utf8Flag.sound_invalid {value : List UInt8} (h : ¬ Valid value) :
    Utf8Flag.invalid.Sound value :=
  ⟨by simp, fun _ => h⟩

/-- The same flag serves for bytes that are UTF-8 when the others are. -/
theorem Utf8Flag.Sound.congr {flag : Utf8Flag} {value value' : List UInt8}
    (h : flag.Sound value) (hiff : Valid value' ↔ Valid value) : flag.Sound value' :=
  ⟨fun hf => hiff.mpr (h.valid hf), fun hf hv => h.invalid hf (hiff.mp hv)⟩

namespace Bytes

variable {b : Bytes}

theorem Sound.owningForce (h : b.Sound) (secret : Bool) : (b.owningForce secret).Sound := h

theorem Sound.owning (h : b.Sound) : b.owning.Sound := by
  unfold Bytes.owning
  split
  · exact h.owningForce _
  · exact h

theorem Sound.makeOwning (h : b.Sound) : b.makeOwning.Sound := by
  unfold Bytes.makeOwning
  split
  · exact h.owningForce _
  · exact h

theorem Sound.secret (h : b.Sound) : b.secret.Sound := by
  unfold Bytes.secret
  split
  · exact h.owningForce _
  · exact h

theorem isUtf8Lazy_eq_true : b.isUtf8Lazy = some true ↔ b.utf8 = .valid := by
  unfold isUtf8Lazy
  cases b.utf8 <;> simp

theorem isUtf8Lazy_eq_false : b.isUtf8Lazy = some false ↔ b.utf8 = .invalid := by
  unfold isUtf8Lazy
  cases b.utf8 <;> simp

/-- **`to_utf8`** returns the bytes, and only if they are UTF-8. -/
theorem Sound.toUtf8 (h : b.Sound) :
    b.toUtf8.2.Sound ∧ ∀ s, b.toUtf8.1 = some s → s = b.value ∧ Valid s := by
  unfold Bytes.toUtf8
  split
  · rename_i hlazy
    refine ⟨h, fun s hs => ?_⟩
    rw [← Option.some.inj hs]
    exact ⟨rfl, h.valid (isUtf8Lazy_eq_true.mp hlazy)⟩
  · exact ⟨h, by simp⟩
  · split
    · rename_i hvalid
      refine ⟨Utf8Flag.sound_valid hvalid, fun s hs => ?_⟩
      rw [← Option.some.inj hs]
      exact ⟨rfl, hvalid⟩
    · rename_i hinvalid
      exact ⟨Utf8Flag.sound_invalid hinvalid, by simp⟩

theorem fromUtf8Lossy_cases (value : List UInt8) :
    (fromUtf8Lossy value = .borrowed value ∧ Valid value) ∨
      fromUtf8Lossy value = .owned (lossy value) ∧ ¬ Valid value := by
  unfold fromUtf8Lossy
  split
  · rename_i hvalid
    exact .inl ⟨rfl, hvalid⟩
  · rename_i hinvalid
    exact .inr ⟨rfl, hinvalid⟩

/-- **`utf8_cow`** borrows the bytes if they are UTF-8, and replaces what is not. -/
theorem Sound.utf8Cow (h : b.Sound) :
    b.utf8Cow.2.Sound ∧ (b.utf8Cow.1 = .borrowed b.value ∧ Valid b.value ∨
      b.utf8Cow.1 = .owned (lossy b.value) ∧ ¬ Valid b.value) := by
  unfold Bytes.utf8Cow
  split
  · rename_i hlazy
    exact ⟨h, .inl ⟨rfl, h.valid (isUtf8Lazy_eq_true.mp hlazy)⟩⟩
  · exact ⟨h, fromUtf8Lossy_cases b.value⟩
  · rcases fromUtf8Lossy_cases b.value with ⟨hcow, hvalid⟩ | ⟨hcow, hinvalid⟩
    · rw [hcow]
      exact ⟨Utf8Flag.sound_valid hvalid, .inl ⟨rfl, hvalid⟩⟩
    · rw [hcow]
      exact ⟨Utf8Flag.sound_invalid hinvalid, .inr ⟨rfl, hinvalid⟩⟩

theorem Sound.intoUtf8Lossy (h : b.Sound) : b.intoUtf8Lossy.Sound := by
  unfold Bytes.intoUtf8Lossy
  rcases h.utf8Cow.2 with ⟨hcow, hvalid⟩ | ⟨hcow, -⟩
  · rw [hcow]
    exact Utf8Flag.sound_valid hvalid
  · rw [hcow]
    exact Utf8Flag.sound_valid (valid_lossy _)

end Bytes

/-! ## Transforms -/

/-- What a policy says about the bytes of the new string. -/
def Utf8Policy.Right (policy : Utf8Policy) (value value' : List UInt8) : Prop :=
  policy = .preserveStrict ∧ (Valid value' ↔ Valid value) ∨ policy = .valid ∧ Valid value'

/-- A casemap changes letters and a few other bytes below 128 only. -/
theorem isAscii_casemap : ∀ f ∈ [toAsciiUppercase, toAsciiLowercase, rfc1459Strict, rfc1459],
    ∀ b : UInt8, (isAscii b = true → isAscii (f b) = true) ∧ (isAscii b = false → f b = b) := by
  intro f hf
  simp only [List.mem_cons, List.not_mem_nil, or_false] at hf
  rcases hf with rfl | rfl | rfl | rfl <;> exact forall_byte (by decide +kernel)

theorem right_mapBytes {f : UInt8 → UInt8}
    (hf : f ∈ [toAsciiUppercase, toAsciiLowercase, rfc1459Strict, rfc1459])
    (bytes : List UInt8) :
    (mapBytes bytes .preserveStrict f).utf8.Right bytes
      (mapBytes bytes .preserveStrict f).transformed.bytes := by
  have hbyte := isAscii_casemap f hf
  rw [bytes_mapBytes]
  unfold mapBytes
  dsimp only
  split
  · rename_i hall
    refine .inr ⟨rfl, valid_of_isAscii fun b hb => ?_⟩
    obtain ⟨b', hb', rfl⟩ := List.mem_map.mp hb
    exact List.all_eq_true.mp hall b' hb'
  · exact .inl ⟨rfl, valid_map_iff (fun b => (hbyte b).1) fun b => (hbyte b).2⟩

/-- **The transforms of the crate** return the right policy. -/
theorem Transform.right (tf : Transform) (bytes : List UInt8) :
    (tf.transform bytes).utf8.Right bytes (tf.transform bytes).transformed.bytes := by
  cases tf with
  | asciiCasemap uppercase =>
    cases uppercase with
    | true => exact right_mapBytes (by simp) bytes
    | false => exact right_mapBytes (by simp) bytes
  | ircCasemap casemap =>
    cases casemap with
    | ascii => exact right_mapBytes (f := toAsciiLowercase) (by simp) bytes
    | rfc1459Strict => exact right_mapBytes (f := Vinezombie.rfc1459Strict) (by simp) bytes
    | rfc1459 => exact right_mapBytes (f := Vinezombie.rfc1459) (by simp) bytes
  | trimAscii side =>
    refine .inl ⟨rfl, ?_⟩
    obtain ⟨l, r, hsplit, hl, hr⟩ := exists_trimAscii side bytes
    have hascii : ∀ b : UInt8, isAsciiWhitespace b = true → isAscii b = true :=
      forall_byte (by decide +kernel)
    show Valid (Vinezombie.trimAscii side bytes) ↔ Valid bytes
    conv_rhs => rw [hsplit]
    rw [valid_append_ascii_iff fun b hb => hascii b (hr b hb),
      valid_ascii_append_iff fun b hb => hascii b (hl b hb)]

/-- **A string after a transform.** -/
theorem Bytes.Sound.transform {b : Bytes} (h : b.Sound) (tf : Transform) :
    (b.transform tf).Sound := by
  have hvalue := b.value_transform tf
  have hright := tf.right b.value
  rw [← hvalue] at hright
  unfold Bytes.Sound
  generalize hvalue' : (b.transform tf).value = value' at hright
  unfold Bytes.transform
  dsimp only
  split
  · rename_i hempty
    rw [← hvalue', hvalue, List.isEmpty_iff.mp hempty]
    exact Utf8Flag.sound_valid valid_nil
  · split
    · rcases hright with ⟨hpolicy, hiff⟩ | ⟨hpolicy, hvalid⟩
      · rw [hpolicy]
        exact h.congr hiff
      · rw [hpolicy]
        exact Utf8Flag.sound_valid hvalid
    · rcases hright with ⟨hpolicy, hiff⟩ | ⟨hpolicy, hvalid⟩
      · rw [hpolicy]
        exact h.congr hiff
      · rw [hpolicy]
        exact Utf8Flag.sound_valid hvalid

end Vinezombie
