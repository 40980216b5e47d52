import Vinezombie.Strings.Base64RoundTrip
import Vinezombie.Strings.SplitterEncoding

/-!
# Whether strings are UTF-8

Three parts of the string API keep track of whether bytes are UTF-8, each in its own way: the flag
of a string, what a splitter knows about its range, and the flag of a builder.  Whatever is made by
calling methods in any order is right about this, as long as no guard is dropped that puts bytes
back into the range of a splitter which are not what the splitter takes them for.

* `sound_of_obtainable`: whatever is made without dropping such guards is right about its encoding.
* `exists_not_valid`: once such a guard is dropped, a string that is not can be made.
* `utf8_cache_sound`: the two together.
* `notMistaken_of_obtainable`: a string that is UTF-8 is not taken for anything else in any case.
-/

namespace Vinezombie

open Library Library.Utf8

namespace Flagged

/-! ## Builders -/

/-- What the flag of a builder says is so. -/
def Builder.Sound (b : Builder) : Prop := b.utf8 = true → Valid b.bytes

namespace Builder

variable {b : Builder}

theorem Sound.appendUnchecked (h : b.Sound) {string : List UInt8} {utf8 : Bool}
    (hstring : utf8 = true → Valid string) : (b.appendUnchecked string utf8).Sound := by
  intro hutf8
  obtain ⟨hb, hs⟩ := Bool.and_eq_true_iff.mp hutf8
  exact (h hb).append (hstring hs)

theorem Sound.tryAppendUnchecked (h : b.Sound) {string : List UInt8} {utf8 : Bool}
    (hstring : utf8 = true → Valid string) : (b.tryAppendUnchecked string utf8).Sound := by
  unfold Builder.tryAppendUnchecked
  split
  · exact h
  · exact h.appendUnchecked hstring

theorem Sound.apply (h : b.Sound) (o : BuilderOp) : (o.apply b).Sound := by
  cases o with
  | tryAppend string =>
    exact h.tryAppendUnchecked fun hall => valid_of_isAscii (List.all_eq_true.mp hall)
  | tryAppendStr string => exact h.tryAppendUnchecked fun _ => valid_toByteArray string
  | tryPush byte => exact h.tryAppendUnchecked valid_singleton
  | tryPushChar c => exact h.tryAppendUnchecked fun _ => valid_utf8EncodeChar c
  | checkUtf8 =>
    show b.checkUtf8.Sound
    unfold checkUtf8
    split
    · rename_i hvalid
      exact fun _ => hvalid
    · exact h

theorem Sound.build (h : b.Sound) : b.build.Sound := by
  unfold Builder.build
  split
  · rename_i hutf8
    exact Utf8Flag.sound_valid (h hutf8)
  · exact Utf8Flag.sound_unknown _

end Builder

/-! ## Everything that can be made -/

variable [Base64.Engine]

theorem sound_toBase64Impl (b : Bytes) : (toBase64Impl b).Sound := by
  have hascii : ∀ c : UInt8, Base64.isBase64 c = true → isAscii c = true :=
    forall_byte (by decide +kernel)
  refine Utf8Flag.sound_valid (valid_of_isAscii fun c hc => ?_)
  exact hascii c (Base64.Engine.isBase64_encode b.value c hc)

/-- **The methods of strings.** -/
theorem sound_strOp {o : StrOp} {k k' : Kind} {b b' : Bytes} (h : b.Sound)
    (hop : o.apply (k, b) = some (k', b')) : b'.Sound := by
  cases StrOp.makes_of_apply hop with
  | clone => exact h
  | owning => exact h.owning
  | makeOwning => exact h.makeOwning
  | secret => exact h.secret
  | toUtf8 => exact h.toUtf8.1
  | toUtf8Lossy => exact h.utf8Cow.1
  | intoUtf8Lossy => exact h.intoUtf8Lossy
  | transform tf => exact h.transform tf
  | into => exact h
  | fromBytes => exact h
  | fromSuper => exact h
  | fromWord => exact h.transform _
  | escapeNothing => exact h
  | escape => exact Utf8Flag.sound_unknown _
  | unescapeNothing => exact h
  | unescape => exact Utf8Flag.sound_unknown _
  | toBase64 => exact sound_toBase64Impl b
  | toBase64Plus => exact sound_toBase64Impl b
  | plus => exact Utf8Flag.sound_valid (valid_toByteArray "+")

/-- What is known about the encoding of an object is so. -/
def Object.Sound : Object → Prop
  | .str _ b => b.Sound
  | .splitter s => s.Sound
  | .builder b => b.Sound

/-- **Whatever is made** by dropping only guards that may be dropped is right about its
encoding. -/
theorem sound_of_obtainable {Ops : StrOp → Prop} {x : Object}
    (hx : Obtainable Ops Splitter.Mends x) : x.Sound := by
  induction hx with
  | empty => exact Utf8Flag.sound_valid valid_nil
  | default => exact Utf8Flag.sound_unknown _
  | fromBytes => exact Utf8Flag.sound_unknown _
  | fromVec => exact Utf8Flag.sound_unknown _
  | fromString value => exact Utf8Flag.sound_valid (valid_toByteArray value)
  | fromStr k value => exact Utf8Flag.sound_valid (valid_toByteArray value)
  | fromSecret => exact Utf8Flag.sound_unknown _
  | strOp o k k' b b' _ _ hop ih => exact sound_strOp ih hop
  | splitterNew k b _ ih => exact Splitter.sound_new ih
  | splitterOp o s _ hdrop ih => exact Splitter.Sound.apply ih o hdrop
  | extracted e s s' b _ hrun ih => exact (Splitter.Sound.run ih hrun).1
  | splitterAfter e s s' b _ hrun ih => exact (Splitter.Sound.run ih hrun).2
  | builderNew k b _ ih => exact fun hutf8 => Utf8Flag.Sound.valid ih (of_decide_eq_true hutf8)
  | builderOp o b _ ih => exact Builder.Sound.apply ih o
  | builderAppend k string b _ _ _ ihb ihs =>
    exact Builder.Sound.appendUnchecked ihb fun hutf8 =>
      Utf8Flag.Sound.valid ihs (of_decide_eq_true hutf8)
  | build b _ ih => exact Builder.Sound.build ih

/-- What can be made with fewer methods can be made with more. -/
theorem Obtainable.mono {Ops : StrOp → Prop} {Drops Drops' : Splitter → Prop} {x : Object}
    (hdrops : ∀ s, Drops s → Drops' s) (hx : Obtainable Ops Drops x) : Obtainable Ops Drops' x := by
  induction hx with
  | empty k hk => exact .empty k hk
  | default k hk => exact .default k hk
  | fromBytes value => exact .fromBytes value
  | fromVec value => exact .fromVec value
  | fromString value => exact .fromString value
  | fromStr k value hk => exact .fromStr k value hk
  | fromSecret k value hk => exact .fromSecret k value hk
  | strOp o k k' b b' ho _ hop ih => exact .strOp o k k' b b' ho ih hop
  | splitterNew k b _ ih => exact .splitterNew k b ih
  | splitterOp o s _ hdrop ih => exact .splitterOp o s ih fun ho => hdrops s (hdrop ho)
  | extracted e s s' b _ hrun ih => exact .extracted e s s' b ih hrun
  | splitterAfter e s s' b _ hrun ih => exact .splitterAfter e s s' b ih hrun
  | builderNew k b _ ih => exact .builderNew k b ih
  | builderOp o b _ ih => exact .builderOp o b ih
  | builderAppend k string b _ _ hk ihb ihs => exact .builderAppend k string b ihb ihs hk
  | build b _ ih => exact .build b ih

/-- **The condition is needed**: once a guard that may not be dropped is dropped, a string can be
made whose flag says that it is UTF-8 when it is not. -/
theorem exists_not_valid {Ops : StrOp → Prop} {s : Splitter}
    (hs : Obtainable Ops Splitter.Mends (.splitter s)) (hnot : ¬ s.Mends) :
    ∃ b, Obtainable Ops (fun s' => s'.Mends ∨ s' = s) (.str .bytes b) ∧
      b.utf8 = .valid ∧ ¬ Valid b.value := by
  have hsound : s.Sound := sound_of_obtainable hs
  obtain ⟨g, hg, hone, hput⟩ : ∃ g ∈ s.guards.head?, g.start ≠ g.stop ∧
      ¬ s.range.encoding.Describes (s.putBack g) := by
    unfold Splitter.Mends at hnot
    push Not at hnot
    exact hnot
  obtain ⟨guards, hguards⟩ := List.head?_eq_some_iff.mp hg
  have hdrop : s.drop = { s with range := s.range.restore g.saved g.start g.stop, guards } := by
    unfold Splitter.drop
    rw [hguards]
  have hdropped : Obtainable Ops (fun s' => s'.Mends ∨ s' = s) (.splitter s.drop) :=
    .splitterOp .drop s (hs.mono fun _ => .inl) fun _ => .inr rfl
  have hencoding : s.drop.range.encoding = s.range.encoding := by
    rw [hdrop]
    show (if (g.start && g.stop) = true then _ else _) = _
    rw [if_neg]
    cases hstart : g.start <;> cases hstop : g.stop <;> simp_all
  have hwrong : ¬ s.drop.range.encoding.Describes s.drop.asSlice := by
    rw [hdrop]
    exact fun hdesc => hput ((Splitter.sound_restore_iff hsound hguards hone).mp hdesc)
  obtain ⟨hle, hstop, -⟩ := Splitter.within_restore hsound hguards
  -- the rest of a splitter that is wrong about UTF-8 is such a string
  have hrest : ∀ s₁ : Splitter, Obtainable Ops (fun s' => s'.Mends ∨ s' = s) (.splitter s₁) →
      s₁.range.encoding ≠ .unknown → ¬ Valid s₁.asSlice →
      ∃ b, Obtainable Ops (fun s' => s'.Mends ∨ s' = s) (.str .bytes b) ∧
        b.utf8 = .valid ∧ ¬ Valid b.value := by
    intro s₁ hs₁ hknown hinvalid
    refine ⟨s₁.extract s₁.asSlice,
      .extracted (.peekRest .bytes) s₁ s₁ _ hs₁ (Splitter.run_peekRest_bytes s₁), ?_, hinvalid⟩
    have hlazy : s₁.isUtf8Lazy = true := decide_eq_true hknown
    unfold Splitter.extract
    rw [hlazy]
    rfl
  cases he : s.drop.range.encoding with
  | unknown =>
    rw [he] at hwrong
    exact absurd trivial hwrong
  | utf8 =>
    rw [he] at hwrong
    exact hrest s.drop hdropped (by rw [he]; simp) hwrong
  | ascii =>
    rw [he] at hwrong
    obtain ⟨n, hascii, hinvalid⟩ := Splitter.exists_untilCount he (by rw [hdrop]; exact hle)
      (by rw [hdrop]; exact hstop) hwrong
    exact hrest (s.drop.untilCount n) (.splitterOp (.untilCount n) s.drop hdropped (by simp))
      (by rw [hascii]; simp) hinvalid

/-- **Strings are right about their encoding**, and `to_utf8` returns nothing that is not UTF-8, in
whatever is made by dropping only guards that may be dropped; and once one is dropped that may not,
a string can be made that is wrong. -/
theorem utf8_cache_sound :
    (∀ k b, Obtainable (fun _ => True) Splitter.Mends (.str k b) →
      (b.isUtf8Lazy = some true → Valid b.value) ∧ (b.isUtf8Lazy = some false → ¬ Valid b.value) ∧
        ∀ s, b.toUtf8.1 = some s → s = b.value ∧ Valid s) ∧
    ∀ s, Obtainable (fun _ => True) Splitter.Mends (.splitter s) → ¬ s.Mends →
      ∃ b, Obtainable (fun _ => True) (fun s' => s'.Mends ∨ s' = s) (.str .bytes b) ∧
        b.isUtf8Lazy = some true ∧ ¬ Valid b.value := by
  constructor
  · intro k b hb
    have hsound : b.Sound := sound_of_obtainable hb
    exact ⟨fun hlazy => hsound.valid (Bytes.isUtf8Lazy_eq_true.mp hlazy),
      fun hlazy => hsound.invalid (Bytes.isUtf8Lazy_eq_false.mp hlazy), hsound.toUtf8.2⟩
  · intro s hs hnot
    obtain ⟨b, hb, hvalid, hinvalid⟩ := exists_not_valid hs hnot
    exact ⟨b, hb, Bytes.isUtf8Lazy_eq_true.mpr hvalid, hinvalid⟩

omit [Base64.Engine] in
/-- A guard of the end of `"A\xC3"`, under which the range is cut down to the `A` and found to be
ASCII: what is left after the guard is dropped passes for UTF-8. -/
theorem not_utf8_cache_sound :
    letI := Base64.standardEngine
    ∃ b, Obtainable (fun _ => True) (fun _ => True) (.str .bytes b) ∧ b.value = [65, 0xC3] ∧
      b.isUtf8Lazy = some true ∧ b.toUtf8.1 = some [65, 0xC3] ∧ ¬ Valid b.value := by
  let _ : Base64.Engine := Base64.standardEngine
  have hstr : Obtainable (fun _ => True) (fun _ => True) (.str .bytes (.fromBytes [65, 0xC3])) :=
    .fromBytes _
  have hsaved := (Obtainable.splitterNew _ _ hstr).splitterOp (.save false true) _ (by simp)
  have hchecked := (hsaved.splitterOp (.untilCount 1) _ (by simp)).splitterOp .checkEncoding _
    (by simp)
  have hdropped := hchecked.splitterOp .drop _ fun _ => trivial
  refine ⟨_, .extracted (.rest .bytes) _ _ ⟨[65, 0xC3], false, .valid, false⟩ hdropped rfl, rfl,
    rfl, rfl, ?_⟩
  refine not_valid_append_singleton (l := [65]) (fun b hb => ?_) rfl
  rw [List.mem_singleton.mp hb]
  rfl

/-! ## Strings that are taken for something else -/

omit [Base64.Engine] in
/-- A transform keeps the mark of a string that is taken for UTF-8. -/
theorem utf8_transform_ne_invalid {b : Bytes} (h : b.utf8 = .valid) (tf : Transform) :
    (b.transform tf).utf8 ≠ .invalid := by
  have hright := tf.right b.value
  unfold Bytes.transform
  dsimp only
  split
  · exact fun hempty => absurd hempty (by decide)
  · split
    · rcases hright with ⟨hpolicy, -⟩ | ⟨hpolicy, -⟩
      · simp [hpolicy, h]
      · simp [hpolicy]
    · rcases hright with ⟨hpolicy, -⟩ | ⟨hpolicy, -⟩
      · simp [hpolicy, Bytes.ofVec, Bytes.utf8ForPolicy, h]
      · simp [hpolicy, Bytes.ofVec, Bytes.utf8ForPolicy]

/-- **The methods of strings** take no string that is UTF-8 for something else. -/
theorem not_valid_strOp {o : StrOp} {k k' : Kind} {b b' : Bytes}
    (h : b.utf8 = .invalid → ¬ Valid b.value) (hop : o.apply (k, b) = some (k', b'))
    (hinvalid : b'.utf8 = .invalid) : ¬ Valid b'.value := by
  by_cases hvalid : b.utf8 = .valid
  · -- what is taken for UTF-8 is not checked again
    exfalso
    revert hinvalid
    cases StrOp.makes_of_apply hop with
    | transform tf => exact utf8_transform_ne_invalid hvalid tf
    | fromWord => exact utf8_transform_ne_invalid hvalid _
    | intoUtf8Lossy => simp [Bytes.intoUtf8Lossy, Bytes.utf8Cow, Bytes.isUtf8Lazy, hvalid]
    | toUtf8 => simp [Bytes.toUtf8, Bytes.isUtf8Lazy, hvalid]
    | toUtf8Lossy => simp [Bytes.utf8Cow, Bytes.isUtf8Lazy, hvalid]
    | owning => simp [hvalid]
    | makeOwning => simp [hvalid]
    | secret => simp [hvalid]
    | escape => simp [Bytes.fromVec, Bytes.ofVec]
    | unescape => simp [Bytes.fromVec, Bytes.ofVec]
    | toBase64 => simp [toBase64Impl, Bytes.ofVec]
    | toBase64Plus => simp [toBase64Impl, Bytes.ofVec]
    | plus => simp [Bytes.fromStr]
    | _ => simp [hvalid]
  · have hsound : b.Sound := ⟨fun hv => absurd hv hvalid, h⟩
    exact (sound_strOp hsound hop).invalid hinvalid

omit [Base64.Engine] in
/-- What is extracted is not checked, so it is not taken for something other than UTF-8. -/
theorem Splitter.utf8_run_ne_invalid {s s' : Splitter} {e : Extraction} {b : Bytes}
    (hrun : e.run s = some (b, s')) : b.utf8 ≠ .invalid := by
  obtain ⟨-, ⟨hpeek, -⟩ | ⟨rfl, -, rfl⟩⟩ := Extraction.run_eq_some hrun
  · obtain ⟨n, -, rfl, -⟩ := Splitter.valid_of_peek hpeek
    unfold Splitter.extract Bytes.usingValue Bytes.utf8ForPolicy
    cases s.isUtf8Lazy <;> simp
  · simp [Bytes.default]

/-- No string that is UTF-8 is taken for something else. -/
def Object.NotMistaken : Object → Prop
  | .str _ b => b.utf8 = .invalid → ¬ Valid b.value
  | .splitter _ => True
  | .builder _ => True

/-- **A string that is UTF-8** is never taken for something else, whatever guards are dropped. -/
theorem notMistaken_of_obtainable {Ops : StrOp → Prop} {Drops : Splitter → Prop} {x : Object}
    (hx : Obtainable Ops Drops x) : x.NotMistaken := by
  induction hx with
  | empty => simp [Object.NotMistaken, Bytes.empty]
  | default => simp [Object.NotMistaken, Bytes.default]
  | fromBytes => simp [Object.NotMistaken, Bytes.fromBytes]
  | fromVec => simp [Object.NotMistaken, Bytes.fromVec, Bytes.ofVec]
  | fromString => simp [Object.NotMistaken, Bytes.fromString, Bytes.ofVec]
  | fromStr => simp [Object.NotMistaken, Bytes.fromStr]
  | fromSecret => simp [Object.NotMistaken, Bytes.fromSecret, Bytes.ofVec]
  | strOp o k k' b b' _ _ hop ih => exact not_valid_strOp ih hop
  | extracted e s s' b _ hrun _ =>
    exact fun hinvalid => absurd hinvalid (Splitter.utf8_run_ne_invalid hrun)
  | build b _ _ =>
    intro hinvalid
    unfold Builder.build at hinvalid
    split at hinvalid <;> simp [Bytes.ofVec] at hinvalid
  | splitterNew => trivial
  | splitterOp => trivial
  | splitterAfter => trivial
  | builderNew => trivial
  | builderOp => trivial
  | builderAppend => trivial

end Flagged

end Vinezombie
