import Vinezombie.Strings.Flagged

/-!
# What one call can do

What the string API keeps true is shown call by call.  Here the calls are taken apart, once for all
of these proofs.

* `StrOp.Makes`: a string and the string that a method makes of it.
* `Splitter.SameString`: a splitter keeps its string and its kind.
* `Splitter.Begins`, `Extraction.begins_of_peek`: what an extraction returns.
* `Extraction.run_eq_some`: an extraction, with the splitter after it.
* `Splitter.InBounds`: the window of a splitter, and what a guard cuts off it.
-/

namespace Vinezombie

open Library

namespace Flagged

/-! ## Methods of strings -/

/-- A method makes a string of a string. -/
inductive StrOp.Makes [Base64.Engine] (k : Kind) (b : Bytes) : StrOp → Kind → Bytes → Prop
  | clone : Makes k b .clone k b
  | owning : Makes k b .owning k b.owning
  | makeOwning : Makes k b .makeOwning k b.makeOwning
  | secret : Makes k b .secret k b.secret
  | toUtf8 : Makes k b .toUtf8 k b.toUtf8.2
  | toUtf8Lossy : Makes k b .toUtf8Lossy k b.utf8Cow.2
  | intoUtf8Lossy : k = .bytes → Makes k b .intoUtf8Lossy k b.intoUtf8Lossy
  | transform (tf : Transform) : k.isSafe tf = true →
    Makes k b (.transform tf) k (b.transform tf)
  | into (k' : Kind) : k.into k' = true → Makes k b (.into k') k' b
  | fromBytes (k' : Kind) : k'.type.findInvalid b.value = none → Makes k b (.fromBytes k') k' b
  | fromSuper (k' sup : Kind) : k'.superOf = some sup → k.into sup = true →
    k'.superCheck b.value = none → Makes k b (.fromSuper k') k' b
  | fromWord : Makes k b .fromWord .cmd (b.transform (.asciiCasemap true))
  /-- There is nothing to escape. -/
  | escapeNothing : k.into .noNul = true → (∀ c ∈ b.value, escapeByte c = none) →
    Makes k b .escape .word b
  | escape : k.into .noNul = true → Makes k b .escape .word (.fromVec (escapeBytes b.value))
  /-- There is nothing to unescape. -/
  | unescapeNothing : k.into .noNul = true → Makes k b .unescape .noNul b
  | unescape : k.into .noNul = true →
    Makes k b .unescape .noNul (.fromVec (unescapeBytes b.value))
  | toBase64 : Makes k b .toBase64 .word (toBase64Impl b)
  | toBase64Plus : b.value ≠ [] → Makes k b .toBase64Plus .arg (toBase64Impl b)
  | plus : Makes k b .toBase64Plus .arg (.fromStr "+")

/-- A check that passes returns the string. -/
theorem Kind.fromBytes_eq_ok {k : Kind} {b b' : Bytes} (h : k.fromBytes b = .ok b') :
    b' = b ∧ k.type.findInvalid b.value = none := by
  unfold fromBytes at h
  cases hfind : k.type.findInvalid b.value with
  | some e =>
    rw [hfind] at h
    exact absurd h (by simp)
  | none =>
    rw [hfind] at h
    exact ⟨(Except.ok.inj h).symm, rfl⟩

theorem Kind.fromSuper_eq_ok {k : Kind} {b b' : Bytes} (h : k.fromSuper b = .ok b') :
    b' = b ∧ k.superCheck b.value = none := by
  unfold fromSuper at h
  cases hcheck : k.superCheck b.value with
  | some e =>
    rw [hcheck] at h
    exact absurd h (by simp)
  | none =>
    rw [hcheck] at h
    exact ⟨(Except.ok.inj h).symm, rfl⟩

/-- **Every call of a method** is one of these. -/
theorem StrOp.makes_of_apply [Base64.Engine] {o : StrOp} {k k' : Kind} {b b' : Bytes}
    (hop : o.apply (k, b) = some (k', b')) : Makes k b o k' b' := by
  cases o with
  | clone =>
    obtain ⟨rfl, rfl⟩ := Prod.mk.inj (Option.some.inj hop)
    exact .clone
  | owning =>
    obtain ⟨rfl, rfl⟩ := Prod.mk.inj (Option.some.inj hop)
    exact .owning
  | makeOwning =>
    obtain ⟨rfl, rfl⟩ := Prod.mk.inj (Option.some.inj hop)
    exact .makeOwning
  | secret =>
    obtain ⟨rfl, rfl⟩ := Prod.mk.inj (Option.some.inj hop)
    exact .secret
  | toUtf8 =>
    obtain ⟨rfl, rfl⟩ := Prod.mk.inj (Option.some.inj hop)
    exact .toUtf8
  | toUtf8Lossy =>
    obtain ⟨rfl, rfl⟩ := Prod.mk.inj (Option.some.inj hop)
    exact .toUtf8Lossy
  | intoUtf8Lossy =>
    obtain ⟨hk, heq⟩ := Option.ite_none_right_eq_some.mp hop
    obtain ⟨rfl, rfl⟩ := Prod.mk.inj (Option.some.inj heq)
    exact .intoUtf8Lossy hk
  | transform tf =>
    obtain ⟨hsafe, heq⟩ := Option.ite_none_right_eq_some.mp hop
    obtain ⟨rfl, rfl⟩ := Prod.mk.inj (Option.some.inj heq)
    exact .transform tf hsafe
  | into k₁ =>
    obtain ⟨hinto, heq⟩ := Option.ite_none_right_eq_some.mp hop
    obtain ⟨rfl, rfl⟩ := Prod.mk.inj (Option.some.inj heq)
    exact .into _ hinto
  | fromBytes k₁ =>
    cases hr : k₁.fromBytes b with
    | error e => exact absurd hop (by simp [StrOp.apply, hr, Except.toOption])
    | ok b₁ =>
      simp only [StrOp.apply, hr, Except.toOption, Option.map_some] at hop
      obtain ⟨rfl, rfl⟩ := Prod.mk.inj (Option.some.inj hop)
      obtain ⟨rfl, hnone⟩ := Kind.fromBytes_eq_ok hr
      exact .fromBytes _ hnone
  | fromSuper k₁ =>
    simp only [StrOp.apply] at hop
    split at hop
    · rename_i sup hsup
      obtain ⟨hinto, hop⟩ := Option.ite_none_right_eq_some.mp hop
      cases hr : k₁.fromSuper b with
      | error e => exact absurd hop (by simp [hr, Except.toOption])
      | ok b₁ =>
        simp only [hr, Except.toOption, Option.map_some] at hop
        obtain ⟨rfl, rfl⟩ := Prod.mk.inj (Option.some.inj hop)
        obtain ⟨rfl, hnone⟩ := Kind.fromSuper_eq_ok hr
        exact .fromSuper _ sup hsup hinto hnone
    · exact absurd hop (by simp)
  | fromWord =>
    obtain ⟨-, heq⟩ := Option.ite_none_right_eq_some.mp hop
    obtain ⟨rfl, rfl⟩ := Prod.mk.inj (Option.some.inj heq)
    exact .fromWord
  | escape =>
    obtain ⟨hinto, hop⟩ := Option.ite_none_right_eq_some.mp hop
    split at hop
    · rename_i hall
      obtain ⟨rfl, rfl⟩ := Prod.mk.inj (Option.some.inj hop)
      exact .escapeNothing hinto fun c hc => by simpa using List.all_eq_true.mp hall c hc
    · obtain ⟨rfl, rfl⟩ := Prod.mk.inj (Option.some.inj hop)
      exact .escape hinto
  | unescape =>
    obtain ⟨hinto, hop⟩ := Option.ite_none_right_eq_some.mp hop
    split at hop
    · obtain ⟨rfl, rfl⟩ := Prod.mk.inj (Option.some.inj hop)
      exact .unescapeNothing hinto
    · obtain ⟨rfl, rfl⟩ := Prod.mk.inj (Option.some.inj hop)
      exact .unescape hinto
  | toBase64 =>
    obtain ⟨rfl, rfl⟩ := Prod.mk.inj (Option.some.inj hop)
    exact .toBase64
  | toBase64Plus =>
    simp only [StrOp.apply] at hop
    split at hop
    · obtain ⟨rfl, rfl⟩ := Prod.mk.inj (Option.some.inj hop)
      exact .plus
    · rename_i hne
      obtain ⟨rfl, rfl⟩ := Prod.mk.inj (Option.some.inj hop)
      exact .toBase64Plus fun hnil => hne (List.isEmpty_iff.mpr hnil)

/-! ## Splitters -/

namespace Splitter

variable {s s' : Splitter} {U : Kind} {b : Bytes}

/-- The string and the kind of a splitter. -/
def SameString (s' s : Splitter) : Prop := s'.str = s.str ∧ s'.kind = s.kind

/-- **No method** changes them. -/
theorem sameString_apply (o : SplitterOp) (s : Splitter) : (o.apply s).SameString s := by
  cases o with
  | nextByte =>
    show s.nextByte.SameString s
    unfold nextByte
    split <;> exact ⟨rfl, rfl⟩
  | rnextByte =>
    show s.rnextByte.SameString s
    unfold rnextByte
    split <;> exact ⟨rfl, rfl⟩
  | consumeInvalid U =>
    show (s.consumeWhile _).SameString s
    unfold consumeWhile
    split <;> exact ⟨rfl, rfl⟩
  | consumeWhitespace =>
    show (s.consumeWhile _).SameString s
    unfold consumeWhile
    split <;> exact ⟨rfl, rfl⟩
  | untilByte f =>
    show (s.untilByte f).SameString s
    unfold untilByte
    split <;> exact ⟨rfl, rfl⟩
  | untilByteEq b =>
    show (s.untilByteEq b).SameString s
    unfold untilByteEq
    split <;> exact ⟨rfl, rfl⟩
  | untilCount len => exact ⟨rfl, rfl⟩
  | checkEncoding =>
    show s.checkEncoding.SameString s
    unfold checkEncoding
    split
    · split
      · split <;> exact ⟨rfl, rfl⟩
      · exact ⟨rfl, rfl⟩
    · exact ⟨rfl, rfl⟩
  | save start stop => exact ⟨rfl, rfl⟩
  | drop =>
    show s.drop.SameString s
    unfold Splitter.drop
    split <;> exact ⟨rfl, rfl⟩
  | clone => exact ⟨rfl, rfl⟩

/-- A string of the kind `U` is the beginning of the range: all of it, if `Wide` or no byte is
invalid for `U`, or what stands before the first byte that is. -/
def Begins (s : Splitter) (U : Kind) (Wide : Prop) (b : Bytes) : Prop :=
  ∃ n ≤ s.asSlice.length, b = s.extract (s.asSlice.take n) ∧
    U.type.checkOthers (s.asSlice.take n) = none ∧
    (n = s.asSlice.length ∧ (Wide ∨ ∀ c ∈ s.asSlice, U.type.isInvalid c = false) ∨
      s.asSlice.findIdx? U.type.isInvalid = some n)

/-- **What `peek_rest` returns** is the range as it is. -/
theorem begins_of_peekRest {Wide : Prop} (h : s.peekRest U = .ok b)
    (hwide : Wide ∨ ∀ c ∈ s.asSlice, U.type.isInvalid c = false) : s.Begins U Wide b := by
  unfold peekRest at h
  cases hothers : U.type.checkOthers s.asSlice with
  | some e =>
    rw [hothers] at h
    exact absurd h (by simp)
  | none =>
    rw [hothers] at h
    refine ⟨_, Nat.le_refl _, ?_, ?_, .inl ⟨rfl, hwide⟩⟩
    · rw [List.take_length]
      exact (Except.ok.inj h).symm
    · rw [List.take_length]
      exact hothers

/-- **What `peek_string` returns** ends at the first byte that is invalid, or there is none. -/
theorem begins_of_peekString {Wide : Prop} {requireRest : Bool}
    (h : s.peekString U requireRest = .ok b) : s.Begins U Wide b := by
  unfold peekString at h
  cases hidx : s.asSlice.findIdx? U.type.isInvalid with
  | none =>
    rw [hidx] at h
    exact begins_of_peekRest h (.inr (List.findIdx?_eq_none_iff.mp hidx))
  | some idx =>
    rw [hidx] at h
    dsimp only at h
    split at h
    · cases hothers : U.type.checkOthers (s.asSlice.take idx) with
      | some e =>
        rw [hothers] at h
        exact absurd h (by simp)
      | none =>
        rw [hothers] at h
        exact ⟨idx, (Scan.lt_length_of_findIdx? hidx).le, (Except.ok.inj h).symm, hothers,
          .inr hidx⟩
    · exact absurd h (by simp)

/-- The window is within the string. -/
def InBounds (s : Splitter) : Prop :=
  s.range.start ≤ s.range.stop ∧ s.range.stop ≤ s.str.value.length

theorem InBounds.length_asSlice {s : Splitter} (h : s.InBounds) : s.asSlice.length = s.range.len := by
  rw [asSlice, Range.constrain, List.length_drop, List.length_take, Nat.min_eq_left h.2]
  rfl

theorem asSlice_new (kind : Kind) (str : Bytes) : (new kind str).asSlice = str.value := by
  change (str.value.take str.value.length).drop 0 = str.value
  rw [List.take_length, List.drop_zero]

/-- What is left in the window of the guard. -/
theorem asSlice_untilCount (s : Splitter) (n : ℕ) :
    ((s.save false true).untilCount n).asSlice = s.asSlice.take n := by
  change (s.str.value.take (s.range.start + min n (s.range.stop - s.range.start))).drop
    s.range.start = ((s.str.value.take s.range.stop).drop s.range.start).take n
  rw [List.take_drop, List.take_take]
  rcases Nat.le_total s.range.start s.range.stop with hle | hle
  · rw [show s.range.start + min n (s.range.stop - s.range.start) =
      min (s.range.start + n) s.range.stop by omega]
  · have hnil : ∀ m ≤ s.range.start, (s.str.value.take m).drop s.range.start = [] := fun m hm =>
      List.drop_eq_nil_of_le ((List.length_take_le _ _).trans hm)
    rw [hnil _ (by omega), hnil _ (by omega)]

/-- What is left of the splitter when the guard is dropped. -/
theorem asSlice_drop (s : Splitter) (n k : ℕ) :
    (((s.save false true).untilCount n).advance k).drop.asSlice = s.asSlice.drop k := by
  change (s.str.value.take s.range.stop).drop (s.range.start + k) =
    ((s.str.value.take s.range.stop).drop s.range.start).drop k
  rw [List.drop_drop]

/-- The window is still within the string then. -/
theorem InBounds.drop {s : Splitter} (h : s.InBounds) (n : ℕ) {k : ℕ} (hk : k ≤ s.asSlice.length) :
    (((s.save false true).untilCount n).advance k).drop.InBounds := by
  refine ⟨?_, h.2⟩
  change s.range.start + k ≤ s.range.stop
  have hle := h.1
  rw [h.length_asSlice, Range.len] at hk
  omega

end Splitter

namespace Extraction

variable {e : Extraction} {s s' : Splitter} {b : Bytes}

/-- **What an extraction returns**: the rest can only be had as a kind that is at least as wide. -/
theorem begins_of_peek (h : e.peek s = .ok b) :
    s.Begins e.kind (e.allowed s = true → s.kind.into e.kind = true) b := by
  cases e with
  | peekString U requireRest => exact Splitter.begins_of_peekString h
  | string U requireRest => exact Splitter.begins_of_peekString h
  | stringOrDefault U requireRest => exact Splitter.begins_of_peekString h
  | peekRest U => exact Splitter.begins_of_peekRest h (.inl id)
  | rest U => exact Splitter.begins_of_peekRest h (.inl id)
  | restOrDefault U =>
    exact Splitter.begins_of_peekRest h (.inl fun hallowed => (Bool.and_eq_true_iff.mp hallowed).1)

/-- The kinds for which a default can take the place of an error have one. -/
theorem hasDefault_of_orDefault (hallowed : e.allowed s = true) (hdefault : e.orDefault = true) :
    e.kind.hasDefault = true := by
  cases e with
  | stringOrDefault U requireRest => exact hallowed
  | restOrDefault U => exact (Bool.and_eq_true_iff.mp hallowed).2
  | _ => exact absurd hdefault (by simp [orDefault])

/-- **An extraction, with the splitter after it**: what was extracted, or the default. -/
theorem run_eq_some (h : e.run s = some (b, s')) :
    e.allowed s = true ∧
      (e.peek s = .ok b ∧ (s' = s ∨ s' = s.advance b.value.length) ∨
        b = .default ∧ e.kind.hasDefault = true ∧ s' = s) := by
  unfold run at h
  obtain ⟨hallowed, h⟩ := Option.ite_none_right_eq_some.mp h
  refine ⟨hallowed, ?_⟩
  cases hpeek : e.peek s with
  | error err =>
    rw [hpeek] at h
    obtain ⟨hdefault, h⟩ := Option.ite_none_right_eq_some.mp h
    obtain ⟨rfl, rfl⟩ := Prod.mk.inj (Option.some.inj h)
    exact .inr ⟨rfl, hasDefault_of_orDefault hallowed hdefault, rfl⟩
  | ok b' =>
    rw [hpeek] at h
    obtain ⟨rfl, rfl⟩ := Prod.mk.inj (Option.some.inj h)
    refine .inl ⟨rfl, ?_⟩
    split
    · exact .inr rfl
    · exact .inl rfl

theorem sameString_run (h : e.run s = some (b, s')) : s'.SameString s := by
  obtain ⟨-, ⟨-, rfl | rfl⟩ | ⟨-, -, rfl⟩⟩ := run_eq_some h
  · exact ⟨rfl, rfl⟩
  · exact ⟨rfl, rfl⟩
  · exact ⟨rfl, rfl⟩

end Extraction

end Flagged

end Vinezombie
