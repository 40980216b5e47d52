import Vinezombie.Library.Bracket
import Vinezombie.Strings.Invariants
import Vinezombie.Strings.Secrecy
import Vinezombie.Strings.SplitterEncoding

/-!
# Runs of a splitter

A splitter, and the guards on it, after any calls of their methods.  Every method but the drop of a
guard makes the window smaller or leaves it, and a guard has the window from which it was made; so
the window never leaves the string, and neither does one that a guard restores.  What a splitter
knows about the encoding plays no part in this.

* `Splitter.Narrows`, `SplitterCall.narrows`: what one call does to the window.
* `Splitter.Bounded`: what every call keeps.
* `Splitter.calls_bounded`: a splitter after any calls, and the drop of a guard after them.
* `Splitter.rest_eq_string`: the extraction that checks no single bytes is the one that does.
-/

namespace Vinezombie

open Library Library.Bracket

namespace Flagged

/-! ## The calls -/

/-- `&slice[start..end]`, which panics where the ends are out of order or behind the slice. -/
def Range.index (r : Range) (slice : List UInt8) : Option (List UInt8) :=
  if r.start ≤ r.stop ∧ r.stop ≤ slice.length then some (r.constrain slice) else none

namespace Splitter

variable (s : Splitter) (U : Kind) (requireRest : Bool)

/-- `string`. -/
def string : Except InvalidString Bytes × Splitter :=
  match s.peekString U requireRest with
  | .ok next => (.ok next, s.advance next.value.length)
  | .error e => (.error e, s)

/-- `rest`. -/
def rest : Except InvalidString Bytes × Splitter :=
  match s.peekRest U with
  | .ok rest => (.ok rest, s.advance rest.value.length)
  | .error e => (.error e, s)

end Splitter

namespace SplitterCall

/-- The splitter after some calls. -/
def applyAll (calls : List SplitterCall) (s : Splitter) : Splitter :=
  calls.foldl (fun s call => call.apply s) s

end SplitterCall

namespace Splitter

variable {s s' : Splitter} {U : Kind} {b : Bytes}

/-- What `string` returns, as an extraction. -/
theorem run_string (s : Splitter) (U : Kind) (requireRest : Bool) :
    (Extraction.string U requireRest).run s =
      (s.string U requireRest).1.toOption.map fun b => (b, (s.string U requireRest).2) := by
  have hallowed : Extraction.allowed s (.string U requireRest) = true := rfl
  unfold Extraction.run string
  rw [if_pos hallowed]
  cases hpeek : s.peekString U requireRest with
  | ok b => simp [Extraction.peek, Extraction.consumes, hpeek, Except.toOption]
  | error e => simp [Extraction.peek, Extraction.orDefault, hpeek, Except.toOption]

/-- What `rest` returns, as an extraction, for the kinds that it can be called for. -/
theorem run_rest (h : s.kind.into U = true) :
    (Extraction.rest U).run s =
      (s.rest U).1.toOption.map fun b => (b, (s.rest U).2) := by
  have hallowed : Extraction.allowed s (.rest U) = true := h
  unfold Extraction.run rest
  rw [if_pos hallowed]
  cases hpeek : s.peekRest U with
  | ok b => simp [Extraction.peek, Extraction.consumes, hpeek, Except.toOption]
  | error e => simp [Extraction.peek, Extraction.orDefault, hpeek, Except.toOption]

/-! ## The window -/

/-- A splitter with a window inside that of another one, on the same string and with the same
guards. -/
structure Narrows (s' s : Splitter) : Prop where
  str : s'.str = s.str
  guards : s'.guards = s.guards
  ordered : s'.range.start ≤ s'.range.stop
  within : s'.range.Within s.range

theorem Narrows.refl (h : s.InBounds) : s.Narrows s :=
  ⟨rfl, rfl, h.1, Nat.le_refl _, Nat.le_refl _⟩

/-- The start is moved to the right, by no more than there are bytes. -/
theorem InBounds.narrows_start (h : s.InBounds) {n : ℕ} (hn : n ≤ s.asSlice.length) (e : Encoding) :
    ({ s with range := ⟨s.range.start + n, s.range.stop, e⟩ } : Splitter).Narrows s := by
  rw [h.length_asSlice, Range.len] at hn
  have hle := h.1
  exact ⟨rfl, rfl, show s.range.start + n ≤ s.range.stop by omega, Nat.le_add_right _ _,
    Nat.le_refl _⟩

/-- The end is moved to a place behind the start, with no more bytes before it than there are. -/
theorem InBounds.narrows_stop (h : s.InBounds) {n : ℕ} (hn : n ≤ s.asSlice.length) (e : Encoding) :
    ({ s with range := ⟨s.range.start, s.range.start + n, e⟩ } : Splitter).Narrows s := by
  rw [h.length_asSlice, Range.len] at hn
  have hle := h.1
  exact ⟨rfl, rfl, Nat.le_add_right _ _, Nat.le_refl _,
    show s.range.start + n ≤ s.range.stop by omega⟩

theorem InBounds.narrows_consume (h : s.InBounds) (count : ℕ) :
    ({ s with range := s.range.consume count } : Splitter).Narrows s :=
  h.narrows_stop (by rw [h.length_asSlice]; exact Nat.min_le_right _ _) _

theorem InBounds.narrows_nextByte (h : s.InBounds) : s.nextByte.Narrows s := by
  unfold nextByte
  cases hhead : s.asSlice.head? with
  | none => exact .refl h
  | some b =>
    have hpos : 1 ≤ s.asSlice.length :=
      List.length_pos_iff.mpr fun hnil => by simp [hnil] at hhead
    exact h.narrows_start hpos _

theorem InBounds.narrows_rnextByte (h : s.InBounds) : s.rnextByte.Narrows s := by
  unfold rnextByte
  cases hlast : s.asSlice.getLast? with
  | none => exact .refl h
  | some b =>
    have hpos : 1 ≤ s.asSlice.length :=
      List.length_pos_iff.mpr fun hnil => by simp [hnil] at hlast
    rw [h.length_asSlice, Range.len] at hpos
    exact ⟨rfl, rfl, show s.range.start ≤ s.range.stop - 1 by omega, Nat.le_refl _,
      Nat.sub_le _ _⟩

theorem InBounds.narrows_consumeWhile (h : s.InBounds) (f : UInt8 → Bool) :
    (s.consumeWhile f).Narrows s := by
  unfold consumeWhile
  cases hidx : s.asSlice.findIdx? fun b => !f b with
  | some idx => exact h.narrows_start (Scan.lt_length_of_findIdx? hidx).le _
  | none => exact ⟨rfl, rfl, Nat.le_refl _, h.1, Nat.le_refl _⟩

theorem InBounds.narrows_untilByte (h : s.InBounds) (f : List UInt8 → UInt8 → Bool) :
    (s.untilByte f).Narrows s := by
  unfold untilByte
  split
  · exact h.narrows_consume _
  · exact .refl h

theorem InBounds.narrows_untilByteEq (h : s.InBounds) (b : UInt8) :
    (s.untilByteEq b).Narrows s := by
  unfold untilByteEq
  cases hidx : s.asSlice.findIdx? (· == b) with
  | some idx => exact h.narrows_stop (Scan.lt_length_of_findIdx? hidx).le _
  | none => exact .refl h

theorem InBounds.narrows_checkEncoding (h : s.InBounds) : s.checkEncoding.Narrows s := by
  have hset : ∀ e : Encoding, ({ s with range.encoding := e } : Splitter).Narrows s := fun e =>
    ⟨rfl, rfl, h.1, Nat.le_refl _, Nat.le_refl _⟩
  unfold checkEncoding
  split
  · split
    · split
      · exact hset .utf8
      · exact .refl h
    · exact hset .ascii
  · exact .refl h

/-- **A string that is extracted** is what the window begins with, and the splitter moves past it
or stays. -/
theorem InBounds.narrows_run (h : s.InBounds) {e : Extraction} (hrun : e.run s = some (b, s')) :
    s'.Narrows s := by
  obtain ⟨-, ⟨hpeek, rfl | rfl⟩ | ⟨-, -, rfl⟩⟩ := Extraction.run_eq_some hrun
  · exact .refl h
  · obtain ⟨n, hn, rfl, -⟩ := Extraction.begins_of_peek hpeek
    refine h.narrows_start ?_ _
    change (s.asSlice.take n).length ≤ s.asSlice.length
    exact (List.take_sublist _ _).length_le
  · exact .refl h

end Splitter

namespace SplitterCall

/-- The calls that make no guard, drop none and leave none behind. -/
def Plain : SplitterCall → Prop
  | .op (.save _ _) => False
  | .op .drop => False
  | .op .clone => False
  | _ => True

/-- The call makes a guard. -/
def Opens (call : SplitterCall) : Prop := ∃ start stop, call = .op (.save start stop)

/-- The call drops a guard. -/
def Closes (call : SplitterCall) : Prop := call = .op .drop

variable {s : Splitter}

/-- **A plain call** makes the window smaller, or leaves it as it is. -/
theorem narrows (h : s.InBounds) {call : SplitterCall} (hplain : call.Plain) :
    (call.apply s).Narrows s := by
  cases call with
  | op o =>
    cases o with
    | nextByte => exact h.narrows_nextByte
    | rnextByte => exact h.narrows_rnextByte
    | consumeInvalid U => exact h.narrows_consumeWhile _
    | consumeWhitespace => exact h.narrows_consumeWhile _
    | untilByte f => exact h.narrows_untilByte f
    | untilByteEq b => exact h.narrows_untilByteEq b
    | untilCount len => exact h.narrows_consume len
    | checkEncoding => exact h.narrows_checkEncoding
    | save start stop => exact hplain.elim
    | drop => exact hplain.elim
    | clone => exact hplain.elim
  | extraction e =>
    unfold SplitterCall.apply
    dsimp only
    cases hrun : e.run s with
    | none => exact .refl h
    | some r => exact h.narrows_run hrun

end SplitterCall

/-! ## What every call keeps -/

namespace Splitter

variable {s s' : Splitter} {U : Kind}

/-- **The window is within the string**, and so are those that the guards restore, each of which has
the next one around it. -/
structure Bounded (s : Splitter) : Prop where
  window : s.InBounds
  guards : ∀ g ∈ s.guards, g.saved.stop ≤ s.str.value.length
  nested : Nested s.range s.guards

theorem bounded_new (kind : Kind) (str : Bytes) : (new kind str).Bounded :=
  ⟨⟨Nat.zero_le _, Nat.le_refl _⟩, by simp [new], trivial⟩

theorem Bounded.narrows (h : s.Bounded) (hs' : s'.Narrows s) : s'.Bounded where
  window := ⟨hs'.ordered, by rw [hs'.str]; exact hs'.within.2.trans h.window.2⟩
  guards := by rw [hs'.guards, hs'.str]; exact h.guards
  nested := by rw [hs'.guards]; exact h.nested.within hs'.within

theorem Bounded.save (h : s.Bounded) (start stop : Bool) : (s.save start stop).Bounded where
  window := h.window
  guards := by
    rintro g (_ | ⟨_, hg⟩)
    · exact h.window.2
    · exact h.guards g hg
  nested := ⟨⟨Nat.le_refl _, Nat.le_refl _⟩, h.nested⟩

theorem Bounded.drop (h : s.Bounded) : s.drop.Bounded := by
  unfold Splitter.drop
  cases hguards : s.guards with
  | nil => exact h
  | cons g guards =>
    have hnested := h.nested
    rw [hguards] at hnested
    obtain ⟨hle, hwithin⟩ := hnested.1.restore h.window.1 g.start g.stop
    have hsaved := h.guards g (by rw [hguards]; exact List.mem_cons_self)
    exact ⟨⟨hle, hwithin.2.trans hsaved⟩,
      fun g' hg' => h.guards g' (by rw [hguards]; exact List.mem_cons_of_mem _ hg'),
      hnested.2.within hwithin⟩

theorem Bounded.clone (h : s.Bounded) : s.clone.Bounded :=
  ⟨h.window, by simp [Splitter.clone], trivial⟩

/-- **Any call.** -/
theorem Bounded.apply (h : s.Bounded) (call : SplitterCall) : (call.apply s).Bounded := by
  cases call with
  | op o =>
    cases o with
    | save start stop => exact h.save start stop
    | drop => exact h.drop
    | clone => exact h.clone
    | nextByte | rnextByte | consumeInvalid | consumeWhitespace | untilByte | untilByteEq
    | untilCount | checkEncoding => exact h.narrows (SplitterCall.narrows h.window trivial)
  | extraction e => exact h.narrows (SplitterCall.narrows h.window trivial)

end Splitter

/-- What the calls do with the guards that are in force. -/
theorem SplitterCall.stacks :
    Bracket.Stacks (fun s call => SplitterCall.apply call s) Splitter.guards Splitter.Bounded
      SplitterCall.Plain SplitterCall.Opens SplitterCall.Closes where
  keeps s call h := h.apply call
  plain s call h hplain := (SplitterCall.narrows h.window hplain).guards
  opens s call hopens := by
    obtain ⟨start, stop, rfl⟩ := hopens
    exact ⟨_, rfl⟩
  closes s call g rest hcloses hstack := by
    subst hcloses
    change s.drop.guards = rest
    unfold Splitter.drop
    rw [hstack]

namespace Splitter

variable {s : Splitter} {U : Kind}

/-- What an extraction does: the string is what is between the old start and the new one, and the
rest of the splitter is as it was; an extraction that fails leaves the splitter as it is. -/
def Extracts (s : Splitter) : Except InvalidString Bytes × Splitter → Prop
  | (.ok b, s') =>
    b.value = (s.str.value.take s'.range.start).drop s.range.start ∧
      s' = { s with range.start := s'.range.start }
  | (.error _, s') => s' = s

/-- **A beginning of the window** is what is between the two starts. -/
theorem InBounds.extracts (h : s.InBounds) {n : ℕ} (hn : n ≤ s.asSlice.length) :
    s.Extracts (.ok (s.extract (s.asSlice.take n)),
      s.advance (s.extract (s.asSlice.take n)).value.length) := by
  have hlen : (s.extract (s.asSlice.take n)).value.length = n :=
    List.length_take_of_le hn
  rw [h.length_asSlice, Range.len] at hn
  have hle := h.1
  rw [hlen]
  refine ⟨?_, rfl⟩
  change ((s.str.value.take s.range.stop).drop s.range.start).take n =
    (s.str.value.take (s.range.start + n)).drop s.range.start
  rw [List.take_drop, List.take_take, Nat.min_eq_left (by omega)]

theorem InBounds.extracts_string (h : s.InBounds) (U : Kind) (requireRest : Bool) :
    s.Extracts (s.string U requireRest) := by
  unfold string
  cases hpeek : s.peekString U requireRest with
  | error e => rfl
  | ok b =>
    have hbegins : s.Begins U True b := begins_of_peekString hpeek
    obtain ⟨n, hn, rfl, -⟩ := hbegins
    exact h.extracts hn

theorem InBounds.extracts_rest (h : s.InBounds) (U : Kind) : s.Extracts (s.rest U) := by
  unfold rest
  cases hpeek : s.peekRest U with
  | error e => rfl
  | ok b =>
    have hbegins : s.Begins U True b := begins_of_peekRest hpeek (.inl trivial)
    obtain ⟨n, hn, rfl, -⟩ := hbegins
    exact h.extracts hn

/-- The splitter after a guard was made and dropped, with calls in between. -/
def guarded (s : Splitter) (start stop : Bool) (inner : List SplitterCall) : Splitter :=
  (SplitterCall.applyAll inner (s.save start stop)).drop

/-- **A guard is dropped** after calls between which other guards were made and dropped: each end
that it was to restore is where it was, and the other one where the calls left it. -/
theorem Bounded.guarded (h : s.Bounded) (start stop : Bool) {inner : List SplitterCall}
    (hinner : Balanced SplitterCall.Plain SplitterCall.Opens SplitterCall.Closes inner) :
    (s.guarded start stop inner).guards = s.guards ∧
      (s.guarded start stop inner).range =
        (SplitterCall.applyAll inner (s.save start stop)).range.restore s.range start stop := by
  have hstack := hinner.foldl_stack SplitterCall.stacks (h.save start stop)
  have hguards : (SplitterCall.applyAll inner (s.save start stop)).guards =
      ⟨s.range, start, stop⟩ :: s.guards := hstack
  unfold Splitter.guarded Splitter.drop
  rw [hguards]
  exact ⟨rfl, rfl⟩

/-- **No call** changes the string and the kind. -/
theorem sameString_call (call : SplitterCall) (s : Splitter) : (call.apply s).SameString s := by
  cases call with
  | op o => exact sameString_apply o s
  | extraction e =>
    unfold SplitterCall.apply
    dsimp only
    cases hrun : e.run s with
    | none => exact ⟨rfl, rfl⟩
    | some r => exact Extraction.sameString_run hrun

theorem sameString_applyAll (calls : List SplitterCall) (s : Splitter) :
    (SplitterCall.applyAll calls s).SameString s := by
  induction calls generalizing s with
  | nil => exact ⟨rfl, rfl⟩
  | cons call calls ih =>
    obtain ⟨hstr, hkind⟩ := ih (call.apply s)
    obtain ⟨hstr', hkind'⟩ := sameString_call call s
    exact ⟨hstr.trans hstr', hkind.trans hkind'⟩

/-- **A splitter after any calls**: its window is within the string, so that the string can be
sliced there; what is extracted is between the old start and the new one, or nothing is changed; and
a guard restores the ends that it was made for, and no others, whatever is done in between. -/
theorem calls_bounded (kind : Kind) (str : Bytes) (calls : List SplitterCall) :
    let s := SplitterCall.applyAll calls (new kind str)
    s.str = str ∧ s.range.start ≤ s.range.stop ∧ s.range.stop ≤ str.value.length ∧
      s.range.index str.value = some s.asSlice ∧
      (∀ U requireRest, s.Extracts (s.string U requireRest)) ∧ (∀ U, s.Extracts (s.rest U)) ∧
      ∀ start stop inner,
        Balanced SplitterCall.Plain SplitterCall.Opens SplitterCall.Closes inner →
        let s₁ := SplitterCall.applyAll inner (s.save start stop)
        (s.guarded start stop inner).guards = s.guards ∧
          (s.guarded start stop inner).range.start =
            (if start then s.range.start else s₁.range.start) ∧
          (s.guarded start stop inner).range.stop =
            (if stop then s.range.stop else s₁.range.stop) := by
  intro s
  have hs : s.Bounded := SplitterCall.stacks.foldl_inv calls (bounded_new kind str)
  have hstr : s.str = str := (sameString_applyAll calls (new kind str)).1
  have hstop : s.range.stop ≤ str.value.length := hstr ▸ hs.window.2
  refine ⟨hstr, hs.window.1, hstop, ?_, hs.window.extracts_string, hs.window.extracts_rest, ?_⟩
  · rw [Range.index, if_pos ⟨hs.window.1, hstop⟩, asSlice, hstr]
  · intro start stop inner hinner s₁
    obtain ⟨hguards, hrange⟩ := hs.guarded start stop hinner
    exact ⟨hguards, congrArg Range.start hrange, congrArg Range.stop hrange⟩

/-! ## The rest without a scan -/

/-- **No byte of the window is invalid** for a kind that is at least as wide, so there is nothing
that the scan could find. -/
theorem Admissible.peekRest_eq (h : s.Admissible) (hinto : s.kind.into U = true) :
    s.peekRest U = s.peekString U true := by
  have hnone : s.asSlice.findIdx? U.type.isInvalid = none :=
    List.findIdx?_eq_none_iff.mpr fun b hb =>
      Kind.isInvalid_of_into hinto b (h b (mem_of_mem_asSlice hb))
  rw [peekString, hnone]
  rfl

/-- **The rest of a splitter**, after any calls, as a kind that its own one is converted to: without
the scan of the bytes it is the same string or the same error, and it leaves the same splitter. -/
theorem rest_eq_string {T U : Kind} (hinto : T.into U = true) {str : Bytes}
    (hstr : T.Admits str.value) (calls : List SplitterCall) :
    let s := SplitterCall.applyAll calls (new T str)
    s.peekRest U = s.peekString U true ∧ s.rest U = s.string U true := by
  intro s
  have hsame := sameString_applyAll calls (new T str)
  have hnew : (new T str).Admissible := (Kind.admits_iff.mp hstr).2
  have hkind : s.kind = T := hsame.2
  have hpeek : s.peekRest U = s.peekString U true :=
    (hnew.sameString hsame).peekRest_eq (by rw [hkind]; exact hinto)
  refine ⟨hpeek, ?_⟩
  rw [rest, string, hpeek]

/-- An `Arg` of which the first byte was taken: what is left begins with a colon, and is no `Arg`
with or without the scan. -/
theorem rest_eq_string_arg :
    Kind.into .arg .arg = true ∧ Kind.arg.Admits (text "a:b") ∧
      ((SplitterCall.applyAll [.op .nextByte] (new .arg (.fromBytes (text "a:b")))).rest .arg =
        (SplitterCall.applyAll [.op .nextByte] (new .arg (.fromBytes (text "a:b")))).string .arg
          true) ∧
      ((SplitterCall.applyAll [.op .nextByte] (new .arg (.fromBytes (text "a:b")))).rest .arg).1 =
        .error .colon := by
  have hadmits : Kind.arg.Admits (Bytes.fromBytes (text "a:b")).value :=
    show Kind.arg.type.findInvalid (text "a:b") = none by decide
  exact ⟨rfl, hadmits, (rest_eq_string rfl hadmits [.op .nextByte]).2, rfl⟩

end Splitter

end Flagged

end Vinezombie
