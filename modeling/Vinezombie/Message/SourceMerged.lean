import Vinezombie.Message.Source
import Vinezombie.Strings.Invariants

/-!
# Sources that share one buffer

`Source::owning_merged` with all that its strings keep: the builder that concatenates nick, user and
host knows whether they are UTF-8, and each of the three parts is cut off the concatenation again
with a guard of the splitter, and checked once more for its kind.

`Message.Source` has the same function for strings without their flags, which is what the handlers
are given.

* `TypedStr`: a string that belongs to its kind.
* `cut_spec`: one part.
* `Source.map_plain_ownMerged`: without the flags, the copy is that of `Message.Source`.
* `Source.ownMerged_recovers`: every part is got back, and owns its data.
-/

namespace Vinezombie.Flagged

/-! ## The copy -/

/-- A string with its flags that belongs to its kind. -/
structure TypedStr (k : Kind) where
  bytes : Bytes
  valid : k.Admits bytes.value

/-- `UserHost`. -/
structure UserHost where
  user : Option (TypedStr .user)
  host : TypedStr .word

/-- `Source`. -/
structure Source where
  nick : TypedStr .nick
  userhost : Option UserHost

/-- What `peek_string` returns belongs to the kind that was asked for. -/
theorem Splitter.admits_of_peekString {s : Splitter} {U : Kind} {requireRest : Bool} {b : Bytes}
    (h : s.peekString U requireRest = .ok b) : U.Admits b.value := by
  have hbegins : s.Begins U False b := Splitter.begins_of_peekString h
  obtain ⟨n, -, rfl, hothers, hend⟩ := hbegins
  refine Kind.admits_iff.mpr ⟨hothers, fun c hc => ?_⟩
  rcases hend with ⟨-, hfalse | hall⟩ | hidx
  · exact hfalse.elim
  · exact hall c (List.mem_of_mem_take hc)
  · have hbefore : c ∈ s.asSlice.takeWhile fun c => !U.type.isInvalid c := by
      rw [← Library.Scan.take_eq_takeWhile_of_findIdx? hidx]
      exact hc
    simpa using List.mem_takeWhile_imp hbefore

/-- `splitter.save_end().until_count(count).string(true)`, with the splitter after it. -/
def cut (U : Kind) (count : ℕ) (s : Splitter) : Except InvalidString (TypedStr U) × Splitter :=
  let guard := (s.save false true).untilCount count
  match h : guard.peekString U true with
  | .error e => (.error e, guard.drop)
  | .ok b => (.ok ⟨b, Splitter.admits_of_peekString h⟩, (guard.advance b.value.length).drop)

namespace Source

/-- `concat`. -/
def concat (s : Source) : Builder :=
  let concat := Builder.new .word s.nick.bytes
  match s.userhost with
  | none => concat
  | some uh =>
    let concat :=
      match uh.user with
      | none => concat
      | some u => concat.append u.bytes
    concat.append uh.host.bytes

/-- `owning_merged`.  The error is the one that `unwrap` would panic with. -/
def ownMerged (s : Source) : Except InvalidString Source :=
  let splitter := Splitter.new .word s.concat.build
  match cut .nick s.nick.bytes.value.length splitter with
  | (.error e, _) => .error e
  | (.ok nick, splitter) =>
    match s.userhost with
    | none => .ok ⟨nick, none⟩
    | some uh =>
      match uh.user with
      | none =>
        match cut .word uh.host.bytes.value.length splitter with
        | (.error e, _) => .error e
        | (.ok host, _) => .ok ⟨nick, some ⟨none, host⟩⟩
      | some u =>
        match cut .user u.bytes.value.length splitter with
        | (.error e, _) => .error e
        | (.ok user, splitter) =>
          match cut .word uh.host.bytes.value.length splitter with
          | (.error e, _) => .error e
          | (.ok host, _) => .ok ⟨nick, some ⟨some user, host⟩⟩

/-- The source that is compared: sources are equal if their bytes are. -/
def plain (s : Source) : Vinezombie.Source where
  nick := ⟨s.nick.bytes.value, s.nick.valid⟩
  userhost := s.userhost.map fun uh =>
    { user := uh.user.map fun u => ⟨u.bytes.value, u.valid⟩
      host := ⟨uh.host.bytes.value, uh.host.valid⟩ }

/-- The strings of a source. -/
def strings (s : Source) : List Bytes :=
  s.nick.bytes :: (s.userhost.toList.flatMap fun uh =>
    (uh.user.toList.map TypedStr.bytes) ++ [uh.host.bytes])

end Source

/-- A string that does not borrow. -/
def Owned (b : Bytes) : Prop := b.isOwning = true ∨ b.value = []

/-- **One part** of a string that is owned, with the splitter after it. -/
theorem cut_spec {U : Kind} {s : Splitter} (hs : s.InBounds) (hown : s.str.isOwning = true)
    (w : TypedStr U) (rest : List UInt8) (h : s.asSlice = w.bytes.value ++ rest) :
    ∃ w' s', cut U w.bytes.value.length s = (.ok w', s') ∧ w'.bytes.value = w.bytes.value ∧
      Owned w'.bytes ∧ s'.InBounds ∧ s'.str = s.str ∧ s'.asSlice = rest := by
  have hslice : ((s.save false true).untilCount w.bytes.value.length).asSlice = w.bytes.value := by
    rw [Splitter.asSlice_untilCount, h, List.take_left]
  obtain ⟨hothers, hall⟩ := Kind.admits_iff.mp w.valid
  have hpeek : ((s.save false true).untilCount w.bytes.value.length).peekString U true =
      .ok (((s.save false true).untilCount w.bytes.value.length).extract w.bytes.value) := by
    have hidx : w.bytes.value.findIdx? U.type.isInvalid = none := List.findIdx?_eq_none_iff.mpr hall
    rw [Splitter.peekString, hslice, hidx]
    dsimp only
    rw [hothers]
  unfold cut
  dsimp only
  split
  · rename_i e herror
    rw [hpeek] at herror
    exact absurd herror (by simp)
  · rename_i b hok
    obtain rfl := Except.ok.inj (hpeek.symm.trans hok)
    refine ⟨_, _, rfl, rfl, ?_, ?_, rfl, ?_⟩
    · by_cases hnil : w.bytes.value = []
      · exact .inr hnil
      · refine .inl ?_
        change (if w.bytes.value.isEmpty then false else s.str.isOwning) = true
        rw [if_neg (by simpa using hnil), hown]
    · refine hs.drop _ ?_
      change w.bytes.value.length ≤ s.asSlice.length
      rw [h, List.length_append]
      exact Nat.le_add_right _ _
    · rw [Splitter.asSlice_drop, h]
      exact List.drop_left

namespace Source

/-- What the builder has collected. -/
theorem bytes_concat (s : Source) : s.concat.bytes = s.plain.concat := by
  obtain ⟨nick, userhost⟩ := s
  cases userhost with
  | none => exact (List.append_nil _).symm
  | some uh =>
    obtain ⟨user, host⟩ := uh
    cases user with
    | none => rfl
    | some u => exact List.append_assoc _ _ _

/-- The concatenation is not empty, so it is owned. -/
theorem isOwning_build_concat (s : Source) : s.concat.build.isOwning = true := by
  obtain ⟨b, rest, hnick, -⟩ := s.plain.nick.exists_eq_cons rfl
  have hbytes : s.concat.bytes = b :: (rest ++ s.plain.concat.drop s.plain.nick.bytes.length) := by
    rw [bytes_concat, ← List.cons_append, ← hnick, Vinezombie.Source.concat, List.drop_left]
  rw [Builder.build]
  split
  · rw [hbytes]
    rfl
  · rw [hbytes]
    rfl

/-- What the copy is, and that it owns its data. -/
theorem ownMerged_spec (s : Source) :
    ∃ s', s.ownMerged = .ok s' ∧ s'.plain = s.plain ∧ ∀ b ∈ s'.strings, Owned b := by
  have hinb : (Splitter.new .word s.concat.build).InBounds := ⟨Nat.zero_le _, Nat.le_refl _⟩
  have hall : (Splitter.new .word s.concat.build).asSlice = s.plain.concat := by
    rw [Splitter.asSlice_new, Builder.value_build, bytes_concat]
  have hown := s.isOwning_build_concat
  obtain ⟨nick, userhost⟩ := s
  obtain ⟨nick', s₁, hcut₁, hnick, hown₁, hinb₁, hstr₁, hrest₁⟩ := cut_spec hinb hown nick _ hall
  have hown' : s₁.str.isOwning = true := by rw [hstr₁]; exact hown
  simp only [ownMerged, hcut₁]
  cases userhost with
  | none =>
    have heq : plain ⟨nick', none⟩ = plain ⟨nick, none⟩ :=
      Vinezombie.Source.ext (Str.ext hnick) rfl
    refine ⟨⟨nick', none⟩, rfl, heq, ?_⟩
    intro b hb
    rwa [List.mem_singleton.mp hb]
  | some uh =>
    obtain ⟨user, host⟩ := uh
    cases user with
    | none =>
      obtain ⟨host', s₂, hcut₂, hhost, hown₂, -⟩ := cut_spec hinb₁ hown' host []
        (hrest₁.trans (List.append_nil _).symm)
      simp only [hcut₂]
      have heq : plain ⟨nick', some ⟨none, host'⟩⟩ = plain ⟨nick, some ⟨none, host⟩⟩ :=
        Vinezombie.Source.ext (Str.ext hnick) (congrArg some
          (Vinezombie.UserHost.ext rfl (Str.ext hhost)))
      refine ⟨_, rfl, heq, ?_⟩
      intro b hb
      rcases List.mem_pair.mp hb with rfl | rfl
      · exact hown₁
      · exact hown₂
    | some u =>
      obtain ⟨u', s₂, hcut₂, huser, hown₂, hinb₂, hstr₂, hrest₂⟩ :=
        cut_spec hinb₁ hown' u host.bytes.value hrest₁
      obtain ⟨host', s₃, hcut₃, hhost, hown₃, -⟩ := cut_spec hinb₂ (by rw [hstr₂]; exact hown') host
        [] (hrest₂.trans (List.append_nil _).symm)
      simp only [hcut₂, hcut₃]
      have heq : plain ⟨nick', some ⟨some u', host'⟩⟩ = plain ⟨nick, some ⟨some u, host⟩⟩ :=
        Vinezombie.Source.ext (Str.ext hnick) (congrArg some
          (Vinezombie.UserHost.ext (congrArg some (Str.ext huser)) (Str.ext hhost)))
      refine ⟨_, rfl, heq, ?_⟩
      intro b hb
      rcases List.mem_cons.mp hb with rfl | hb
      · exact hown₁
      · rcases List.mem_pair.mp hb with rfl | rfl
        · exact hown₂
        · exact hown₃

/-- **Without the flags** this is the copy of `Message.Source`. -/
theorem map_plain_ownMerged (s : Source) : s.ownMerged.map plain = s.plain.ownMerged := by
  obtain ⟨s', hs', hplain, -⟩ := s.ownMerged_spec
  rw [hs', s.plain.ownMerged_eq, ← hplain]
  rfl

/-- **Every part is got back** from the concatenation, and owns its data; none of the `unwrap`s
panics. -/
theorem ownMerged_recovers (s : Source) :
    ∃ s', s.ownMerged = .ok s' ∧ s'.plain = s.plain ∧ s.plain.ownMerged = .ok s'.plain ∧
      ∀ b ∈ s'.strings, Owned b := by
  obtain ⟨s', hs', hplain, howned⟩ := s.ownMerged_spec
  refine ⟨s', hs', hplain, ?_, howned⟩
  rw [← s.map_plain_ownMerged, hs']
  rfl

end Source

end Vinezombie.Flagged
