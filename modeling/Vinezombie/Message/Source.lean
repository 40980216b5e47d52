import Vinezombie.Message.Kind
import Vinezombie.Strings.Splitter

/-!
# Message sources

`ircmsg/source.rs`: the sender of a message, `nick`, `nick@host` or `nick!user@host`.

* `parse_toWord`: a source whose host is not empty is read back from its text.
* `ownMerged_eq`: copying a source through one shared buffer gives the source.
-/

namespace Vinezombie

open Library.Scan

/-- `UserHost`. -/
@[ext] structure UserHost where
  user : Option User
  host : Word
  deriving DecidableEq

/-- `Source`. -/
@[ext] structure Source where
  nick : Nick
  userhost : Option UserHost
  deriving DecidableEq

/-! ## Parsing and writing -/

namespace UserHost

/-- `UserHost::parse`. -/
def parse (string : Word) : Except ParseError UserHost :=
  match (Splitter.new string).saveEnd fun s => (s.untilByteEq (byte '@')).string .user true with
  | (.error e, _) => .error (.invalidUser e)
  | (.ok user, splitter) =>
    let (_, splitter) := splitter.nextByte
    let (host, _) := splitter.restOrDefault .word
    if host.bytes.isEmpty then .error (.invalidHost .empty)
    else .ok ⟨some user, host⟩

/-- `UserHost::len`. -/
def len (uh : UserHost) : ℕ :=
  match uh.user with
  | some user => user.bytes.length + 1 + uh.host.bytes.length
  | none => uh.host.bytes.length

end UserHost

namespace Source

/-- The bytes that `write_to` writes. -/
def writeTo (s : Source) : List UInt8 :=
  match s.userhost with
  | some address =>
    s.nick.bytes ++
      (match address.user with
        | some user => text "!" ++ user.bytes
        | none => []) ++
      text "@" ++ address.host.bytes
  | none => s.nick.bytes

/-- `Source::len`. -/
def len (s : Source) : ℕ :=
  s.nick.bytes.length +
    match s.userhost with
    | some address => 1 + address.len
    | none => 0

/-- `Source::parse`. -/
def parse (word : Word) : Except ParseError Source :=
  match (Splitter.new word).string .nick false with
  | (.error e, _) => .error (.invalidNick e)
  | (.ok nick, word) =>
    match word.nextByte with
    | (none, _) => .ok ⟨nick, none⟩
    | (some b, word) =>
      if b = byte '!' then
        match UserHost.parse (word.restOrDefault .word).1 with
        | .error e => .error e
        | .ok userhost => .ok ⟨nick, some userhost⟩
      else if b = byte '@' then
        let (host, _) := word.restOrDefault .word
        if host.bytes.isEmpty then .error (.invalidHost .empty)
        else .ok ⟨nick, some ⟨none, host⟩⟩
      else .ok ⟨nick, none⟩

/-- The bytes of `Builder<Word>` after `nick`, `user` and `host` were appended. -/
def concat (s : Source) : List UInt8 :=
  s.nick.bytes ++
    match s.userhost with
    | some uh => (match uh.user with | some u => u.bytes | none => []) ++ uh.host.bytes
    | none => []

theorem concat_valid (s : Source) : StringType.word.findInvalid s.concat = none := by
  refine StringType.word.findInvalid_eq_none_iff.mpr ⟨rfl, fun b hb => ?_⟩
  rcases List.mem_append.mp hb with hb | hb
  · exact Str.Conv.byte_valid (T := .nick) b (s.nick.isInvalid_eq_false hb)
  · cases huh : s.userhost with
    | none =>
      rw [huh] at hb
      exact absurd hb (by simp)
    | some uh =>
      rw [huh] at hb
      rcases List.mem_append.mp hb with hb | hb
      · cases hu : uh.user with
        | none =>
          rw [hu] at hb
          exact absurd hb (by simp)
        | some u =>
          rw [hu] at hb
          exact Str.Conv.byte_valid (T := .user) b (u.isInvalid_eq_false hb)
      · exact uh.host.isInvalid_eq_false hb

/-- `splitter.save_end().until_count(count).string(true)`. -/
def cut (U : StringType) (count : ℕ) (s : Splitter .word) :
    Except InvalidString (Str U) × Splitter .word :=
  s.saveEnd fun s => (s.untilCount count).string U true

/-- `owning_merged`.  The error is the one that `unwrap` would panic with. -/
def ownMerged (s : Source) : Except InvalidString Source :=
  match cut .nick s.nick.bytes.length (Splitter.new ⟨s.concat, s.concat_valid⟩) with
  | (.error e, _) => .error e
  | (.ok nick, splitter) =>
    match s.userhost with
    | none => .ok ⟨nick, none⟩
    | some uh =>
      match uh.user with
      | none =>
        match cut .word uh.host.bytes.length splitter with
        | (.error e, _) => .error e
        | (.ok host, _) => .ok ⟨nick, some ⟨none, host⟩⟩
      | some u =>
        match cut .user u.bytes.length splitter with
        | (.error e, _) => .error e
        | (.ok user, splitter) =>
          match cut .word uh.host.bytes.length splitter with
          | (.error e, _) => .error e
          | (.ok host, _) => .ok ⟨nick, some ⟨some user, host⟩⟩

/-! ## The copy -/

/-- Cutting off a string of known length. -/
theorem cut_spec {U : StringType} {s : Splitter .word} (hs : s.Valid) (w : Str U)
    (rest : List UInt8) (h : s.asSlice = w.bytes ++ rest) :
    ∃ s', cut U w.bytes.length s = (.ok w, s') ∧ s'.Valid ∧ s'.asSlice = rest := by
  have hslice : (s.untilCount w.bytes.length).asSlice = w.bytes := by
    rw [Splitter.asSlice_untilCount hs, h, List.take_left]
  have hstring := Splitter.string_true_of_findInvalid_none
    (s := s.untilCount w.bytes.length) (U := U) (by rw [hslice]; exact w.valid)
  have hw : (⟨(s.untilCount w.bytes.length).asSlice, by rw [hslice]; exact w.valid⟩ : Str U) = w :=
    Str.ext hslice
  rw [hw, hslice] at hstring
  have hvalid : (s.advance w.bytes.length).Valid := hs.advance (by rw [h]; simp)
  refine ⟨s.advance w.bytes.length, ?_, hvalid, ?_⟩
  · simp only [cut, Splitter.saveEnd, hstring]
    rfl
  · rw [Splitter.asSlice_advance, h, List.drop_left]

/-- **The copy is the source**, and no `unwrap` in it fails. -/
theorem ownMerged_eq (s : Source) : s.ownMerged = .ok s := by
  obtain ⟨nick, userhost⟩ := s
  have hs : (Splitter.new ⟨concat ⟨nick, userhost⟩, concat_valid ⟨nick, userhost⟩⟩).asSlice =
      concat ⟨nick, userhost⟩ := Splitter.asSlice_new _
  obtain ⟨s₁, h₁, hv₁, hs₁⟩ := cut_spec (Splitter.valid_new _) nick _ hs
  simp only [ownMerged, h₁]
  cases userhost with
  | none => rfl
  | some uh =>
    obtain ⟨user, host⟩ := uh
    cases user with
    | none =>
      obtain ⟨s₂, h₂, -⟩ := cut_spec hv₁ host [] (by simpa using hs₁)
      simp only [h₂]
    | some u =>
      obtain ⟨s₂, h₂, hv₂, hs₂⟩ := cut_spec hv₁ u _ hs₁
      obtain ⟨s₃, h₃, -⟩ := cut_spec hv₂ host [] (by simpa using hs₂)
      simp only [h₂, h₃]

/-! ## The text -/

/-- The bytes of a source are bytes of a word. -/
theorem writeTo_valid (s : Source) : ∀ b ∈ s.writeTo, StringType.word.isInvalid b = false := by
  have hnick : ∀ b ∈ s.nick.bytes, StringType.word.isInvalid b = false := fun b hb =>
    Str.Conv.byte_valid (T := .nick) b (s.nick.isInvalid_eq_false hb)
  intro b hb
  unfold writeTo at hb
  cases huh : s.userhost with
  | none =>
    rw [huh] at hb
    exact hnick b hb
  | some uh =>
    rw [huh] at hb
    rcases List.mem_append.mp hb with hb | hb
    · rcases List.mem_append.mp hb with hb | hb
      · rcases List.mem_append.mp hb with hb | hb
        · exact hnick b hb
        · cases hu : uh.user with
          | none =>
            rw [hu] at hb
            exact absurd hb (by simp)
          | some u =>
            rw [hu] at hb
            rcases List.mem_append.mp hb with hb | hb
            · obtain rfl : b = byte '!' := by simpa [text] using hb
              decide
            · exact Str.Conv.byte_valid (T := .user) b (u.isInvalid_eq_false hb)
      · obtain rfl : b = byte '@' := by simpa [text] using hb
        decide
    · exact uh.host.isInvalid_eq_false hb

/-- The length of a source is that of its text. -/
theorem length_writeTo (s : Source) : s.writeTo.length = s.len := by
  have hat : (text "@").length = 1 := rfl
  have hbang : (text "!").length = 1 := rfl
  obtain ⟨nick, userhost⟩ := s
  cases userhost with
  | none => rfl
  | some address =>
    obtain ⟨user, host⟩ := address
    cases user with
    | none => simp [writeTo, len, UserHost.len, hat]
    | some user =>
      simp only [writeTo, len, UserHost.len, List.length_append, hat, hbang]
      omega

/-- The text of a source as a word. -/
def toWord (s : Source) : Word :=
  ⟨s.writeTo, StringType.word.findInvalid_eq_none_iff.mpr ⟨rfl, s.writeTo_valid⟩⟩

/-- The parser reads the nick and is left with what follows it. -/
theorem parse_nick {word : Word} (nick : Nick) (rest : List UInt8)
    (h : word.bytes = nick.bytes ++ rest)
    (hstop : ∀ b ∈ rest.head?, b = byte '!' ∨ b = byte '@') :
    ∃ s : Splitter .word, (Splitter.new word).string .nick false = (.ok nick, s) ∧
      s.asSlice = rest := by
  have hvalid : ∀ b ∈ nick.bytes, StringType.nick.isInvalid b = false := fun b hb =>
    nick.isInvalid_eq_false hb
  have hstop' : ∀ b ∈ rest.head?, StringType.nick.isInvalid b = true := fun b hb => by
    rcases hstop b hb with rfl | rfl <;> decide
  have hslice : (Splitter.new word).asSlice = nick.bytes ++ rest := by
    rw [Splitter.asSlice_new, h]
  have hpre := Splitter.validPrefix_append hvalid hstop'
  obtain ⟨w, hw, hstring⟩ := Splitter.string_of_checkOthers_none (s := Splitter.new word)
    (U := .nick) (by rw [hslice, hpre]; exact nick.checkOthers_eq_none)
  rw [hslice, hpre] at hw
  obtain rfl : w = nick := Str.ext hw
  exact ⟨_, hstring, by rw [Splitter.asSlice_advance, hslice, List.drop_left]⟩

theorem restOrDefault_of_asSlice {s : Splitter .word} {w : Word} (h : s.asSlice = w.bytes) :
    (s.restOrDefault .word).1 = w := by
  obtain ⟨w', hw', hrest⟩ := s.restOrDefault_eq (U := .word) rfl
  rw [hrest]
  exact Str.ext (hw'.trans h)

/-- `UserHost::parse` reads a user and a host back. -/
theorem parse_userhost {word : Word} {user : User} {host : Word} (hne : host.bytes ≠ [])
    (h : word.bytes = user.bytes ++ byte '@' :: host.bytes) :
    UserHost.parse word = .ok ⟨some user, host⟩ := by
  have hslice : (Splitter.new word).asSlice = user.bytes ++ byte '@' :: host.bytes := by
    rw [Splitter.asSlice_new, h]
  have huser : ∀ b ∈ user.bytes, (!(b == byte '@')) = true := fun b hb => by
    have hu : isInvalidForUser true b = false := user.isInvalid_eq_false hb
    simpa using (isInvalidForUser_eq_false.mp hu).1
  have huntil : ((Splitter.new word).untilByteEq (byte '@')).asSlice = user.bytes := by
    rw [Splitter.asSlice_untilByteEq, hslice, takeWhile_append_of_stop huser (by simp)]
  have hstring := Splitter.string_true_of_findInvalid_none
    (s := (Splitter.new word).untilByteEq (byte '@')) (U := .user)
    (by rw [huntil]; exact user.valid)
  have hw : (⟨((Splitter.new word).untilByteEq (byte '@')).asSlice,
      by rw [huntil]; exact user.valid⟩ : User) = user := Str.ext huntil
  rw [hw, huntil] at hstring
  unfold UserHost.parse Splitter.saveEnd
  simp only [hstring]
  have hafter : (((Splitter.new word).untilByteEq (byte '@')).advance user.bytes.length
      |>.restore (Splitter.new word) false true).asSlice = byte '@' :: host.bytes := by
    rw [Splitter.asSlice_restore_stop _ user.bytes.length
      (by simp [Splitter.advance]) (by simp [Splitter.advance]), hslice, List.drop_left]
  rw [restOrDefault_of_asSlice (w := host)
    (by rw [Splitter.asSlice_nextByte, hafter, List.tail_cons])]
  simp [hne]

/-- **A source is read back from its text**, if its host, where it has one, is not empty. -/
theorem parse_toWord (s : Source) (h : ∀ uh ∈ s.userhost, uh.host.bytes ≠ []) :
    parse s.toWord = .ok s := by
  obtain ⟨nick, userhost⟩ := s
  cases userhost with
  | none =>
    obtain ⟨s₁, hstring, hs₁⟩ := parse_nick nick []
      (show (toWord ⟨nick, none⟩).bytes = _ by simp [toWord, writeTo]) (by simp)
    simp only [parse, hstring, s₁.nextByte_of_nil hs₁]
  | some uh =>
    obtain ⟨user, host⟩ := uh
    have hne : host.bytes ≠ [] := h _ rfl
    cases user with
    | none =>
      obtain ⟨s₁, hstring, hs₁⟩ := parse_nick nick (byte '@' :: host.bytes)
        (show (toWord ⟨nick, some ⟨none, host⟩⟩).bytes = _ by simp [toWord, writeTo, text])
        (by simp)
      have hrest : (s₁.advance 1).asSlice = host.bytes := by
        rw [Splitter.asSlice_advance, hs₁, List.drop_succ_cons, List.drop_zero]
      have hbang : byte '@' ≠ byte '!' := by decide
      simp only [parse, hstring, s₁.nextByte_of_cons hs₁, hbang, if_false, if_true,
        restOrDefault_of_asSlice (w := host) hrest, List.isEmpty_iff, hne]
    | some user =>
      obtain ⟨s₁, hstring, hs₁⟩ := parse_nick nick
        (byte '!' :: (user.bytes ++ byte '@' :: host.bytes))
        (show (toWord ⟨nick, some ⟨some user, host⟩⟩).bytes = _ by simp [toWord, writeTo, text])
        (by simp)
      obtain ⟨w, hw, hrest⟩ := (s₁.advance 1).restOrDefault_eq (U := .word) rfl
      rw [Splitter.asSlice_advance, hs₁, List.drop_succ_cons, List.drop_zero] at hw
      simp only [parse, hstring, s₁.nextByte_of_cons hs₁, if_true, hrest, parse_userhost hne hw]

end Source

end Vinezombie
