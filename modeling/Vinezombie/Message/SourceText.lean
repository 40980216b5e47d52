import Vinezombie.Message.Source

/-!
# The texts of sources

`Source::parse` and `Source::write_to` against each other.  The parser splits a word twice: at the
first `!` or `@` behind the nick and, behind a `!`, at the next `@`.  A user and a host may hold a
`!`, and a host an `@`, so the splits are those of the writer only because a nick has neither and a
user has no `@`.

* `UserHost.of_parse_ok`, `of_parse_ok`: what a word was, if it was accepted.
* `source_codec`: the two functions are inverse to each other, on the texts of three forms.
-/

namespace Vinezombie

open Library.Scan

/-- **What `UserHost::parse` accepts**: a user, an `@` and a host that is not empty. -/
theorem UserHost.of_parse_ok {word : Word} {uh : UserHost} (h : UserHost.parse word = .ok uh) :
    ∃ user, uh.user = some user ∧ uh.host.bytes ≠ [] ∧
      word.bytes = user.bytes ++ byte '@' :: uh.host.bytes := by
  unfold UserHost.parse Splitter.saveEnd at h
  cases hstring : ((Splitter.new word).untilByteEq (byte '@')).string .user true with
  | mk result s =>
    simp only [hstring] at h
    cases result with
    | error e => exact absurd h (by simp)
    | ok user =>
      obtain ⟨huser, rfl⟩ := Splitter.of_string_true_ok hstring
      rw [Splitter.asSlice_untilByteEq, Splitter.asSlice_new] at huser
      have hcount : user.bytes.length =
          ((Splitter.new word).asSlice.takeWhile fun c => !(c == byte '@')).length := by
        rw [huser, Splitter.asSlice_new]
      obtain ⟨-, hafter⟩ := Splitter.restore_untilByteEq (Splitter.valid_new word) hcount
      rw [Splitter.asSlice_new] at hafter
      obtain ⟨host, hhost, hrest⟩ :=
        ((((Splitter.new word).untilByteEq (byte '@')).advance user.bytes.length).restore
          (Splitter.new word) false true).nextByte.2.restOrDefault_eq (U := .word) rfl
      rw [Splitter.asSlice_nextByte, hafter] at hhost
      simp only [hrest] at h
      by_cases hne : host.bytes = []
      · simp [hne] at h
      · rw [if_neg (by simp [hne]), Except.ok.injEq] at h
        subst h
        -- the host is not empty, so the scan for `@` was stopped by one
        obtain ⟨b, rest, hb⟩ :=
          List.exists_cons_of_ne_nil (l := word.bytes.dropWhile fun c => !(c == byte '@'))
            fun hnil => hne (by rw [hhost, hnil, List.tail_nil])
        obtain rfl : b = byte '@' := by
          have hstop := head?_dropWhile_eq_false (p := fun c => !(c == byte '@')) (a := b)
            (l := word.bytes) (by rw [hb]; rfl)
          simpa using hstop
        refine ⟨user, rfl, hne, ?_⟩
        rw [hhost, hb, List.tail_cons, huser, ← hb, List.takeWhile_append_dropWhile]

namespace Source

/-- What stops the scan for a nick in a word. -/
theorem stop_of_head?_afterPrefix {word : Word} {b : UInt8}
    (h : b ∈ (Splitter.afterPrefix .nick word.bytes).head?) : b = byte '!' ∨ b = byte '@' := by
  have hinvalid : StringType.nick.isInvalid b = true := by
    simpa using head?_dropWhile_eq_false h
  have hmem : b ∈ word.bytes :=
    (List.dropWhile_sublist _).subset (List.mem_of_mem_head? h)
  have hword : isInvalidForWord true b = false := word.isInvalid_eq_false hmem
  by_contra hne
  rw [not_or] at hne
  have hvalid : StringType.nick.isInvalid b = false :=
    isInvalidForNick_eq_false.mpr ⟨hne.1, hne.2, hword⟩
  rw [hvalid] at hinvalid
  exact absurd hinvalid (by simp)

/-- **What the parser accepts** is the text of what it returns. -/
theorem of_parse_ok {word : Word} {s : Source} (h : parse word = .ok s) :
    s.writeTo = word.bytes ∧ ∀ uh ∈ s.userhost, uh.host.bytes ≠ [] := by
  unfold parse at h
  cases hstring : (Splitter.new word).string .nick false with
  | mk result s₁ =>
    simp only [hstring] at h
    cases result with
    | error e => exact absurd h (by simp)
    | ok nick =>
      obtain ⟨hnick, rfl⟩ := Splitter.of_string_false_ok hstring
      have hs₁ : ((Splitter.new word).advance nick.bytes.length).asSlice =
          Splitter.afterPrefix .nick word.bytes := by
        rw [hnick, Splitter.asSlice_advance_validPrefix, Splitter.asSlice_new]
      have hsplit : word.bytes = nick.bytes ++ Splitter.afterPrefix .nick word.bytes := by
        rw [hnick, Splitter.asSlice_new]
        exact (List.takeWhile_append_dropWhile ..).symm
      cases hafter : Splitter.afterPrefix .nick word.bytes with
      | nil =>
        rw [hafter] at hs₁ hsplit
        simp only [Splitter.nextByte_of_nil _ hs₁, Except.ok.injEq] at h
        subst h
        exact ⟨by rw [writeTo, hsplit, List.append_nil], by simp⟩
      | cons b rest =>
        have hb : b = byte '!' ∨ b = byte '@' := stop_of_head?_afterPrefix (by rw [hafter]; rfl)
        rw [hafter] at hs₁ hsplit
        simp only [Splitter.nextByte_of_cons _ hs₁] at h
        obtain ⟨w, hw, hrest⟩ := (((Splitter.new word).advance nick.bytes.length).advance 1)
          |>.restOrDefault_eq (U := .word) rfl
        rw [Splitter.asSlice_advance, hs₁, List.drop_succ_cons, List.drop_zero] at hw
        simp only [hrest] at h
        rcases hb with rfl | rfl
        · rw [if_pos rfl] at h
          cases huh : UserHost.parse w with
          | error e => simp [huh] at h
          | ok uh =>
            simp only [huh, Except.ok.injEq] at h
            subst h
            obtain ⟨user, huser, hne, htext⟩ := UserHost.of_parse_ok huh
            refine ⟨?_, by simpa using hne⟩
            rw [hsplit, ← hw, htext]
            simp [writeTo, huser, text]
        · rw [if_neg (by decide), if_pos rfl] at h
          by_cases hne : w.bytes = []
          · simp [hne] at h
          · rw [if_neg (by simp [hne]), Except.ok.injEq] at h
            subst h
            refine ⟨?_, by simpa using hne⟩
            rw [hsplit, ← hw]
            simp [writeTo, text]

/-- **Parsing is the inverse of writing**, on the sources whose host is not empty. -/
theorem parse_eq_ok_iff {word : Word} {s : Source} :
    parse word = .ok s ↔ s.writeTo = word.bytes ∧ ∀ uh ∈ s.userhost, uh.host.bytes ≠ [] := by
  constructor
  · exact of_parse_ok
  · rintro ⟨htext, hne⟩
    rw [← parse_toWord s hne]
    exact congrArg parse (Str.ext htext.symm)

/-- The three forms that the text of a source has. -/
inductive Form : List UInt8 → Prop where
  | nick (nick : Nick) : Form nick.bytes
  | host (nick : Nick) (host : Word) : host.bytes ≠ [] → Form (nick.bytes ++ text "@" ++ host.bytes)
  | user (nick : Nick) (user : User) (host : Word) : host.bytes ≠ [] →
      Form (nick.bytes ++ text "!" ++ user.bytes ++ text "@" ++ host.bytes)

/-- What is written for a source whose host is not empty, and nothing else, is of one of the
forms. -/
theorem form_iff {bytes : List UInt8} :
    Form bytes ↔ ∃ s : Source, s.writeTo = bytes ∧ ∀ uh ∈ s.userhost, uh.host.bytes ≠ [] := by
  constructor
  · rintro (nick | ⟨nick, host, hne⟩ | ⟨nick, user, host, hne⟩)
    · exact ⟨⟨nick, none⟩, rfl, by simp⟩
    · exact ⟨⟨nick, some ⟨none, host⟩⟩, by simp [writeTo], by simpa using hne⟩
    · exact ⟨⟨nick, some ⟨some user, host⟩⟩, by simp [writeTo], by simpa using hne⟩
  · rintro ⟨⟨nick, userhost⟩, rfl, hne⟩
    cases userhost with
    | none => exact .nick nick
    | some uh =>
      obtain ⟨user, host⟩ := uh
      have hhost : host.bytes ≠ [] := hne _ rfl
      cases user with
      | none => simpa [writeTo] using Form.host nick host hhost
      | some user => simpa [writeTo] using Form.user nick user host hhost

/-- **The codec of sources.**  A word that is accepted is what is written for the source that was
read; a source whose host is not empty is read back; the words that are accepted are those of the
three forms; and the length of a source is the number of bytes that are written for it. -/
theorem source_codec :
    (∀ word s, parse word = .ok s → s.writeTo = word.bytes) ∧
    (∀ s : Source, (∀ uh ∈ s.userhost, uh.host.bytes ≠ []) → parse s.toWord = .ok s) ∧
    (∀ word, (∃ s, parse word = .ok s) ↔ Form word.bytes) ∧
    ∀ s : Source, s.len = s.writeTo.length := by
  refine ⟨fun word s h => (of_parse_ok h).1, parse_toWord, fun word => ?_, fun s =>
    s.length_writeTo.symm⟩
  rw [form_iff]
  exact exists_congr fun s => parse_eq_ok_iff

end Source

end Vinezombie
