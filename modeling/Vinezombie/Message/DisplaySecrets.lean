import Vinezombie.Message.Display

/-!
# Secrets in logs

What the text of a message says about the secret strings in it.  A secret argument is a placeholder
in the text.  A tag value is escaped before it is printed, and `escape` returns a new string, which
is not secret, when there is something to escape; so such a value is printed, if it is UTF-8.

* `Bytes.display_escape`: what is printed of a secret tag value.
* `Marked.ClientMsg.Alike`, `Marked.ServerMsg.Alike`: messages that differ in the bytes of secrets.
* `Marked.display_eq_iff`: when such messages are printed alike.
-/

namespace Vinezombie

open Library.Scan Library.Utf8

/-! ## Escaped text -/

theorem flatMap_escapeOne_inj {v v' : List UInt8}
    (h : v.flatMap escapeOne = v'.flatMap escapeOne) : v = v' := by
  have hne : ∀ b, escapeOne b ≠ [] := fun b => by
    unfold escapeOne
    split <;> simp
  induction v generalizing v' with
  | nil =>
    cases v' with
    | nil => rfl
    | cons c v' =>
      rw [List.flatMap_nil, List.flatMap_cons] at h
      exact absurd (List.append_eq_nil_iff.mp h.symm).1 (hne c)
  | cons b v ih =>
    cases v' with
    | nil =>
      rw [List.flatMap_nil, List.flatMap_cons] at h
      exact absurd (List.append_eq_nil_iff.mp h).1 (hne b)
    | cons c v' =>
      rw [List.flatMap_cons, List.flatMap_cons] at h
      cases hb : escapeByte b with
      | none =>
        cases hc : escapeByte c with
        | none =>
          rw [escapeOne_of_none hb, escapeOne_of_none hc] at h
          obtain ⟨rfl, hrest⟩ := List.cons.inj h
          rw [ih hrest]
        | some esc =>
          -- a backslash is escaped itself
          rw [escapeOne_of_none hb, escapeOne_of_some hc] at h
          exact absurd (List.cons.inj h).1 (escapeByte_eq_none hb).2.2.2.2
      | some esc =>
        cases hc : escapeByte c with
        | none =>
          rw [escapeOne_of_some hb, escapeOne_of_none hc] at h
          exact absurd (List.cons.inj h).1.symm (escapeByte_eq_none hc).2.2.2.2
        | some esc' =>
          rw [escapeOne_of_some hb, escapeOne_of_some hc] at h
          obtain ⟨rfl, hrest⟩ := List.cons.inj (List.cons.inj h).2
          rw [ih hrest, ← unescapeByte_of_escapeByte hb, unescapeByte_of_escapeByte hc]

/-- A value with something to escape has a backslash in its text. -/
theorem backslash_mem_escapeBytes {v : List UInt8} {b : UInt8} (hb : b ∈ v)
    (hesc : escapeByte b ≠ none) : byte '\\' ∈ escapeBytes v := by
  rw [escapeBytes_eq_flatMap, List.mem_flatMap]
  obtain ⟨esc, hesc⟩ := Option.ne_none_iff_exists'.mp hesc
  exact ⟨b, hb, by rw [escapeOne_of_some hesc]; exact List.mem_cons_self⟩

/-! ## Tag values -/

namespace Bytes

/-- Strings that are the same: the same bytes, both secret or neither, and with the same answer to
whether they are UTF-8.  Who owns the bytes, and whether that answer is known yet, may differ. -/
def Same (a b : Bytes) : Prop :=
  a.value = b.value ∧ a.isSecret = b.isSecret ∧ a.toUtf8.1.isSome = b.toUtf8.1.isSome

/-- Strings that are the same except for the bytes of secrets: both are secret, and both are empty
or neither, or they are the same. -/
def Alike (a b : Bytes) : Prop :=
  a.isSecret = true ∧ b.isSecret = true ∧ (a.value = [] ↔ b.value = []) ∨ a.Same b

/-- A value of which `escape` makes a new string that can be printed: there is something to escape,
and it is UTF-8. -/
def Exposed (b : Bytes) : Prop := (∃ c ∈ b.value, escapeByte c ≠ none) ∧ Valid b.value

instance (b : Bytes) : Decidable b.Exposed := inferInstanceAs (Decidable (_ ∧ _))

theorem Same.refl (b : Bytes) : b.Same b := ⟨rfl, rfl, rfl⟩

theorem display_of_isSecret {b : Bytes} (h : b.isSecret = true) :
    b.display = displayPlaceholder := by
  rw [display, if_pos h]

theorem mem_display {b : Bytes} {c : UInt8} (h : c ∈ b.display) :
    c ∈ displayPlaceholder ∨ c ∈ b.value := by
  unfold display at h
  rw [toUtf8_eq] at h
  split_ifs at h
  · exact .inl h
  · exact .inr h
  · exact .inl h

theorem Same.display_eq {a b : Bytes} (h : a.Same b) : a.display = b.display := by
  obtain ⟨hvalue, hsecret, hutf8⟩ := h
  rw [display, display, toUtf8_eq a, toUtf8_eq b, hvalue, hsecret, hutf8]

/-- Strings that are the same except for secrets are printed alike. -/
theorem Alike.display_eq {a b : Bytes} (h : a.Alike b) : a.display = b.display := by
  rcases h with ⟨ha, hb, -⟩ | h
  · rw [display_of_isSecret ha, display_of_isSecret hb]
  · exact h.display_eq

theorem Alike.value_eq_nil_iff {a b : Bytes} (h : a.Alike b) : a.value = [] ↔ b.value = [] := by
  rcases h with ⟨-, -, h⟩ | h
  · exact h
  · rw [h.1]

theorem Same.escape_display_eq {a b : Bytes} (h : a.Same b) :
    a.escape.display = b.escape.display := by
  unfold escape
  rw [h.1]
  split
  · exact h.display_eq
  · rfl

/-- **What is printed of a secret tag value.** -/
theorem display_escape {b : Bytes} (h : b.isSecret = true) :
    b.escape.display = if b.Exposed then escapeBytes b.value else displayPlaceholder := by
  unfold escape
  by_cases hesc : ∃ c ∈ b.value, escapeByte c ≠ none
  · rw [if_neg (by rw [all_isNone_iff]; exact not_not.mpr hesc), display_fromVec]
    refine if_congr ?_ rfl rfl
    rw [valid_escapeBytes_iff]
    exact ⟨fun hvalid => ⟨hesc, hvalid⟩, And.right⟩
  · rw [if_pos ((all_isNone_iff b).mpr hesc), display_of_isSecret h, if_neg fun h => hesc h.1]

/-- **When two tag values are printed alike**, which are the same except for secrets. -/
theorem Alike.escape_display_eq_iff {a b : Bytes} (h : a.Alike b) :
    a.escape.display = b.escape.display ↔ a.value = b.value ∨ ¬ a.Exposed ∧ ¬ b.Exposed := by
  rcases h with ⟨ha, hb, -⟩ | h
  · have hplace : ∀ c : Bytes, c.Exposed → escapeBytes c.value ≠ displayPlaceholder := by
      rintro c ⟨⟨x, hx, hesc⟩, -⟩ heq
      have hmem := backslash_mem_escapeBytes hx hesc
      rw [heq] at hmem
      exact absurd hmem (by decide)
    rw [display_escape ha, display_escape hb]
    by_cases hea : a.Exposed
    · by_cases heb : b.Exposed
      · rw [if_pos hea, if_pos heb, escapeBytes_eq_flatMap, escapeBytes_eq_flatMap]
        constructor
        · exact fun heq => .inl (flatMap_escapeOne_inj heq)
        · rintro (heq | ⟨hnot, -⟩)
          · rw [heq]
          · exact absurd hea hnot
      · rw [if_pos hea, if_neg heb]
        refine iff_of_false (hplace a hea) ?_
        rintro (heq | ⟨hnot, -⟩)
        · exact heb (by rw [Exposed, ← heq]; exact hea)
        · exact hnot hea
    · by_cases heb : b.Exposed
      · rw [if_neg hea, if_pos heb]
        refine iff_of_false (hplace b heb).symm ?_
        rintro (heq | ⟨-, hnot⟩)
        · exact hea (by rw [Exposed, heq]; exact heb)
        · exact hnot heb
      · rw [if_neg hea, if_neg heb]
        exact iff_of_true rfl (.inr ⟨hea, heb⟩)
  · exact iff_of_true h.escape_display_eq (.inl h.1)

end Bytes

/-! ## Messages that are the same except for secrets -/

namespace Marked

/-- The tags of two messages: the same keys, and values that are the same except for secrets. -/
def Tags.Alike (t t' : Tags) : Prop :=
  List.Forall₂ (fun p p' => p.1.raw.Same p'.1.raw ∧ p.2.raw.Alike p'.2.raw) t.pairs.vec t'.pairs.vec

/-- The arguments of two messages: the same one is held as the long one. -/
def Args.Alike (args args' : Args) : Prop :=
  List.Forall₂ (fun w w' => w.raw.Alike w'.raw) args.words args'.words ∧
    Option.Rel (fun l l' => l.raw.Alike l'.raw) args.long args'.long

/-- The sources have the same strings. -/
def Source.Same (s s' : Source) : Prop :=
  s.nick.raw.Same s'.nick.raw ∧
    Option.Rel (fun a a' => Option.Rel (fun u u' => u.raw.Same u'.raw) a.user a'.user ∧
      a.host.raw.Same a'.host.raw) s.userhost s'.userhost

/-- Client messages that are the same except for the bytes of secret tag values and arguments. -/
structure ClientMsg.Alike (m m' : ClientMsg) : Prop where
  tags : m.tags.Alike m'.tags
  cmd : m.cmd.raw.Same m'.cmd.raw
  args : m.args.Alike m'.args

/-- Server messages that are the same except for the bytes of secret tag values and arguments. -/
structure ServerMsg.Alike (m m' : ServerMsg) : Prop where
  tags : m.tags.Alike m'.tags
  source : Option.Rel Source.Same m.source m'.source
  kind : m.kind = m'.kind
  args : m.args.Alike m'.args

/-- Each tag value has the same bytes in both, or is exposed in neither. -/
def Tags.Concealed (t t' : Tags) : Prop :=
  List.Forall₂ (fun p p' => p.2.raw.value = p'.2.raw.value ∨
    ¬ p.2.raw.Exposed ∧ ¬ p'.2.raw.Exposed) t.pairs.vec t'.pairs.vec

/-- The last of the entries. -/
theorem forall₂_concat {α : Type} {R : α → α → Prop} {l l' : List α} (h : List.Forall₂ R l l') :
    l = [] ∧ l' = [] ∨
      ∃ a x a' x', l = a ++ [x] ∧ l' = a' ++ [x'] ∧ List.Forall₂ R a a' ∧ R x x' := by
  induction h with
  | nil => exact .inl ⟨rfl, rfl⟩
  | @cons y y' l l' hhead htail ih =>
    refine .inr ?_
    rcases ih with ⟨rfl, rfl⟩ | ⟨a, x, a', x', rfl, rfl, hfront, hlast⟩
    · exact ⟨[], y, [], y', rfl, rfl, .nil, hhead⟩
    · exact ⟨y :: a, x, y' :: a', x', rfl, rfl, .cons hhead hfront, hlast⟩

theorem flatMap_display_eq {T : StringType} {l l' : List (Str T)}
    (h : List.Forall₂ (fun w w' => w.raw.Alike w'.raw) l l') (sep : List UInt8) :
    (l.flatMap fun w => w.raw.display ++ sep) = l'.flatMap fun w => w.raw.display ++ sep := by
  induction h with
  | nil => rfl
  | cons hhead _ ih => rw [List.flatMap_cons, List.flatMap_cons, hhead.display_eq, ih]

/-- **Arguments** are printed alike. -/
theorem Args.Alike.display_eq {args args' : Args} (h : args.Alike args') :
    args.display = args'.display ∧ args.isEmpty = args'.isEmpty := by
  obtain ⟨words, long, hisLong⟩ := args
  obtain ⟨words', long', hisLong'⟩ := args'
  obtain ⟨hwords, hlong⟩ := h
  dsimp only at hwords hlong
  cases hlong with
  | some hline =>
    simp only [Args.display, Args.isEmpty, hline.display_eq, flatMap_display_eq hwords]
    simp
  | none =>
    rcases forall₂_concat hwords with ⟨rfl, rfl⟩ | ⟨a, x, a', x', rfl, rfl, hfront, hlast⟩
    · exact ⟨rfl, rfl⟩
    · simp only [Args.display, Args.isEmpty, List.getLast?_concat, List.dropLast_concat,
        hlast.display_eq, flatMap_display_eq hfront]
      have hne : ∀ (l : List (Str .arg)) (w : Str .arg), (l ++ [w]).isEmpty = false := by
        intro l w
        rw [List.isEmpty_eq_false_iff]
        exact List.concat_ne_nil w l
      rw [hne, hne]
      exact ⟨trivial, rfl⟩

theorem Source.Same.display_eq {s s' : Source} (h : s.Same s') : s.display = s'.display := by
  obtain ⟨nick, userhost⟩ := s
  obtain ⟨nick', userhost'⟩ := s'
  obtain ⟨hnick, hhost⟩ := h
  dsimp only at hnick hhost
  cases hhost with
  | none => exact hnick.display_eq
  | @some a a' haddress =>
    obtain ⟨user, host⟩ := a
    obtain ⟨user', host'⟩ := a'
    obtain ⟨huser, hhost⟩ := haddress
    dsimp only at huser hhost
    cases huser with
    | none => simp only [Source.display, hnick.display_eq, hhost.display_eq]
    | some huser => simp only [Source.display, hnick.display_eq, huser.display_eq, hhost.display_eq]

/-- The bytes that separate tags, and end them, are not in the text of a value. -/
theorem Str.ne_of_mem_display_escape (value : Str .noNul) {c : UInt8}
    (hc : c ∈ value.raw.escape.display) : c ≠ byte ';' ∧ c ≠ byte ' ' := by
  rcases Bytes.mem_display hc with hplace | hvalue
  · have hnot : ∀ c ∈ displayPlaceholder, c ≠ byte ';' ∧ c ≠ byte ' ' := by decide +kernel
    exact hnot c hplace
  · unfold Bytes.escape at hvalue
    split at hvalue
    · rename_i hall
      have hnone : escapeByte c = none := by
        simpa using List.all_eq_true.mp hall c hvalue
      exact ⟨(escapeByte_eq_none hnone).1, (escapeByte_eq_none hnone).2.1⟩
    · have hzero : ∀ b ∈ value.raw.value, b ≠ 0 := fun _ hb => NoNul.ne_zero (v := value.toStr) hb
      obtain ⟨hsemi, hword⟩ := escapeBytes_valid hzero hvalue
      exact ⟨hsemi, (isInvalidForWord_eq_false.mp hword).1⟩

/-- What follows a tag value: another tag, or the end of the tags. -/
theorem Tags.head?_displayPairs (pairs : List (Str .key × Str .noNul)) (rest : List UInt8) :
    ∀ c ∈ (Tags.displayPairs (text ";") pairs ++ (text " " ++ rest)).head?,
      c = byte ';' ∨ c = byte ' ' := by
  intro c hc
  cases pairs with
  | nil => exact .inr (Option.some.inj hc).symm
  | cons p pairs =>
    refine .inl ?_
    obtain ⟨key, value⟩ := p
    rw [Tags.displayPairs] at hc
    split at hc
    · exact (Option.some.inj hc).symm
    · exact (Option.some.inj hc).symm

/-- The texts of tags agree, if all their values do. -/
theorem Tags.displayPairs_eq_iff {pairs pairs' : List (Str .key × Str .noNul)}
    {pre rest rest' : List UInt8}
    (h : List.Forall₂ (fun p p' => p.1.raw.Same p'.1.raw ∧ p.2.raw.Alike p'.2.raw) pairs pairs') :
    Tags.displayPairs pre pairs ++ (text " " ++ rest) =
        Tags.displayPairs pre pairs' ++ (text " " ++ rest') ↔
      List.Forall₂ (fun p p' => p.2.raw.value = p'.2.raw.value ∨
        ¬ p.2.raw.Exposed ∧ ¬ p'.2.raw.Exposed) pairs pairs' ∧ rest = rest' := by
  induction h generalizing pre with
  | nil => simp [Tags.displayPairs]
  | @cons p p' pairs pairs' hhead htail ih =>
    obtain ⟨key, value⟩ := p
    obtain ⟨key', value'⟩ := p'
    obtain ⟨hkey, hvalue⟩ := hhead
    dsimp only at hkey hvalue
    have htails := @ih (text ";")
    rw [List.forall₂_cons, and_assoc, ← htails, ← hvalue.escape_display_eq_iff]
    have hempty : value.raw.value.isEmpty = value'.raw.value.isEmpty := by
      rw [Bool.eq_iff_iff, List.isEmpty_iff, List.isEmpty_iff]
      exact hvalue.value_eq_nil_iff
    rw [Tags.displayPairs, Tags.displayPairs, ← hempty, hkey.display_eq]
    cases hnil : value.raw.value.isEmpty with
    | true =>
      have hvalues : value.raw.value = value'.raw.value := by
        rw [List.isEmpty_iff.mp hnil, List.isEmpty_iff.mp (hempty.symm.trans hnil)]
      have hsame := hvalue.escape_display_eq_iff.mpr (.inl hvalues)
      simp only [Bool.not_true, Bool.false_eq_true, if_false, List.append_assoc,
        List.append_cancel_left_eq, hsame, true_and]
    | false =>
      have hstop : ∀ v : Str .noNul, ∀ c ∈ v.raw.escape.display,
          (c != byte ';' && c != byte ' ') = true := fun v c hc => by
        simpa using v.ne_of_mem_display_escape hc
      have hhead : ∀ (l : List (Str .key × Str .noNul)) (r : List UInt8),
          ∀ c ∈ (Tags.displayPairs (text ";") l ++ (text " " ++ r)).head?,
            (c != byte ';' && c != byte ' ') = false := fun l r c hc => by
        rcases Tags.head?_displayPairs l r c hc with rfl | rfl <;> decide
      simp only [Bool.not_false, if_true, List.append_assoc, List.append_cancel_left_eq]
      rw [append_eq_append_iff_of_stop (hstop value) (hstop value') (hhead pairs rest)
        (hhead pairs' rest')]

/-- The texts of the tags of a message, with what follows them. -/
theorem Tags.Alike.text_eq_iff {t t' : Tags} (h : t.Alike t') (rest : List UInt8) :
    (if !t.isEmpty then t.display ++ text " " else []) ++ rest =
        (if !t'.isEmpty then t'.display ++ text " " else []) ++ rest ↔ t.Concealed t' := by
  obtain ⟨⟨pairs⟩⟩ := t
  obtain ⟨⟨pairs'⟩⟩ := t'
  have hiff : Tags.displayPairs (text "@") pairs ++ (text " " ++ rest) =
      Tags.displayPairs (text "@") pairs' ++ (text " " ++ rest) ↔ _ := Tags.displayPairs_eq_iff h
  rw [and_iff_left rfl] at hiff
  cases h with
  | nil => exact iff_of_true rfl .nil
  | cons hhead htail =>
    rw [← List.append_assoc, ← List.append_assoc] at hiff
    exact hiff

/-- **When messages are printed alike**, that are the same except for the bytes of secret tag values
and arguments: each tag value has the same bytes in both, or it is exposed in neither, that is, it
is not UTF-8 or has nothing to escape. -/
theorem display_eq_iff (m m' : ClientMsg) (n n' : ServerMsg) :
    (m.Alike m' → (m.display = m'.display ↔ m.tags.Concealed m'.tags)) ∧
    (n.Alike n' → (n.display = n'.display ↔ n.tags.Concealed n'.tags)) := by
  constructor
  · intro h
    obtain ⟨hargs, hempty⟩ := h.args.display_eq
    unfold ClientMsg.display
    rw [hargs, hempty, h.cmd.display_eq, List.append_assoc, List.append_assoc]
    exact h.tags.text_eq_iff _
  · intro h
    obtain ⟨hargs, hempty⟩ := h.args.display_eq
    unfold ServerMsg.display
    rw [hargs, hempty, h.kind, List.append_assoc, List.append_assoc, List.append_assoc,
      List.append_assoc]
    obtain ⟨tags, source, kind, args⟩ := n
    obtain ⟨tags', source', kind', args'⟩ := n'
    have hsource := h.source
    dsimp only at hsource
    cases hsource with
    | none => exact h.tags.text_eq_iff _
    | some hsource =>
      simp only [hsource.display_eq]
      exact h.tags.text_eq_iff _

/-- A client message with one tag and one argument. -/
def passMsg (value : Str .noNul) (arg : Str .arg) : ClientMsg where
  tags := ⟨⟨[(⟨.fromVec (text "k"), by decide⟩, value)]⟩⟩
  cmd := ⟨.fromVec (text "PASS"), by decide⟩
  args := ⟨[arg], none, by simp⟩

/-- A server message with one tag and one argument. -/
def noticeMsg (value : Str .noNul) (arg : Str .arg) : ServerMsg where
  tags := ⟨⟨[(⟨.fromVec (text "k"), by decide⟩, value)]⟩⟩
  source := some ⟨⟨.fromVec (text "irc"), by decide⟩, none⟩
  kind := .cmd ⟨text "NOTICE", by decide⟩
  args := ⟨[arg], none, by simp⟩

/-- Secrets with nothing to escape. -/
theorem display_eq_iff_passMsg :
    (passMsg ⟨.fromSecret (text "tiger"), by decide⟩
        ⟨.fromSecret (text "hunter2"), by decide⟩).display =
      (passMsg ⟨.fromSecret (text "lion"), by decide⟩
        ⟨.fromSecret (text "123"), by decide⟩).display ∧
    (noticeMsg ⟨.fromSecret (text "tiger"), by decide⟩
        ⟨.fromSecret (text "hunter2"), by decide⟩).display =
      (noticeMsg ⟨.fromSecret (text "lion"), by decide⟩
        ⟨.fromSecret (text "123"), by decide⟩).display := by
  obtain ⟨hpass, hnotice⟩ := display_eq_iff
    (passMsg ⟨.fromSecret (text "tiger"), by decide⟩ ⟨.fromSecret (text "hunter2"), by decide⟩)
    (passMsg ⟨.fromSecret (text "lion"), by decide⟩ ⟨.fromSecret (text "123"), by decide⟩)
    (noticeMsg ⟨.fromSecret (text "tiger"), by decide⟩ ⟨.fromSecret (text "hunter2"), by decide⟩)
    (noticeMsg ⟨.fromSecret (text "lion"), by decide⟩ ⟨.fromSecret (text "123"), by decide⟩)
  refine ⟨(hpass ⟨?_, .refl _, ?_⟩).mpr ?_, (hnotice ⟨?_, ?_, rfl, ?_⟩).mpr ?_⟩
  · exact .cons ⟨.refl _, .inl ⟨rfl, rfl, by decide⟩⟩ .nil
  · exact ⟨.cons (.inl ⟨rfl, rfl, by decide⟩) .nil, .none⟩
  · exact .cons (.inr ⟨by decide +kernel, by decide +kernel⟩) .nil
  · exact .cons ⟨.refl _, .inl ⟨rfl, rfl, by decide⟩⟩ .nil
  · exact .some ⟨.refl _, .none⟩
  · exact ⟨.cons (.inl ⟨rfl, rfl, by decide⟩) .nil, .none⟩
  · exact .cons (.inr ⟨by decide +kernel, by decide +kernel⟩) .nil

/-- Secrets with a space in them, which is escaped. -/
theorem not_display_eq_passMsg :
    (passMsg ⟨.fromSecret (text "a b"), by decide⟩ ⟨.fromSecret (text "x"), by decide⟩).Alike
      (passMsg ⟨.fromSecret (text "c d"), by decide⟩ ⟨.fromSecret (text "x"), by decide⟩) ∧
    (passMsg ⟨.fromSecret (text "a b"), by decide⟩ ⟨.fromSecret (text "x"), by decide⟩).display =
      text "@k=a\\sb PASS <?>" ∧
    (passMsg ⟨.fromSecret (text "c d"), by decide⟩ ⟨.fromSecret (text "x"), by decide⟩).display =
      text "@k=c\\sd PASS <?>" ∧
    text "@k=a\\sb PASS <?>" ≠ text "@k=c\\sd PASS <?>" := by
  refine ⟨⟨?_, .refl _, ?_⟩, ?_, ?_, by decide⟩
  · exact .cons ⟨.refl _, .inl ⟨rfl, rfl, by decide⟩⟩ .nil
  · exact ⟨.cons (.inr (.refl _)) .nil, .none⟩
  · decide +kernel
  · decide +kernel

end Marked

end Vinezombie
