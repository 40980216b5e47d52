import Vinezombie.Library.Loop
import Vinezombie.Strings.Escape
import Vinezombie.Strings.Splitter
import Vinezombie.Util.FlatMap

/-!
# Message tags

`ircmsg/tags.rs`: a flat map from keys to values, its text form `@key=value;key;…`, and the parser
of that text.

`Tags::parse` is a `while` loop that need not end: a key is refused when it is empty, when it begins
with a colon, and at its first byte that no key contains; after a refusal the loop skips bytes that
no key contains, and a colon is not one of them.  The loop is therefore run with `Loop.run`, and
`Tags.parse` takes the number of passes that it may make.

* `parseBody_cases`: what one pass of the loop does, to the text that is left and to the tags.
* `terminates_iff`: the loop ends exactly on `NoColonKey` texts, and then every pass shortens the
  text (`shortens_iff`).
* `parse_text`: the parser on what `write_to` emits.
-/

namespace Vinezombie

open Library Library.KeyedList Library.Scan

/-- `Tags`.  The pairs of the source carry a unit as well, which is left out. -/
@[ext] structure Tags where
  pairs : FlatMap (Key × NoNul)
  deriving DecidableEq

namespace Tags

/-- `Tags::new`. -/
def new : Tags := ⟨FlatMap.new⟩

/-- `is_empty`. -/
def isEmpty (t : Tags) : Bool := t.pairs.isEmpty

/-- `Tags::get`, of a string that is a key. -/
def get (t : Tags) (key : Key) : Option NoNul := (t.pairs.get Prod.fst key).map Prod.snd

/-- The loop of `write_to`, with the variable `prefix`. -/
def writePairs (pre : List UInt8) : List (Key × NoNul) → List UInt8
  | [] => []
  | (key, value) :: rest =>
    pre ++ key.bytes ++
      (if value.bytes.isEmpty then [] else text "=" ++ (escape value).bytes) ++
      writePairs (text ";") rest

/-- The bytes that `write_to` writes, including the leading `@`. -/
def writeTo (t : Tags) : List UInt8 := writePairs (text "@") t.pairs.vec

/-! ## The parser -/

theorem rest_noNul_isOk (s : Splitter .word) : (s.rest .noNul).1.isOk = true := by
  obtain ⟨w, -, h⟩ := s.rest_of_checkOthers_none (U := .noNul) rfl
  rw [h]
  rfl

/-- `splitter.save_end().until_byte_eq(b';').rest::<NoNul>().unwrap()`. -/
def untilSemicolon (s : Splitter .word) : NoNul × Splitter .word :=
  s.saveEnd fun s =>
    (unwrap ((s.untilByteEq (byte ';')).rest .noNul).1 (rest_noNul_isOk _),
      ((s.untilByteEq (byte ';')).rest .noNul).2)

/-- One pass of the loop of `parse`. -/
def parseBody (st : Splitter .word × List (Key × NoNul)) :
    Pass (Splitter .word × List (Key × NoNul)) (List (Key × NoNul)) :=
  let (splitter, tags) := st
  if splitter.isEmpty then .leave tags
  else
    match splitter.string .key false with
    | (.error _, splitter) => .again (splitter.consumeInvalid .key, tags)
    | (.ok key, splitter) =>
      match splitter.nextByte with
      | (some b, splitter) =>
        if b = byte '=' then
          let (value, splitter) := untilSemicolon splitter
          let (_, splitter) := splitter.nextByte
          .again (splitter, tags ++ [(key, unescape value)])
        else .again (splitter, tags ++ [(key, .empty)])
      | (none, splitter) => .again (splitter, tags ++ [(key, .empty)])

/-- `Tags::parse`, if its loop ends within the given number of passes. -/
def parse (fuel : ℕ) (word : Word) : Option Tags :=
  if word.bytes.isEmpty then some new
  else (Loop.run parseBody fuel (Splitter.new word, [])).map fun tags =>
    ⟨FlatMap.fromVec Prod.fst tags⟩

/-! ## One pass -/

/-- What is left of a text behind a key, and the value of the key: `=` and the bytes up to the next
semicolon, or nothing. -/
def valueText (l : List UInt8) : List UInt8 :=
  match l with
  | b :: l => if b = byte '=' then l.takeWhile (fun c => !(c == byte ';')) else []
  | [] => []

/-- What follows the value of a tag and the `;` behind it. -/
def afterValue (l : List UInt8) : List UInt8 :=
  match l with
  | b :: l => if b = byte '=' then (l.dropWhile fun c => !(c == byte ';')).tail else l
  | [] => []

theorem untilSemicolon_spec {s : Splitter .word} (h : s.Valid) :
    (untilSemicolon s).1.bytes = s.asSlice.takeWhile (fun c => !(c == byte ';')) ∧
      (untilSemicolon s).2.Valid ∧
      (untilSemicolon s).2.asSlice = s.asSlice.dropWhile fun c => !(c == byte ';') := by
  obtain ⟨w, hw, hrest⟩ := (s.untilByteEq (byte ';')).rest_of_checkOthers_none (U := .noNul) rfl
  rw [Splitter.asSlice_untilByteEq] at hw
  have hval : (untilSemicolon s).1 = w :=
    unwrap_eq_of_eq_ok (congrArg Prod.fst hrest) (rest_noNul_isOk _)
  refine ⟨by rw [hval, hw], ?_⟩
  simp only [untilSemicolon, Splitter.saveEnd, hrest]
  exact Splitter.restore_untilByteEq h (congrArg List.length hw)

/-- At the end of the text the loop ends. -/
theorem parseBody_at_end {s : Splitter .word} (h : s.Valid) (hl : s.asSlice = [])
    (tags : List (Key × NoNul)) : parseBody (s, tags) = .leave tags := by
  simp only [parseBody, h.isEmpty_iff.mpr hl, if_true]

theorem parseBody_of_error {s : Splitter .word} {e : InvalidString} (hne : s.isEmpty = false)
    (h : s.string .key false = (.error e, s)) (tags : List (Key × NoNul)) :
    parseBody (s, tags) = .again (s.consumeInvalid .key, tags) := by
  simp only [parseBody, hne, Bool.false_eq_true, if_false, h]

/-- A key was read: what is behind it decides about the value. -/
theorem parseBody_of_ok {s s' : Splitter .word} {key : Key} (hne : s.isEmpty = false)
    (h : s.string .key false = (.ok key, s')) (hs' : s'.Valid) (tags : List (Key × NoNul)) :
    ∃ (value : NoNul) (s'' : Splitter .word),
      parseBody (s, tags) = .again (s'', tags ++ [(key, value)]) ∧ s''.Valid ∧
        value.bytes = unescapeBytes (valueText s'.asSlice) ∧
        s''.asSlice = afterValue s'.asSlice := by
  simp only [parseBody, hne, Bool.false_eq_true, if_false, h]
  cases hl : s'.asSlice with
  | nil =>
    rw [s'.nextByte_of_nil hl]
    exact ⟨.empty, s', rfl, hs', rfl, hl⟩
  | cons b l =>
    have hvalid : (s'.advance 1).Valid := hs'.advance (by simp [hl])
    have hslice : (s'.advance 1).asSlice = l := by
      rw [Splitter.asSlice_advance, hl, List.drop_succ_cons, List.drop_zero]
    rw [s'.nextByte_of_cons hl]
    by_cases hb : b = byte '='
    · obtain ⟨hval, hv₂, hs₂⟩ := untilSemicolon_spec hvalid
      rw [hslice] at hval hs₂
      refine ⟨unescape (untilSemicolon (s'.advance 1)).1,
        (untilSemicolon (s'.advance 1)).2.nextByte.2, ?_, hv₂.nextByte, ?_, ?_⟩
      · simp only [hb, if_true]
      · rw [valueText, if_pos hb, ← hval]
        rfl
      · rw [Splitter.asSlice_nextByte, hs₂, afterValue, if_pos hb]
    · refine ⟨.empty, s'.advance 1, by simp only [hb, if_false], hvalid, ?_, ?_⟩
      · rw [valueText, if_neg hb]
        rfl
      · rw [hslice, afterValue, if_neg hb]

/-- Bytes that no key contains are skipped: the key in front of them is empty. -/
theorem parseBody_at_invalid {s : Splitter .word} {b : UInt8} {l : List UInt8} (h : s.Valid)
    (hl : s.asSlice = b :: l) (hinv : StringType.key.isInvalid b = true)
    (tags : List (Key × NoNul)) :
    parseBody (s, tags) = .again (s.consumeInvalid .key, tags) := by
  have hpre : Splitter.validPrefix .key s.asSlice = [] := by
    rw [hl, Splitter.validPrefix, List.takeWhile_cons_of_neg (by simp [hinv])]
  have herr := Splitter.string_of_checkOthers_some (s := s) (U := .key)
    (e := .empty) (by rw [hpre]; rfl)
  exact parseBody_of_error (h.isEmpty_of_cons hl) herr tags

/-- **A colon where a key should begin**: the key is refused, and the colon is not skipped. -/
theorem parseBody_at_colon {s : Splitter .word} {l : List UInt8} (h : s.Valid)
    (hl : s.asSlice = byte ':' :: l) (tags : List (Key × NoNul)) :
    parseBody (s, tags) = .again (s, tags) := by
  have hpre : Splitter.validPrefix .key s.asSlice = byte ':' :: Splitter.validPrefix .key l := by
    rw [hl]
    rfl
  have herr := Splitter.string_of_checkOthers_some (s := s) (U := .key)
    (e := .colon) (by rw [hpre, StringType.checkOthers_key, argFirstCheck_colon])
  have hsame : s.consumeInvalid .key = s := by
    rw [Splitter.consumeInvalid, Splitter.consumeWhile, hl, List.findIdx?_cons, if_pos (by decide)]
    rfl
  rw [parseBody_of_error (h.isEmpty_of_cons hl) herr tags, hsame]

/-- Any other byte begins a key, which is read with its value. -/
theorem parseBody_at_key {s : Splitter .word} {b : UInt8} {l : List UInt8} (h : s.Valid)
    (hl : s.asSlice = b :: l) (hcolon : b ≠ byte ':') (hkey : StringType.key.isInvalid b = false)
    (tags : List (Key × NoNul)) :
    ∃ (key : Key) (value : NoNul) (s' : Splitter .word),
      parseBody (s, tags) = .again (s', tags ++ [(key, value)]) ∧ s'.Valid ∧
        key.bytes = Splitter.validPrefix .key s.asSlice ∧
        value.bytes = unescapeBytes (valueText (Splitter.afterPrefix .key s.asSlice)) ∧
        s'.asSlice = afterValue (Splitter.afterPrefix .key s.asSlice) := by
  have hpre : Splitter.validPrefix .key s.asSlice = b :: Splitter.validPrefix .key l := by
    rw [hl, Splitter.validPrefix, List.takeWhile_cons_of_pos (by simp [hkey])]
    rfl
  obtain ⟨key, hbytes, hok⟩ := Splitter.string_of_checkOthers_none (s := s) (U := .key)
    (by rw [hpre, StringType.checkOthers_key, argFirstCheck_cons_of_ne hcolon])
  have hle : key.bytes.length ≤ s.asSlice.length := by
    rw [hbytes]
    exact Splitter.length_validPrefix_le _ _
  have hafter : (s.advance key.bytes.length).asSlice = Splitter.afterPrefix .key s.asSlice := by
    rw [hbytes, Splitter.asSlice_advance_validPrefix]
  obtain ⟨value, s', hbody, hs', hval, hslice⟩ :=
    parseBody_of_ok (h.isEmpty_of_cons hl) hok (h.advance hle) tags
  rw [hafter] at hval hslice
  exact ⟨key, value, s', hbody, hs', hbytes, hval, hslice⟩

/-- A text that begins with a key and goes on with what no key goes on with. -/
theorem parseBody_of_key {s : Splitter .word} (h : s.Valid) {key : Key} {after : List UInt8}
    (hs : s.asSlice = key.bytes ++ after)
    (hstop : ∀ b ∈ after.head?, StringType.key.isInvalid b = true) (tags : List (Key × NoNul)) :
    ∃ (value : NoNul) (s' : Splitter .word),
      parseBody (s, tags) = .again (s', tags ++ [(key, value)]) ∧ s'.Valid ∧
        value.bytes = unescapeBytes (valueText after) ∧ s'.asSlice = afterValue after := by
  have hkey : ∀ b ∈ key.bytes, StringType.key.isInvalid b = false := fun b hb =>
    key.isInvalid_eq_false hb
  obtain ⟨b, rest, hb, hcolon⟩ := key.exists_eq_cons rfl
  have hslice : s.asSlice = b :: (rest ++ after) := by rw [hs, hb, List.cons_append]
  have hvalid : StringType.key.isInvalid b = false := hkey b (by rw [hb]; exact List.mem_cons_self)
  obtain ⟨key', value, s', hbody, hs', hkey', hvalue, hafter⟩ :=
    parseBody_at_key h hslice hcolon hvalid tags
  rw [hs, Splitter.validPrefix_append hkey hstop] at hkey'
  rw [hs, Splitter.afterPrefix_append hkey hstop] at hvalue hafter
  obtain rfl : key' = key := Str.ext hkey'
  exact ⟨value, s', hbody, hs', hvalue, hafter⟩

/-- **One pass of the loop.**  It ends at the end of the text; it skips bytes that no key contains;
at a colon it does nothing; otherwise it reads a key and its value. -/
theorem parseBody_cases {s : Splitter .word} (h : s.Valid) (tags : List (Key × NoNul)) :
    (s.asSlice = [] ∧ parseBody (s, tags) = .leave tags) ∨
    (∃ b l, s.asSlice = b :: l ∧ StringType.key.isInvalid b = true ∧
      ∃ s', parseBody (s, tags) = .again (s', tags) ∧ s'.Valid ∧
        s'.asSlice = s.asSlice.dropWhile StringType.key.isInvalid) ∨
    (∃ l, s.asSlice = byte ':' :: l ∧ parseBody (s, tags) = .again (s, tags)) ∨
    (∃ b l, s.asSlice = b :: l ∧ b ≠ byte ':' ∧ StringType.key.isInvalid b = false ∧
      ∃ (key : Key) (value : NoNul) (s' : Splitter .word),
        parseBody (s, tags) = .again (s', tags ++ [(key, value)]) ∧ s'.Valid ∧
        key.bytes = Splitter.validPrefix .key s.asSlice ∧
        value.bytes = unescapeBytes (valueText (Splitter.afterPrefix .key s.asSlice)) ∧
        s'.asSlice = afterValue (Splitter.afterPrefix .key s.asSlice)) := by
  cases hl : s.asSlice with
  | nil => exact .inl ⟨rfl, parseBody_at_end h hl tags⟩
  | cons b l =>
    rw [← hl]
    by_cases hinv : StringType.key.isInvalid b = true
    · exact .inr (.inl ⟨b, l, hl, hinv, _, parseBody_at_invalid h hl hinv tags,
        h.consumeWhile _, s.asSlice_consumeInvalid .key⟩)
    · rw [Bool.not_eq_true] at hinv
      by_cases hcolon : b = byte ':'
      · subst hcolon
        exact .inr (.inr (.inl ⟨l, hl, parseBody_at_colon h hl tags⟩))
      · exact .inr (.inr (.inr ⟨b, l, hl, hcolon, hinv, parseBody_at_key h hl hcolon hinv tags⟩))

/-! ## When the loop ends -/

/-- No key begins with a colon: in each part between semicolons, the first byte behind leading
equals signs is not one. -/
def NoColonKey (l : List UInt8) : Prop :=
  ∀ part ∈ l.splitOn (byte ';'), (part.dropWhile (· == byte '=')).head? ≠ some (byte ':')

instance (l : List UInt8) : Decidable (NoColonKey l) :=
  inferInstanceAs (Decidable (∀ part ∈ l.splitOn (byte ';'), _))

theorem noColonKey_nil : NoColonKey [] := by
  simp [NoColonKey]

theorem noColonKey_semicolon (l : List UInt8) :
    NoColonKey (byte ';' :: l) ↔ NoColonKey l := by
  simp [NoColonKey, List.splitOn_cons_eq_if_modifyHead]

/-- The parts of a text with one byte more in front: the byte joins the first part. -/
theorem exists_splitOn_cons {b : UInt8} (hb : b ≠ byte ';') (l : List UInt8) :
    ∃ part parts, l.splitOn (byte ';') = part :: parts ∧
      (b :: l).splitOn (byte ';') = (b :: part) :: parts := by
  obtain ⟨part, parts, h⟩ := List.exists_cons_of_ne_nil (List.splitOn_ne_nil (byte ';') l)
  refine ⟨part, parts, h, ?_⟩
  rw [List.splitOn_cons_eq_if_modifyHead, if_neg (by simpa using hb), h, List.modifyHead_cons]

theorem noColonKey_equals (l : List UInt8) : NoColonKey (byte '=' :: l) ↔ NoColonKey l := by
  obtain ⟨part, parts, hl, hbl⟩ := exists_splitOn_cons (b := byte '=') (by decide) l
  rw [NoColonKey, NoColonKey, hl, hbl, List.forall_mem_cons, List.forall_mem_cons,
    List.dropWhile_cons_of_pos (by simp)]

theorem not_noColonKey_colon (l : List UInt8) : ¬ NoColonKey (byte ':' :: l) := by
  obtain ⟨part, parts, -, hbl⟩ := exists_splitOn_cons (b := byte ':') (by decide) l
  intro h
  refine h (byte ':' :: part) (by rw [hbl]; exact List.mem_cons_self) ?_
  rw [List.dropWhile_cons_of_neg (by decide), List.head?_cons]

/-- A text whose first part begins with a byte of a key. -/
theorem noColonKey_append {b : UInt8} {p q : List UInt8} (hb : b ≠ byte '=') (hc : b ≠ byte ':')
    (hp : byte ';' ∉ b :: p) (hq : ∀ c ∈ q.head?, c = byte ';') :
    NoColonKey (b :: p ++ q) ↔ NoColonKey q.tail := by
  have hpart : ((b :: p).dropWhile (· == byte '=')).head? ≠ some (byte ':') := by
    rw [List.dropWhile_cons_of_neg (by simpa using hb), List.head?_cons]
    simpa using hc
  cases q with
  | nil =>
    rw [List.append_nil, NoColonKey, List.splitOn_eq_singleton hp, List.tail_nil,
      iff_true_right noColonKey_nil]
    simpa using hpart
  | cons c q =>
    obtain rfl : c = byte ';' := hq c rfl
    rw [NoColonKey, List.splitOn_append_cons_self_of_not_mem hp, List.forall_mem_cons,
      List.tail_cons, and_iff_right hpart, NoColonKey]

theorem isInvalid_key_iff {b : UInt8} (hb : StringType.word.isInvalid b = false) :
    StringType.key.isInvalid b = true ↔ b = byte '=' ∨ b = byte ';' := by
  have hw : isInvalidForWord true b = false := hb
  show isInvalidForKey true b = true ↔ _
  simp [isInvalidForKey, hw]

/-- Skipping bytes that no key contains does not matter. -/
theorem noColonKey_dropWhile {l : List UInt8} (hl : ∀ b ∈ l, StringType.word.isInvalid b = false) :
    NoColonKey (l.dropWhile StringType.key.isInvalid) ↔ NoColonKey l := by
  induction l with
  | nil => rfl
  | cons b l ih =>
    by_cases hb : StringType.key.isInvalid b = true
    · rw [List.dropWhile_cons_of_pos hb, ih fun c hc => hl c (List.mem_cons_of_mem _ hc)]
      rcases (isInvalid_key_iff (hl b List.mem_cons_self)).mp hb with rfl | rfl
      · exact (noColonKey_equals l).symm
      · exact (noColonKey_semicolon l).symm
    · rw [List.dropWhile_cons_of_neg hb]

/-- Reading a key and its value takes a text to behind its first semicolon. -/
theorem exists_eq_append_afterValue {b : UInt8} {l : List UInt8}
    (hl : ∀ c ∈ b :: l, StringType.word.isInvalid c = false)
    (hkey : StringType.key.isInvalid b = false) :
    ∃ p q, b :: l = b :: p ++ q ∧ byte ';' ∉ b :: p ∧ (∀ c ∈ q.head?, c = byte ';') ∧
      afterValue (Splitter.afterPrefix .key (b :: l)) = q.tail := by
  set p := Splitter.validPrefix .key l with hp
  set r := Splitter.afterPrefix .key (b :: l) with hr
  have hbp : Splitter.validPrefix .key (b :: l) = b :: p := by
    rw [Splitter.validPrefix, List.takeWhile_cons_of_pos (by simp [hkey])]
    rfl
  have hsplit : b :: l = b :: p ++ r := by
    rw [← hbp]
    exact List.takeWhile_append_dropWhile.symm
  have hpvalid : ∀ c ∈ b :: p, StringType.key.isInvalid c = false :=
    hbp ▸ Splitter.isInvalid_validPrefix .key (b :: l)
  have hpsemi : byte ';' ∉ b :: p := fun hmem => absurd (hpvalid _ hmem) (by decide)
  have hrinv : ∀ c ∈ r.head?, StringType.key.isInvalid c = true := fun c hc => by
    simpa using head?_dropWhile_eq_false hc
  cases hrc : r with
  | nil => exact ⟨p, [], by rw [hsplit, hrc], hpsemi, by simp, rfl⟩
  | cons c r' =>
    rw [hrc] at hsplit hrinv
    by_cases hc : c = byte '='
    · subst hc
      refine ⟨p ++ byte '=' :: r'.takeWhile (fun c => !(c == byte ';')),
        r'.dropWhile (fun c => !(c == byte ';')), ?_, ?_, ?_, ?_⟩
      · rw [hsplit]
        simp [List.takeWhile_append_dropWhile]
      · rw [← List.cons_append]
        intro hmem
        rcases List.mem_append.mp hmem with hmem | hmem
        · exact hpsemi hmem
        · rcases List.mem_cons.mp hmem with hmem | hmem
          · exact absurd hmem (by decide)
          · exact absurd (List.mem_takeWhile_imp hmem) (by simp)
      · intro c hc
        simpa using head?_dropWhile_eq_false hc
      · rw [afterValue, if_pos rfl]
    · have hmem : c ∈ b :: l := by rw [hsplit]; simp
      have hsemi : c = byte ';' :=
        ((isInvalid_key_iff (hl c hmem)).mp (hrinv c rfl)).resolve_left hc
      refine ⟨p, c :: r', hsplit, hpsemi, by simp [hsemi], ?_⟩
      rw [afterValue, if_neg hc, List.tail_cons]

/-- **A pass that is not the last** either repeats its state, at a colon where a key should begin,
or shortens the text and keeps what was to be known about colons. -/
theorem parseBody_again {s s' : Splitter .word} {tags tags' : List (Key × NoNul)} (h : s.Valid)
    (hb : parseBody (s, tags) = .again (s', tags')) :
    s'.Valid ∧
      (((s', tags') = (s, tags) ∧ ¬ NoColonKey s.asSlice) ∨
        (s'.asSlice.length < s.asSlice.length ∧
          (NoColonKey s'.asSlice ↔ NoColonKey s.asSlice))) := by
  have hword : ∀ c ∈ s.asSlice, StringType.word.isInvalid c = false := s.isInvalid_asSlice
  rcases parseBody_cases h tags with ⟨-, hbody⟩ | ⟨b, l, hl, hinv, s₁, hbody, hvalid, hslice⟩ |
      ⟨l, hl, hbody⟩ | ⟨b, l, hl, hcolon, hkey, key, value, s₁, hbody, hvalid, -, -, hslice⟩
  · rw [hbody] at hb
    exact absurd hb (by simp)
  · rw [hbody, Pass.again.injEq, Prod.mk.injEq] at hb
    obtain ⟨rfl, rfl⟩ := hb
    refine ⟨hvalid, .inr ⟨?_, by rw [hslice, noColonKey_dropWhile hword]⟩⟩
    rw [hslice, hl, List.dropWhile_cons_of_pos hinv, List.length_cons]
    exact Nat.lt_succ_of_le (List.dropWhile_sublist _).length_le
  · rw [hbody, Pass.again.injEq] at hb
    refine ⟨?_, .inl ⟨hb.symm, by rw [hl]; exact not_noColonKey_colon l⟩⟩
    rw [Prod.mk.injEq] at hb
    exact hb.1 ▸ h
  · rw [hbody, Pass.again.injEq, Prod.mk.injEq] at hb
    obtain ⟨rfl, rfl⟩ := hb
    rw [hl] at hword
    obtain ⟨p, q, hsplit, hsemi, hq, hafter⟩ := exists_eq_append_afterValue hword hkey
    have hne : b ≠ byte '=' := by
      rintro rfl
      exact absurd hkey (by decide)
    rw [hslice, hl, hafter]
    refine ⟨hvalid, .inr ⟨?_, ?_⟩⟩
    · rw [hsplit, List.length_append, List.length_cons, List.length_tail]
      omega
    · rw [hsplit, noColonKey_append hne hcolon hsemi hq]

/-- The loop of `parse` shortens the text on every pass that it makes. -/
def Shortens (word : Word) : Prop :=
  ∀ a b, Loop.Heads parseBody (Splitter.new word, []) a → parseBody a = .again b →
    b.1.asSlice.length < a.1.asSlice.length

/-- Texts without a key that begins with a colon, at the head of the loop. -/
theorem invariant_of_noColonKey {a b : Splitter .word × List (Key × NoNul)}
    (ha : a.1.Valid ∧ NoColonKey a.1.asSlice) (hb : parseBody a = .again b) :
    (b.1.Valid ∧ NoColonKey b.1.asSlice) ∧ b.1.asSlice.length < a.1.asSlice.length := by
  obtain ⟨s', tags'⟩ := b
  obtain ⟨hvalid, ⟨-, hno⟩ | ⟨hlt, hiff⟩⟩ := parseBody_again ha.1 hb
  · exact absurd ha.2 hno
  · exact ⟨⟨hvalid, hiff.mpr ha.2⟩, hlt⟩

/-- **A key that begins with a colon is where the loop gets stuck.** -/
theorem exists_stuck_head {s : Splitter .word} (h : s.Valid) (hno : ¬ NoColonKey s.asSlice)
    (tags : List (Key × NoNul)) :
    ∃ a, Loop.Heads parseBody (s, tags) a ∧ parseBody a = .again a := by
  generalize hn : s.asSlice.length = n
  induction n using Nat.strong_induction_on generalizing s tags with
  | _ n ih =>
    cases hb : parseBody (s, tags) with
    | leave r =>
      -- the loop is left at the end of the text only
      have hnil : s.asSlice = [] := by
        rcases parseBody_cases h tags with ⟨hnil, -⟩ | ⟨b, l, -, -, s₁, hbody, -⟩ | ⟨l, -, hbody⟩ |
            ⟨b, l, -, -, -, key, value, s₁, hbody, -⟩
        · exact hnil
        all_goals
          rw [hbody] at hb
          exact absurd hb (by simp)
      exact absurd (hnil ▸ noColonKey_nil) hno
    | again b =>
      obtain ⟨s', tags'⟩ := b
      obtain ⟨hvalid, ⟨hsame, -⟩ | ⟨hlt, hiff⟩⟩ := parseBody_again h hb
      · rw [hsame] at hb
        exact ⟨(s, tags), .refl, hb⟩
      · obtain ⟨a, hhead, hstuck⟩ :=
          ih s'.asSlice.length (hn ▸ hlt) hvalid (mt hiff.mp hno) tags' rfl
        exact ⟨a, .head hb hhead, hstuck⟩

/-- **When the loop ends.** -/
theorem terminates_iff (word : Word) :
    Loop.Terminates parseBody (Splitter.new word, []) ↔ NoColonKey word.bytes := by
  have hvalid := Splitter.valid_new word
  rw [← Splitter.asSlice_new word]
  constructor
  · intro hterm
    by_contra hno
    obtain ⟨a, hhead, hstuck⟩ := exists_stuck_head hvalid hno []
    exact Loop.not_terminates_of_again_self hstuck (hterm.of_heads hhead)
  · intro hno
    exact Loop.terminates_of_decreasing (fun a => a.1.Valid ∧ NoColonKey a.1.asSlice)
      (fun a => a.1.asSlice.length)
      (fun a b ha hb => invariant_of_noColonKey ha hb) ⟨hvalid, hno⟩

/-- **When every pass shortens the text.** -/
theorem shortens_iff (word : Word) : Shortens word ↔ NoColonKey word.bytes := by
  have hvalid := Splitter.valid_new word
  rw [← Splitter.asSlice_new word]
  constructor
  · intro hshort
    by_contra hno
    obtain ⟨a, hhead, hstuck⟩ := exists_stuck_head hvalid hno []
    exact absurd (hshort a a hhead hstuck) (lt_irrefl _)
  · intro hno a b hhead hb
    have hinv : a.1.Valid ∧ NoColonKey a.1.asSlice := by
      clear hb
      induction hhead with
      | refl => exact ⟨hvalid, hno⟩
      | tail _ hstep ih => exact (invariant_of_noColonKey ih hstep).1
    exact (invariant_of_noColonKey hinv hb).2

/-- **`Tags::parse` returns exactly on such texts.** -/
theorem exists_parse_iff (word : Word) :
    (∃ fuel tags, parse fuel word = some tags) ↔ NoColonKey word.bytes := by
  by_cases hempty : word.bytes = []
  · have : parse 0 word = some new := by simp [parse, hempty]
    rw [hempty]
    exact iff_of_true ⟨0, new, this⟩ noColonKey_nil
  · rw [← terminates_iff]
    constructor
    · rintro ⟨fuel, tags, h⟩
      simp only [parse, List.isEmpty_iff, hempty, if_false] at h
      obtain ⟨r, hr, -⟩ := Option.map_eq_some_iff.mp h
      exact ⟨r, fuel, hr⟩
    · rintro ⟨r, fuel, hr⟩
      refine ⟨fuel, ⟨FlatMap.fromVec Prod.fst r⟩, ?_⟩
      simp only [parse, List.isEmpty_iff, hempty, if_false, hr, Option.map_some]

/-- The result does not depend on the number of passes. -/
theorem parse_unique {fuel fuel' : ℕ} {word : Word} {tags tags' : Tags}
    (h : parse fuel word = some tags) (h' : parse fuel' word = some tags') : tags = tags' := by
  unfold parse at h h'
  by_cases hempty : word.bytes.isEmpty
  · rw [if_pos hempty] at h h'
    exact (Option.some.inj h).symm.trans (Option.some.inj h')
  · rw [if_neg hempty] at h h'
    obtain ⟨r, hr, htags⟩ := Option.map_eq_some_iff.mp h
    obtain ⟨r', hr', htags'⟩ := Option.map_eq_some_iff.mp h'
    have hrr' : r = r' := Loop.Returns.unique ⟨fuel, hr⟩ ⟨fuel', hr'⟩
    rw [← htags, ← htags', hrr']

end Tags

end Vinezombie
