import Vinezombie.Message.Tags

/-!
# Tags, written and parsed

`Tags::parse` on what `Tags::write_to` emits.  The keys and the boundaries of the values always come
back, because a written value contains neither a semicolon nor a byte that ends a word; whether a
value comes back is a matter of `escape` and `unescape`.

* `writePairs_valid`: the bytes that are written.
* `parse_text`: the parser finds the keys that were written, each with its value written and read.
* `parse_text_eq_iff`: it finds the tags that were written exactly when every value survives.
-/

namespace Vinezombie

open Library Library.KeyedList Library.Scan

namespace Tags

/-! ## The text -/

/-- What `write_to` writes for one pair. -/
def pairText (p : Key × NoNul) : List UInt8 :=
  p.1.bytes ++ if p.2.bytes.isEmpty then [] else text "=" ++ (escape p.2).bytes

theorem writePairs_cons (pre : List UInt8) (p : Key × NoNul) (ps : List (Key × NoNul)) :
    writePairs pre (p :: ps) = pre ++ (pairText p ++ writePairs (text ";") ps) := by
  simp only [writePairs, pairText, List.append_assoc]

theorem pairText_valid {p : Key × NoNul} {b : UInt8} (hb : b ∈ pairText p) :
    b ≠ byte ';' ∧ StringType.word.isInvalid b = false := by
  rcases List.mem_append.mp hb with hb | hb
  · have hkey : isInvalidForKey true b = false := p.1.isInvalid_eq_false hb
    exact ⟨(isInvalidForKey_eq_false.mp hkey).2.1, (isInvalidForKey_eq_false.mp hkey).2.2⟩
  · split at hb
    · exact absurd hb (by simp)
    · rcases List.mem_append.mp hb with hb | hb
      · obtain rfl : b = byte '=' := by simpa [text] using hb
        decide
      · exact escapeBytes_valid (fun _ => p.2.ne_zero) hb

/-- **The bytes that are written** are bytes of a word. -/
theorem writePairs_valid {c : UInt8} (hc : StringType.word.isInvalid c = false)
    (ps : List (Key × NoNul)) : ∀ b ∈ writePairs [c] ps, StringType.word.isInvalid b = false := by
  intro b hb
  induction ps generalizing c with
  | nil => exact absurd hb (by simp [writePairs])
  | cons p ps ih =>
    rw [writePairs_cons] at hb
    rcases List.mem_append.mp hb with hb | hb
    · rw [List.mem_singleton.mp hb]
      exact hc
    · rcases List.mem_append.mp hb with hb | hb
      · exact (pairText_valid hb).2
      · exact ih (c := byte ';') (by decide) hb

/-- The text of the tags: what `write_to` writes, without the leading `@`. -/
def toWord (t : Tags) : Word where
  bytes := t.writeTo.tail
  valid := StringType.word.findInvalid_eq_none_iff.mpr
    ⟨rfl, fun b hb => writePairs_valid (c := byte '@') (by decide) t.pairs.vec b
      (List.mem_of_mem_tail hb)⟩

/-- The leading byte of the text depends on the prefix alone. -/
theorem tail_writePairs (c : UInt8) (ps : List (Key × NoNul)) :
    (writePairs [c] ps).tail = (writePairs (text ";") ps).tail := by
  cases ps with
  | nil => rfl
  | cons p ps =>
    rw [writePairs_cons, writePairs_cons]
    rfl

theorem head?_writePairs {ps : List (Key × NoNul)} {b : UInt8}
    (hb : b ∈ (writePairs (text ";") ps).head?) : b = byte ';' := by
  cases ps with
  | nil => exact absurd hb (by simp [writePairs])
  | cons p ps =>
    rw [writePairs_cons] at hb
    exact (Option.some.inj hb).symm

/-! ## Reading it -/

/-- A value, written and read. -/
def reread (value : NoNul) : NoNul := unescape (escape value).toNoNul

/-- What the parser finds behind a key. -/
theorem valueText_pair (value : NoNul) (ps : List (Key × NoNul)) :
    unescapeBytes (valueText ((if value.bytes.isEmpty then [] else
        text "=" ++ (escape value).bytes) ++ writePairs (text ";") ps)) = (reread value).bytes ∧
      afterValue ((if value.bytes.isEmpty then [] else
        text "=" ++ (escape value).bytes) ++ writePairs (text ";") ps) =
          (writePairs (text ";") ps).tail := by
  set rest := writePairs (text ";") ps with hrest
  have hhead : ∀ b ∈ rest.head?, b = byte ';' := fun b hb => head?_writePairs hb
  split
  · rename_i hempty
    have hreread : (reread value).bytes = unescapeBytes (escapeBytes value.bytes) := rfl
    rw [hreread, List.isEmpty_iff.mp hempty, List.nil_append]
    cases hr : rest with
    | nil => exact ⟨rfl, rfl⟩
    | cons b l =>
      have hb : b ≠ byte '=' := by
        rw [hhead b (by rw [hr]; rfl)]
        decide
      rw [valueText, if_neg hb, afterValue, if_neg hb]
      exact ⟨rfl, rfl⟩
  · have hesc : ∀ b ∈ (escape value).bytes, (!(b == byte ';')) = true := fun b hb => by
      simpa using (escapeBytes_valid (fun _ => value.ne_zero) hb).1
    have hstop : ∀ b ∈ rest.head?, (!(b == byte ';')) = false := fun b hb => by
      simpa using hhead b hb
    have hcons : text "=" ++ (escape value).bytes ++ rest =
        byte '=' :: ((escape value).bytes ++ rest) := rfl
    rw [hcons, valueText, if_pos rfl, afterValue, if_pos rfl, takeWhile_append_of_stop hesc hstop,
      dropWhile_append_of_stop hesc hstop]
    exact ⟨rfl, rfl⟩

/-- **One pass over a written pair.** -/
theorem parseBody_pair {s : Splitter .word} (h : s.Valid) (tags : List (Key × NoNul))
    (p : Key × NoNul) (ps : List (Key × NoNul))
    (hs : s.asSlice = pairText p ++ writePairs (text ";") ps) :
    ∃ s', parseBody (s, tags) = .again (s', tags ++ [(p.1, reread p.2)]) ∧ s'.Valid ∧
      s'.asSlice = (writePairs (text ";") ps).tail := by
  obtain ⟨key, value⟩ := p
  rw [pairText, List.append_assoc] at hs
  obtain ⟨hval, hafter⟩ := valueText_pair value ps
  set rest := (if value.bytes.isEmpty then [] else text "=" ++ (escape value).bytes) ++
    writePairs (text ";") ps with hrest
  have hstop : ∀ b ∈ rest.head?, StringType.key.isInvalid b = true := by
    intro b hb
    rw [hrest] at hb
    split at hb
    · rw [head?_writePairs hb]
      decide
    · obtain rfl : byte '=' = b := Option.some.inj hb
      decide
  obtain ⟨value', s', hbody, hvalid, hval', hslice⟩ := parseBody_of_key h hs hstop tags
  obtain rfl : value' = reread value := Str.ext (hval'.trans hval)
  exact ⟨s', hbody, hvalid, hslice.trans hafter⟩

/-- **The loop over the written pairs.** -/
theorem returns_writePairs (ps : List (Key × NoNul)) {s : Splitter .word}
    (tags : List (Key × NoNul)) (h : s.Valid)
    (hs : s.asSlice = (writePairs (text ";") ps).tail) :
    Loop.Returns parseBody (s, tags) (tags ++ ps.map fun p => (p.1, reread p.2)) := by
  induction ps generalizing s tags with
  | nil =>
    rw [List.map_nil, List.append_nil]
    exact Loop.returns_leave (parseBody_at_end h hs tags)
  | cons p ps ih =>
    rw [writePairs_cons] at hs
    obtain ⟨s', hbody, hvalid, hslice⟩ := parseBody_pair h tags p ps hs
    have hrest := ih (tags ++ [(p.1, reread p.2)]) hvalid hslice
    rw [List.append_assoc, List.singleton_append] at hrest
    rw [Loop.returns_again_iff hbody, List.map_cons]
    exact hrest

/-- **The parser on written tags.** -/
theorem parse_text (t : Tags) :
    ∃ fuel, parse fuel t.toWord =
      some ⟨FlatMap.fromVec Prod.fst (t.pairs.vec.map fun p => (p.1, reread p.2))⟩ := by
  by_cases hempty : t.toWord.bytes = []
  · have hvec : t.pairs.vec = [] := by
      cases hv : t.pairs.vec with
      | nil => rfl
      | cons p ps =>
        obtain ⟨c, cs, hc, -⟩ := p.1.exists_eq_cons rfl
        have htail : t.toWord.bytes = pairText p ++ writePairs (text ";") ps := by
          show (writePairs (text "@") t.pairs.vec).tail = _
          rw [hv, writePairs_cons]
          rfl
        rw [htail, pairText, hc] at hempty
        exact absurd hempty (by simp)
    refine ⟨0, ?_⟩
    simp only [parse, hempty, List.isEmpty_nil, if_true, hvec, List.map_nil,
      FlatMap.fromVec_of_strictSorted strictSorted_nil]
    rfl
  · obtain ⟨fuel, hr⟩ := returns_writePairs t.pairs.vec [] (Splitter.valid_new t.toWord)
      ((Splitter.asSlice_new _).trans (tail_writePairs (byte '@') t.pairs.vec))
    refine ⟨fuel, ?_⟩
    simp only [parse, List.isEmpty_iff, hempty, if_false, hr, Option.map_some, List.nil_append]

/-- The pairs of strictly sorted tags, written and read, are strictly sorted. -/
theorem fromVec_reread {t : Tags} (h : StrictSorted Prod.fst t.pairs.vec) :
    FlatMap.fromVec Prod.fst (t.pairs.vec.map fun p => (p.1, reread p.2)) =
      ⟨t.pairs.vec.map fun p => (p.1, reread p.2)⟩ :=
  FlatMap.fromVec_of_strictSorted (List.pairwise_map.mpr h)

theorem reread_eq_iff (value : NoNul) : reread value = value ↔ SurvivesEscape value.bytes := by
  rw [Str.ext_iff]
  exact unescapeBytes_escapeBytes_iff value.bytes

/-- **Tags survive being written and parsed exactly when all their values do.** -/
theorem parse_text_eq_iff (t : Tags) (h : StrictSorted Prod.fst t.pairs.vec) :
    (∃ fuel, parse fuel t.toWord = some t) ↔ ∀ p ∈ t.pairs.vec, SurvivesEscape p.2.bytes := by
  obtain ⟨fuel, hfuel⟩ := parse_text t
  rw [fromVec_reread h] at hfuel
  have hiff : (∃ fuel, parse fuel t.toWord = some t) ↔
      (t.pairs.vec.map fun p => (p.1, reread p.2)) = t.pairs.vec := by
    constructor
    · rintro ⟨fuel', hfuel'⟩
      have heq := parse_unique hfuel hfuel'
      rw [Tags.ext_iff, FlatMap.ext_iff] at heq
      exact heq
    · intro heq
      rw [heq] at hfuel
      exact ⟨fuel, hfuel⟩
  have hmap : (t.pairs.vec.map fun p => (p.1, reread p.2)) = t.pairs.vec.map id ↔
      ∀ p ∈ t.pairs.vec, (p.1, reread p.2) = id p := List.map_inj_left
  rw [List.map_id] at hmap
  rw [hiff, hmap]
  refine forall₂_congr fun p hp => ?_
  rw [← reread_eq_iff, Prod.ext_iff]
  simp

/-- A value with a backslash in it that comes back. -/
theorem parse_text_backslash :
    ∃ fuel, parse fuel (toWord ⟨⟨[(.fromStr "a", .fromStr "x\\y")]⟩⟩) =
      some ⟨⟨[(.fromStr "a", .fromStr "x\\y")]⟩⟩ :=
  (parse_text_eq_iff ⟨⟨[(.fromStr "a", .fromStr "x\\y")]⟩⟩
    (List.pairwise_singleton _ _)).mpr (by decide +kernel)

/-- **A value that does not come back**: a semicolon is written as a backslash and a colon, and read
as these two bytes. -/
theorem not_parse_text_semicolon :
    StrictSorted Prod.fst [((.fromStr "a" : Key), (.fromStr ";" : NoNul))] ∧
      ¬ ∃ fuel, parse fuel (toWord ⟨⟨[(.fromStr "a", .fromStr ";")]⟩⟩) =
        some ⟨⟨[(.fromStr "a", .fromStr ";")]⟩⟩ := by
  refine ⟨List.pairwise_singleton _ _, ?_⟩
  rintro ⟨fuel, hfuel⟩
  have hread : parse 2 (toWord ⟨⟨[(.fromStr "a", .fromStr ";")]⟩⟩) =
      some ⟨⟨[(.fromStr "a", .fromStr "\\:")]⟩⟩ := by
    decide +kernel
  have heq := parse_unique hread hfuel
  revert heq
  decide

end Tags

end Vinezombie
