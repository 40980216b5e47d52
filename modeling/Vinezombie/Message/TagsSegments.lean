import Vinezombie.Message.Tags
import Vinezombie.Util.FlatMapDedup

/-!
# Tag text in segments

`Tags::parse` on any text made of segments between semicolons, each of them empty, a key, or a key
with a raw value.  A raw value may hold any bytes of a word but a semicolon.  The loop does not go
segment by segment: all semicolons between two keys are skipped in one pass, those of empty segments
among them.

* `dropWhile_joined`: what is skipped in front of a key.
* `returns_joined`: the loop over the segments.
* `parse_segments`: what the parser returns.
-/

namespace Vinezombie

open Library Library.KeyedList Library.Scan

namespace Tags

/-- A segment of tag text. -/
inductive Segment where
  | empty
  | keyOnly (key : Key)
  | keyValue (key : Key) (raw : Word) (noSemicolon : byte ';' ∉ raw.bytes)

namespace Segment

/-- `key`, or `key=raw`. -/
def bytes : Segment → List UInt8
  | .empty => []
  | .keyOnly key => key.bytes
  | .keyValue key raw _ => key.bytes ++ text "=" ++ raw.bytes

/-- The key of a segment, with the value that it is given. -/
def pair : Segment → Option (Key × NoNul)
  | .empty => none
  | .keyOnly key => some (key, .empty)
  | .keyValue key raw _ => some (key, unescape raw.toNoNul)

theorem isInvalid_bytes (seg : Segment) : ∀ b ∈ seg.bytes, StringType.word.isInvalid b = false := by
  have hkey : ∀ key : Key, ∀ b ∈ key.bytes, StringType.word.isInvalid b = false := fun key b hb =>
    Str.Conv.byte_valid (T := .key) b (key.isInvalid_eq_false hb)
  cases seg with
  | empty => simp [bytes]
  | keyOnly key => exact hkey key
  | keyValue key raw _ =>
    intro b hb
    rcases List.mem_append.mp hb with hb | hb
    · rcases List.mem_append.mp hb with hb | hb
      · exact hkey key b hb
      · obtain rfl : b = byte '=' := by simpa [text] using hb
        decide
    · exact raw.isInvalid_eq_false hb

end Segment

/-! ## The text -/

/-- The segments with semicolons between them. -/
def joined : List Segment → List UInt8
  | [] => []
  | [seg] => seg.bytes
  | seg :: segs => seg.bytes ++ byte ';' :: joined segs

/-- What follows a segment. -/
def behind : List Segment → List UInt8
  | [] => []
  | segs => byte ';' :: joined segs

theorem joined_cons (seg : Segment) (segs : List Segment) :
    joined (seg :: segs) = seg.bytes ++ behind segs := by
  cases segs with
  | nil => exact (List.append_nil _).symm
  | cons next segs => rfl

theorem tail_behind (segs : List Segment) : (behind segs).tail = joined segs := by
  cases segs with
  | nil => rfl
  | cons next segs => rfl

theorem head?_behind {segs : List Segment} {b : UInt8} (hb : b ∈ (behind segs).head?) :
    b = byte ';' := by
  cases segs with
  | nil => exact absurd hb (by simp [behind])
  | cons next segs => exact (Option.some.inj hb).symm

theorem isInvalid_joined (segs : List Segment) :
    ∀ b ∈ joined segs, StringType.word.isInvalid b = false := by
  induction segs with
  | nil => simp [joined]
  | cons seg segs ih =>
    intro b hb
    rw [joined_cons] at hb
    rcases List.mem_append.mp hb with hb | hb
    · exact seg.isInvalid_bytes b hb
    · cases segs with
      | nil => exact absurd hb (by simp [behind])
      | cons next segs =>
        rcases List.mem_cons.mp hb with rfl | hb
        · decide
        · exact ih b hb

/-- The segments as the word that is parsed. -/
def joinedWord (segs : List Segment) : Word :=
  ⟨joined segs, StringType.word.findInvalid_eq_none_iff.mpr ⟨rfl, isInvalid_joined segs⟩⟩

/-! ## The loop -/

/-- A segment with a key begins with a byte of the key. -/
theorem exists_bytes_eq_cons {seg : Segment} {p : Key × NoNul} (h : seg.pair = some p) :
    ∃ b rest, seg.bytes = b :: rest ∧ StringType.key.isInvalid b = false := by
  have hkey : ∀ key : Key, ∃ b rest, key.bytes = b :: rest ∧
      StringType.key.isInvalid b = false := by
    intro key
    obtain ⟨b, rest, hb, -⟩ := key.exists_eq_cons rfl
    exact ⟨b, rest, hb, key.isInvalid_eq_false (by rw [hb]; exact List.mem_cons_self)⟩
  cases seg with
  | empty => exact absurd h (by simp [Segment.pair])
  | keyOnly key => exact hkey key
  | keyValue key raw _ =>
    obtain ⟨b, rest, hb, hvalid⟩ := hkey key
    exact ⟨b, rest ++ text "=" ++ raw.bytes, by simp [Segment.bytes, hb], hvalid⟩

/-- **Skipping** takes the loop behind the empty segments. -/
theorem dropWhile_joined (segs : List Segment) :
    (joined segs).dropWhile StringType.key.isInvalid =
      joined (segs.dropWhile fun seg => seg.pair.isNone) := by
  induction segs with
  | nil => rfl
  | cons seg segs ih =>
    cases hp : seg.pair with
    | some p =>
      obtain ⟨b, rest, hb, hvalid⟩ := exists_bytes_eq_cons hp
      rw [List.dropWhile_cons_of_neg (by simp [hp]), joined_cons, hb, List.cons_append,
        List.dropWhile_cons_of_neg (by simp [hvalid])]
    | none =>
      have hempty : seg.bytes = [] := by
        cases seg with
        | empty => rfl
        | keyOnly key => exact absurd hp (by simp [Segment.pair])
        | keyValue key raw _ => exact absurd hp (by simp [Segment.pair])
      rw [List.dropWhile_cons_of_pos (by simp [hp]), joined_cons, hempty, List.nil_append, ← ih]
      cases segs with
      | nil => rfl
      | cons next segs => exact List.dropWhile_cons_of_pos (by decide)

/-- **One pass over a segment with a key.** -/
theorem parseBody_segment {s : Splitter .word} (h : s.Valid) (tags : List (Key × NoNul))
    {seg : Segment} {p : Key × NoNul} (hp : seg.pair = some p) (segs : List Segment)
    (hs : s.asSlice = joined (seg :: segs)) :
    ∃ s', parseBody (s, tags) = .again (s', tags ++ [p]) ∧ s'.Valid ∧
      s'.asSlice = joined segs := by
  cases seg with
  | empty => exact absurd hp (by simp [Segment.pair])
  | keyOnly key =>
    obtain rfl : (key, .empty) = p := Option.some.inj hp
    have hstop : ∀ c ∈ (behind segs).head?, StringType.key.isInvalid c = true := fun c hc => by
      rw [head?_behind hc]
      decide
    obtain ⟨value, s', hbody, hvalid, hvalue, hafter⟩ :=
      parseBody_of_key h (hs.trans (joined_cons _ segs)) hstop tags
    have hnone : valueText (behind segs) = [] ∧
        afterValue (behind segs) = (behind segs).tail := by
      cases segs with
      | nil => exact ⟨rfl, rfl⟩
      | cons next segs => exact ⟨rfl, rfl⟩
    rw [hnone.1] at hvalue
    rw [hnone.2, tail_behind] at hafter
    obtain rfl : value = .empty := Str.ext hvalue
    exact ⟨s', hbody, hvalid, hafter⟩
  | keyValue key raw hraw =>
    obtain rfl : (key, unescape raw.toNoNul) = p := Option.some.inj hp
    have hslice : s.asSlice = key.bytes ++ byte '=' :: (raw.bytes ++ behind segs) := by
      rw [hs, joined_cons]
      simp [Segment.bytes, text]
    obtain ⟨value, s', hbody, hvalid, hvalue, hafter⟩ :=
      parseBody_of_key h hslice (fun c hc => by rw [← Option.some.inj hc]; decide) tags
    have hne : ∀ c ∈ raw.bytes, (!(c == byte ';')) = true := fun c hc => by
      simpa using fun hcs : c = byte ';' => hraw (hcs ▸ hc)
    have hstop : ∀ c ∈ (behind segs).head?, (!(c == byte ';')) = false := fun c hc => by
      simpa using head?_behind hc
    rw [valueText, if_pos rfl, takeWhile_append_of_stop hne hstop] at hvalue
    rw [afterValue, if_pos rfl, dropWhile_append_of_stop hne hstop, tail_behind] at hafter
    obtain rfl : value = unescape raw.toNoNul := Str.ext hvalue
    exact ⟨s', hbody, hvalid, hafter⟩

theorem filterMap_dropWhile_isNone {α β : Type} (f : α → Option β) (l : List α) :
    (l.dropWhile fun a => (f a).isNone).filterMap f = l.filterMap f := by
  induction l with
  | nil => rfl
  | cons a l ih =>
    cases h : f a with
    | none => rw [List.dropWhile_cons_of_pos (by simp [h]), ih, List.filterMap_cons_none h]
    | some b => rw [List.dropWhile_cons_of_neg (by simp [h])]

/-- **The loop over the segments** finds the keys in their order, each with its value. -/
theorem returns_joined (segs : List Segment) {s : Splitter .word} (tags : List (Key × NoNul))
    (h : s.Valid) (hs : s.asSlice = joined segs) :
    Loop.Returns parseBody (s, tags) (tags ++ segs.filterMap Segment.pair) := by
  generalize hn : segs.length = n
  induction n using Nat.strong_induction_on generalizing segs s tags with
  | _ n ih =>
    cases segs with
    | nil =>
      rw [List.filterMap_nil, List.append_nil]
      exact Loop.returns_leave (parseBody_at_end h hs tags)
    | cons seg segs =>
      cases hp : seg.pair with
      | some p =>
        obtain ⟨s', hbody, hvalid, hslice⟩ := parseBody_segment h tags hp segs hs
        have hrest := ih segs.length (by rw [← hn]; exact Nat.lt_succ_self _) segs (tags ++ [p])
          hvalid hslice rfl
        rw [List.append_assoc, List.singleton_append] at hrest
        rw [Loop.returns_again_iff hbody, List.filterMap_cons_some hp]
        exact hrest
      | none =>
        obtain rfl : seg = .empty := by
          cases seg with
          | empty => rfl
          | keyOnly key => exact absurd hp (by simp [Segment.pair])
          | keyValue key raw _ => exact absurd hp (by simp [Segment.pair])
        rw [List.filterMap_cons_none hp]
        cases segs with
        | nil =>
          rw [List.filterMap_nil, List.append_nil]
          exact Loop.returns_leave (parseBody_at_end h hs tags)
        | cons next segs =>
          -- this semicolon is skipped, and those of the empty segments behind it
          have hbody := parseBody_at_invalid h hs (by decide) tags
          have hslice : (s.consumeInvalid .key).asSlice =
              joined ((next :: segs).dropWhile fun seg => seg.pair.isNone) := by
            rw [Splitter.asSlice_consumeInvalid, hs, ← dropWhile_joined]
            exact List.dropWhile_cons_of_pos (by decide)
          have hlt : ((next :: segs).dropWhile fun seg => seg.pair.isNone).length < n := by
            rw [← hn]
            exact Nat.lt_succ_of_le (List.dropWhile_sublist _).length_le
          rw [Loop.returns_again_iff hbody, ← filterMap_dropWhile_isNone Segment.pair]
          exact ih _ hlt _ tags (h.consumeWhile _) hslice rfl

/-- The value of the last segment with a key. -/
def lastValue (segs : List Segment) (key : Key) : Option NoNul :=
  (lookupLast Prod.fst (segs.filterMap Segment.pair) key).map Prod.snd

/-- **Tag text in segments.**  The parser returns, and what it returns are tags in which each key
that is in a segment has the value of the last segment it is in, and no other key has one. -/
theorem parse_segments (segs : List Segment) :
    ∃ fuel tags, parse fuel (joinedWord segs) = some tags ∧
      StrictSorted Prod.fst tags.pairs.vec ∧ ∀ key, tags.get key = lastValue segs key := by
  have hvalid := Splitter.valid_new (joinedWord segs)
  have hret := returns_joined segs [] hvalid (Splitter.asSlice_new _)
  rw [List.nil_append] at hret
  obtain ⟨fuel, hfuel⟩ := hret
  refine ⟨fuel, ⟨FlatMap.fromVec Prod.fst (segs.filterMap Segment.pair)⟩, ?_,
    FlatMap.strictSorted_fromVec _, fun key => ?_⟩
  · by_cases hempty : (joinedWord segs).bytes = []
    · -- no loop is needed to see that there are no segments with a key
      have hbody : parseBody (Splitter.new (joinedWord segs), []) = .leave [] :=
        parseBody_at_end hvalid ((Splitter.asSlice_new _).trans hempty) []
      have hnone : segs.filterMap Segment.pair = [] :=
        Loop.Returns.unique ⟨fuel, hfuel⟩ (Loop.returns_leave hbody)
      simp only [parse, hempty, List.isEmpty_nil, if_true, hnone,
        FlatMap.fromVec_of_strictSorted strictSorted_nil]
      rfl
    · simp only [parse, List.isEmpty_iff, hempty, if_false, hfuel, Option.map_some]
  · rw [get, lastValue, FlatMap.get_fromVec]

end Tags

end Vinezombie
