import Vinezombie.Library.Scan
import Vinezombie.Strings.Newtypes

/-!
# Escaping of tag values

`string/tf/escape.rs`.  Both `escape` and `unescape` return their argument where there is nothing to
do, treat the first byte of interest on its own, and run a loop over what follows it.

`escapeBytes_eq_flatMap` removes the special cases from `escape`: it replaces each byte separately.
`unescape` cannot be described so, because its special case is not the loop's: the loop drops a
backslash and translates the byte after it, while the special case keeps the *first* backslash
(`unescape_byte` of a backslash is a backslash) and leaves the loop to start at the byte after it.

* `unescapeLoop_escape`: the loop of `unescape`, started in its own initial state, undoes `escape`.
* `unescapeBytes_escapeBytes_iff`: `unescape` undoes `escape` exactly on the values of
  `SurvivesEscape`.
* `escape`, `unescape`: on newtypes; the proofs in their definitions are what `from_unchecked`
  trusts.
-/

namespace Vinezombie

open Library.Scan

/-- `unescape_byte`. -/
def unescapeByte (b : UInt8) : UInt8 :=
  if b = byte ':' then byte ';'
  else if b = byte 's' then byte ' '
  else if b = byte 'r' then byte '\r'
  else if b = byte 'n' then byte '\n'
  else b

/-- `escape_byte`. -/
def escapeByte (b : UInt8) : Option UInt8 :=
  if b = byte ';' then some (byte ':')
  else if b = byte ' ' then some (byte 's')
  else if b = byte '\r' then some (byte 'r')
  else if b = byte '\n' then some (byte 'n')
  else if b = byte '\\' then some (byte '\\')
  else none

/-! ## The transformations on bytes -/

/-- One pass of the loop of `escape`. -/
def escapePush (newBytes : List UInt8) (b : UInt8) : List UInt8 :=
  match escapeByte b with
  | some esc => newBytes ++ [byte '\\', esc]
  | none => newBytes ++ [b]

/-- `escape`, on bytes.  The empty case of the inner `match` is the `unwrap_unchecked` of the
source: the index is one of the value's own. -/
def escapeBytes (v : List UInt8) : List UInt8 :=
  match v.findIdx? fun c => (escapeByte c).isSome with
  | none => v
  | some firstIdx =>
    match v.drop firstIdx with
    | [] => v.take firstIdx
    | first :: rest =>
      rest.foldl escapePush (v.take firstIdx ++ [byte '\\', (escapeByte first).getD 0])

/-- The loop of `unescape`, with its flag: what it pushes for the bytes that are left. -/
def unescapeLoop : Bool → List UInt8 → List UInt8
  | _, [] => []
  | true, b :: rest => unescapeByte b :: unescapeLoop false rest
  | false, b :: rest =>
    if b = byte '\\' then unescapeLoop true rest else b :: unescapeLoop false rest

/-- `unescape`, on bytes. -/
def unescapeBytes (v : List UInt8) : List UInt8 :=
  match v.findIdx? (· == byte '\\') with
  | none => v
  | some firstIdx =>
    match v.drop firstIdx with
    | [] => v.take firstIdx
    | first :: rest => v.take firstIdx ++ unescapeByte first :: unescapeLoop false rest

/-! ## Single bytes -/

theorem escapeByte_backslash : escapeByte (byte '\\') = some (byte '\\') := by decide

theorem unescapeByte_backslash : unescapeByte (byte '\\') = byte '\\' := by decide

/-- The codes of the escapes. -/
theorem escapeByte_eq_some {b esc : UInt8} (h : escapeByte b = some esc) :
    (b = byte ';' ∧ esc = byte ':') ∨ (b = byte ' ' ∧ esc = byte 's') ∨
      (b = byte '\r' ∧ esc = byte 'r') ∨ (b = byte '\n' ∧ esc = byte 'n') ∨
      (b = byte '\\' ∧ esc = byte '\\') := by
  unfold escapeByte at h
  split_ifs at h <;> simp_all

theorem escapeByte_eq_none {b : UInt8} (h : escapeByte b = none) :
    b ≠ byte ';' ∧ b ≠ byte ' ' ∧ b ≠ byte '\r' ∧ b ≠ byte '\n' ∧ b ≠ byte '\\' := by
  unfold escapeByte at h
  split_ifs at h
  exact ⟨‹_›, ‹_›, ‹_›, ‹_›, ‹_›⟩

theorem unescapeByte_of_escapeByte {b esc : UInt8} (h : escapeByte b = some esc) :
    unescapeByte esc = b := by
  rcases escapeByte_eq_some h with
    ⟨rfl, rfl⟩ | ⟨rfl, rfl⟩ | ⟨rfl, rfl⟩ | ⟨rfl, rfl⟩ | ⟨rfl, rfl⟩ <;> decide

/-! ## `escape` byte by byte -/

/-- What `escape` writes for one byte. -/
def escapeOne (b : UInt8) : List UInt8 :=
  match escapeByte b with
  | some esc => [byte '\\', esc]
  | none => [b]

theorem escapeOne_of_some {b esc : UInt8} (h : escapeByte b = some esc) :
    escapeOne b = [byte '\\', esc] := by
  rw [escapeOne, h]

theorem escapeOne_of_none {b : UInt8} (h : escapeByte b = none) : escapeOne b = [b] := by
  rw [escapeOne, h]

theorem escapePush_eq (acc : List UInt8) (b : UInt8) : escapePush acc b = acc ++ escapeOne b := by
  unfold escapePush escapeOne
  cases escapeByte b <;> rfl

theorem foldl_escapePush (acc l : List UInt8) :
    l.foldl escapePush acc = acc ++ l.flatMap escapeOne := by
  induction l generalizing acc with
  | nil => simp
  | cons b l ih => rw [List.foldl_cons, ih, escapePush_eq, List.flatMap_cons, List.append_assoc]

theorem flatMap_escapeOne_of_none {l : List UInt8} (h : ∀ b ∈ l, escapeByte b = none) :
    l.flatMap escapeOne = l := by
  induction l with
  | nil => rfl
  | cons b l ih =>
    rw [List.flatMap_cons, escapeOne_of_none (h b List.mem_cons_self),
      ih fun c hc => h c (List.mem_cons_of_mem _ hc), List.singleton_append]

/-- **`escape` replaces each byte separately**: the fast path and the treatment of the first escape
are the loop. -/
theorem escapeBytes_eq_flatMap (v : List UInt8) : escapeBytes v = v.flatMap escapeOne := by
  unfold escapeBytes
  cases h : v.findIdx? fun c => (escapeByte c).isSome with
  | none =>
    refine (flatMap_escapeOne_of_none fun b hb => ?_).symm
    simpa using List.findIdx?_eq_none_iff.mp h b hb
  | some i =>
    obtain ⟨hlt, hsome, hbefore⟩ := List.findIdx?_eq_some_iff_getElem.mp h
    obtain ⟨esc, hesc⟩ := Option.isSome_iff_exists.mp hsome
    have htake : (v.take i).flatMap escapeOne = v.take i := by
      refine flatMap_escapeOne_of_none fun b hb => ?_
      obtain ⟨j, hj, rfl⟩ := List.getElem_of_mem hb
      have hj' : j < i := (List.length_take (i := i) (l := v) ▸ hj).trans_le (Nat.min_le_left _ _)
      simpa using hbefore j hj'
    have hdrop : v.drop i = v[i] :: v.drop (i + 1) := List.drop_eq_getElem_cons hlt
    conv_rhs => rw [← List.take_append_drop i v, List.flatMap_append, htake]
    simp only [hdrop, hesc, Option.getD_some, foldl_escapePush, List.flatMap_cons,
      escapeOne_of_some hesc, List.append_assoc]

/-! ## `unescape` -/

/-- The value is cut at its first backslash, which `unescape` keeps. -/
theorem unescapeBytes_append {l : List UInt8} (h : ∀ b ∈ l, b ≠ byte '\\') (rest : List UInt8) :
    unescapeBytes (l ++ byte '\\' :: rest) = l ++ byte '\\' :: unescapeLoop false rest := by
  have hidx : (l ++ byte '\\' :: rest).findIdx? (· == byte '\\') = some l.length := by
    rw [List.findIdx?_append, List.findIdx?_eq_none_iff.mpr (by simpa using h),
      List.findIdx?_cons, if_pos (by simp)]
    simp
  unfold unescapeBytes
  rw [hidx]
  simp only [List.drop_left, List.take_left, unescapeByte_backslash]

theorem unescapeBytes_of_forall_ne {l : List UInt8} (h : ∀ b ∈ l, b ≠ byte '\\') :
    unescapeBytes l = l := by
  unfold unescapeBytes
  rw [List.findIdx?_eq_none_iff.mpr (by simpa using h)]

/-- **The loop of `unescape` undoes `escape`.** -/
theorem unescapeLoop_escape (v : List UInt8) :
    unescapeLoop false (v.flatMap escapeOne) = v := by
  induction v with
  | nil => rfl
  | cons b v ih =>
    cases h : escapeByte b with
    | none =>
      rw [List.flatMap_cons, escapeOne_of_none h, List.singleton_append, unescapeLoop,
        if_neg (escapeByte_eq_none h).2.2.2.2, ih]
    | some esc =>
      rw [List.flatMap_cons, escapeOne_of_some h, List.cons_append, List.singleton_append,
        unescapeLoop, if_pos rfl, unescapeLoop, unescapeByte_of_escapeByte h, ih]

/-- The byte that follows the leading backslashes, if there is one, is neither escaped nor the code
of an escape. -/
def PlainAfterBackslashes (v : List UInt8) : Prop :=
  ∀ c ∈ (v.dropWhile (· == byte '\\')).head?, escapeByte c = none ∧ unescapeByte c = c

instance (v : List UInt8) : Decidable (PlainAfterBackslashes v) :=
  inferInstanceAs (Decidable (∀ c ∈ (v.dropWhile (· == byte '\\')).head?, _))

theorem plainAfterBackslashes_cons_of_ne {b : UInt8} (hb : b ≠ byte '\\') (v : List UInt8) :
    PlainAfterBackslashes (b :: v) ↔ escapeByte b = none ∧ unescapeByte b = b := by
  unfold PlainAfterBackslashes
  rw [List.dropWhile_cons_of_neg (by simpa using hb)]
  simp

/-- **The loop of `unescape` one byte out of step.**  If the loop is entered as though the byte
before had been a backslash, a run of backslashes still comes out right, and so does whatever
follows a byte that means the same with and without a backslash before it. -/
theorem unescapeLoop_true_escape_iff (v : List UInt8) :
    unescapeLoop true (v.flatMap escapeOne) = v ↔ PlainAfterBackslashes v := by
  induction v with
  | nil => simp [unescapeLoop, PlainAfterBackslashes]
  | cons b v ih =>
    by_cases hb : b = byte '\\'
    · subst hb
      rw [List.flatMap_cons, escapeOne_of_some escapeByte_backslash, List.cons_append,
        List.singleton_append, unescapeLoop, unescapeByte_backslash, unescapeLoop, if_pos rfl,
        List.cons.injEq, ih]
      simp [PlainAfterBackslashes]
    · rw [plainAfterBackslashes_cons_of_ne hb]
      cases h : escapeByte b with
      | none =>
        rw [List.flatMap_cons, escapeOne_of_none h, List.singleton_append, unescapeLoop,
          unescapeLoop_escape, List.cons.injEq]
        simp
      | some esc =>
        -- the backslash of the escape is pushed in place of the byte
        rw [List.flatMap_cons, escapeOne_of_some h, List.cons_append, unescapeLoop,
          unescapeByte_backslash, List.cons.injEq]
        exact iff_of_false (fun hh => hb hh.1.symm) (fun hh => absurd hh.1 (by simp))

/-- A value from its first byte that needs an escape on. -/
def fromFirstEscape (v : List UInt8) : List UInt8 :=
  v.dropWhile fun b => (escapeByte b).isNone

/-- The values that `unescape` recovers: the first byte that needs an escape, if there is one, is a
backslash, and the byte after the run of backslashes it begins is plain. -/
def SurvivesEscape (v : List UInt8) : Prop :=
  ∀ b ∈ (fromFirstEscape v).head?,
    b = byte '\\' ∧ PlainAfterBackslashes (fromFirstEscape v).tail

instance (v : List UInt8) : Decidable (SurvivesEscape v) :=
  inferInstanceAs (Decidable (∀ b ∈ (fromFirstEscape v).head?, _))

/-- **When `unescape` undoes `escape`.** -/
theorem unescapeBytes_escapeBytes_iff (v : List UInt8) :
    unescapeBytes (escapeBytes v) = v ↔ SurvivesEscape v := by
  set p := v.takeWhile fun b => (escapeByte b).isNone with hp
  have hpnone : ∀ b ∈ p, escapeByte b = none := fun b hb => by
    simpa using List.mem_takeWhile_imp hb
  have hpne : ∀ b ∈ p, b ≠ byte '\\' := fun b hb => (escapeByte_eq_none (hpnone b hb)).2.2.2.2
  have hv : v = p ++ fromFirstEscape v := List.takeWhile_append_dropWhile.symm
  have hmap : v.flatMap escapeOne = p ++ (fromFirstEscape v).flatMap escapeOne := by
    conv_lhs => rw [hv, List.flatMap_append, flatMap_escapeOne_of_none hpnone]
  rw [escapeBytes_eq_flatMap, hmap]
  unfold SurvivesEscape
  cases hr : fromFirstEscape v with
  | nil =>
    rw [hr, List.append_nil] at hv
    rw [List.flatMap_nil, List.append_nil, unescapeBytes_of_forall_ne hpne]
    simpa using hv.symm
  | cons b rest =>
    have hb : (escapeByte b).isNone = false :=
      head?_dropWhile_eq_false (p := fun b => (escapeByte b).isNone) (l := v) (by
        rw [show v.dropWhile (fun b => (escapeByte b).isNone) = b :: rest from hr]
        rfl)
    obtain ⟨esc, hesc⟩ := Option.isSome_iff_exists.mp (by simpa using hb)
    rw [List.flatMap_cons, escapeOne_of_some hesc, List.cons_append, List.singleton_append,
      unescapeBytes_append hpne]
    conv_lhs => rw [hv, hr, List.append_cancel_left_eq, List.cons.injEq]
    constructor
    · rintro ⟨hback, hloop⟩ c hc
      rw [List.head?_cons] at hc
      have hcb : c = byte '\\' := by rw [← Option.some.inj hc, ← hback]
      rw [← hback, escapeByte_backslash, Option.some.injEq] at hesc
      rw [← hesc, unescapeLoop, if_pos rfl, unescapeLoop_true_escape_iff] at hloop
      exact ⟨hcb, hloop⟩
    · intro h
      obtain ⟨rfl, hplain⟩ := h b rfl
      rw [escapeByte_backslash, Option.some.injEq] at hesc
      rw [← hesc, unescapeLoop, if_pos rfl, unescapeLoop_true_escape_iff]
      exact ⟨rfl, hplain⟩

/-! ## On newtypes -/

/-- Nothing that `escape` writes is a separator of tags or ends a word. -/
theorem escapeOne_valid {b c : UInt8} (hb : b ≠ 0) (hc : c ∈ escapeOne b) :
    c ≠ byte ';' ∧ isInvalidForWord true c = false := by
  cases h : escapeByte b with
  | none =>
    rw [escapeOne_of_none h, List.mem_singleton] at hc
    obtain ⟨h1, h2, h3, h4, -⟩ := escapeByte_eq_none h
    rw [hc]
    exact ⟨h1, isInvalidForWord_eq_false.mpr ⟨h2, h3, h4, hb⟩⟩
  | some esc =>
    have hesc : c = byte '\\' ∨ c = esc := by simpa [escapeOne_of_some h] using hc
    rcases escapeByte_eq_some h with ⟨-, rfl⟩ | ⟨-, rfl⟩ | ⟨-, rfl⟩ | ⟨-, rfl⟩ | ⟨-, rfl⟩ <;>
      rcases hesc with rfl | rfl <;> decide

theorem escapeBytes_valid {v : List UInt8} (hv : ∀ b ∈ v, b ≠ 0) {c : UInt8}
    (hc : c ∈ escapeBytes v) : c ≠ byte ';' ∧ isInvalidForWord true c = false := by
  rw [escapeBytes_eq_flatMap] at hc
  obtain ⟨b, hb, hcb⟩ := List.mem_flatMap.mp hc
  exact escapeOne_valid (hv b hb) hcb

theorem unescapeByte_ne_zero {b : UInt8} (hb : b ≠ 0) : unescapeByte b ≠ 0 := by
  unfold unescapeByte
  split_ifs
  · decide
  · decide
  · decide
  · decide
  · exact hb

theorem unescapeLoop_ne_zero {l : List UInt8} (hl : ∀ b ∈ l, b ≠ 0) (esc : Bool) :
    ∀ c ∈ unescapeLoop esc l, c ≠ 0 := by
  induction l generalizing esc with
  | nil => simp [unescapeLoop]
  | cons b l ih =>
    have hb : b ≠ 0 := hl b List.mem_cons_self
    have hl' : ∀ c ∈ l, c ≠ 0 := fun c hc => hl c (List.mem_cons_of_mem _ hc)
    cases esc with
    | true =>
      intro c hc
      rw [unescapeLoop, List.mem_cons] at hc
      rcases hc with rfl | hc
      · exact unescapeByte_ne_zero hb
      · exact ih hl' false c hc
    | false =>
      intro c hc
      rw [unescapeLoop] at hc
      split_ifs at hc
      · exact ih hl' true c hc
      · rcases List.mem_cons.mp hc with rfl | hc
        · exact hb
        · exact ih hl' false c hc

theorem unescapeBytes_ne_zero {v : List UInt8} (hv : ∀ b ∈ v, b ≠ 0) :
    ∀ c ∈ unescapeBytes v, c ≠ 0 := by
  unfold unescapeBytes
  split
  · exact hv
  · split
    · exact fun c hc => hv c (List.mem_of_mem_take hc)
    · rename_i i _ first rest hdrop
      have hmem : ∀ b ∈ first :: rest, b ≠ 0 := fun b hb =>
        hv b (List.mem_of_mem_drop (hdrop ▸ hb))
      intro c hc
      rcases List.mem_append.mp hc with hc | hc
      · exact hv c (List.mem_of_mem_take hc)
      · rcases List.mem_cons.mp hc with rfl | hc
        · exact unescapeByte_ne_zero (hmem first List.mem_cons_self)
        · exact unescapeLoop_ne_zero (fun b hb => hmem b (List.mem_cons_of_mem _ hb)) false c hc

theorem NoNul.ne_zero (v : NoNul) {b : UInt8} (hb : b ∈ v.bytes) : b ≠ 0 :=
  isInvalidForNoNul_eq_false.mp (v.isInvalid_eq_false hb)

/-- `escape`. -/
def escape (tagValue : NoNul) : Word where
  bytes := escapeBytes tagValue.bytes
  valid := StringType.word.findInvalid_eq_none_iff.mpr
    ⟨rfl, fun _ hb => (escapeBytes_valid (fun _ => tagValue.ne_zero) hb).2⟩

/-- `unescape`. -/
def unescape (tagValue : NoNul) : NoNul where
  bytes := unescapeBytes tagValue.bytes
  valid := StringType.noNul.findInvalid_eq_none_iff.mpr
    ⟨rfl, fun b hb => isInvalidForNoNul_eq_false.mpr
      (unescapeBytes_ne_zero (fun _ => tagValue.ne_zero) b hb)⟩

end Vinezombie
