import Mathlib.Data.List.Basic
import Vinezombie.Library.Scan

/-!
# UTF-8

A byte string is UTF-8 if it is the encoding of a list of characters.  In the encoding of a
character, a byte below 128 stands alone, and no byte but the first can be the first of any other
character; so a string can be cut at any byte below 128, and at any place where a string that is
UTF-8 itself begins or ends.

* `Valid`: the byte strings that are UTF-8.
* `valid_append_cons_iff`: cutting at a byte below 128.
* `valid_append_left_iff`, `valid_append_right_iff`: cutting off a string that is UTF-8.
* `valid_map_iff`: maps of single bytes that leave the bytes from 128 on alone.
* `lossy`: the string with the parts that are not UTF-8 replaced.
-/

namespace Library.Utf8

/-- `u8::is_ascii`. -/
def isAscii (b : UInt8) : Bool := b < 128

/-- A byte string that encodes characters. -/
def Valid (bs : List UInt8) : Prop := ∃ cs : List Char, bs = cs.flatMap String.utf8EncodeChar

variable {bs l r : List UInt8} {b : UInt8}

theorem valid_iff_isValidUTF8 : Valid bs ↔ bs.toByteArray.IsValidUTF8 := by
  constructor
  · rintro ⟨cs, rfl⟩
    exact .intro cs rfl
  · rintro ⟨cs, hcs⟩
    refine ⟨cs, ?_⟩
    have hdata := congrArg (fun a => a.data.toList) hcs
    simpa [List.utf8Encode] using hdata

instance : Decidable (Valid bs) := decidable_of_iff _ valid_iff_isValidUTF8.symm

/-! ## Characters -/

/-- A character is one byte below 128, or has none such. -/
theorem utf8EncodeChar_cases (c : Char) :
    (∃ b, isAscii b = true ∧ String.utf8EncodeChar c = [b]) ∨
      ∀ b ∈ String.utf8EncodeChar c, isAscii b = false := by
  have hhigh : ∀ n m k : ℕ, 128 ≤ k → k + m ≤ 256 → 0 < m →
      isAscii (UInt8.ofNat (n % m + k)) = false := by
    intro n m k hk hkm hm
    have hmod := Nat.mod_lt n hm
    have hnot : ¬ UInt8.ofNat (n % m + k) < 128 := by
      rw [UInt8.lt_iff_toNat_lt, UInt8.toNat_ofNat']
      rw [Nat.mod_eq_of_lt (by omega)]
      show ¬ _ < 128
      omega
    exact decide_eq_false hnot
  unfold String.utf8EncodeChar
  dsimp only
  split
  · rename_i hv
    refine .inl ⟨_, ?_, rfl⟩
    have hlow : UInt8.ofNat c.val.toNat < 128 := by
      rw [UInt8.lt_iff_toNat_lt, UInt8.toNat_ofNat', Nat.mod_eq_of_lt (by omega)]
      show _ < 128
      omega
    exact decide_eq_true hlow
  · right
    split
    · simp only [List.mem_cons, List.not_mem_nil, or_false]
      rintro b (rfl | rfl) <;> exact hhigh _ _ _ (by decide) (by decide) (by decide)
    · split
      · simp only [List.mem_cons, List.not_mem_nil, or_false]
        rintro b (rfl | rfl | rfl) <;> exact hhigh _ _ _ (by decide) (by decide) (by decide)
      · simp only [List.mem_cons, List.not_mem_nil, or_false]
        rintro b (rfl | rfl | rfl | rfl) <;> exact hhigh _ _ _ (by decide) (by decide) (by decide)

/-- A byte below 128 is a character. -/
theorem exists_utf8EncodeChar (hb : isAscii b = true) : ∃ c, String.utf8EncodeChar c = [b] := by
  have hlt : b.toNat < 128 := UInt8.lt_iff_toNat_lt.mp (of_decide_eq_true hb)
  refine ⟨Char.ofNat b.toNat, ?_⟩
  have hval : (Char.ofNat b.toNat).val.toNat = b.toNat := by
    have hvalid : b.toNat.isValidChar := .inl (by omega)
    rw [Char.ofNat, dif_pos hvalid]
    rfl
  unfold String.utf8EncodeChar
  rw [hval]
  dsimp only
  rw [if_pos (by omega), UInt8.ofNat_toNat]

/-- The encoding of a character is not the beginning of that of another one. -/
theorem utf8EncodeChar_inj {c d : Char}
    (h : String.utf8EncodeChar c ++ l = String.utf8EncodeChar d ++ r) : c = d ∧ l = r := by
  have hdecode := congrArg (fun bs => bs.toByteArray.utf8DecodeChar? 0) h
  simp only [List.toByteArray_append, ByteArray.utf8DecodeChar?_utf8EncodeChar_append,
    Option.some.injEq] at hdecode
  subst hdecode
  exact ⟨rfl, List.append_cancel_left h⟩

/-- Encodings of different words differ. -/
theorem flatMap_utf8EncodeChar_inj {cs ds : List Char}
    (h : cs.flatMap String.utf8EncodeChar = ds.flatMap String.utf8EncodeChar) : cs = ds := by
  induction cs generalizing ds with
  | nil =>
    cases ds with
    | nil => rfl
    | cons d ds =>
      rw [List.flatMap_nil, List.flatMap_cons] at h
      exact absurd (List.append_eq_nil_iff.mp h.symm).1 String.utf8EncodeChar_ne_nil
  | cons c cs ih =>
    cases ds with
    | nil =>
      rw [List.flatMap_nil, List.flatMap_cons] at h
      exact absurd (List.append_eq_nil_iff.mp h).1 String.utf8EncodeChar_ne_nil
    | cons d ds =>
      rw [List.flatMap_cons, List.flatMap_cons] at h
      obtain ⟨rfl, hrest⟩ := utf8EncodeChar_inj h
      rw [ih hrest]

/-! ## Putting together -/

theorem valid_nil : Valid [] := ⟨[], rfl⟩

theorem valid_utf8EncodeChar (c : Char) : Valid (String.utf8EncodeChar c) := ⟨[c], by simp⟩

theorem Valid.append (hl : Valid l) (hr : Valid r) : Valid (l ++ r) := by
  obtain ⟨cs, rfl⟩ := hl
  obtain ⟨ds, rfl⟩ := hr
  exact ⟨cs ++ ds, by rw [List.flatMap_append]⟩

theorem valid_singleton (hb : isAscii b = true) : Valid [b] := by
  obtain ⟨c, hc⟩ := exists_utf8EncodeChar hb
  rw [← hc]
  exact valid_utf8EncodeChar c

/-- A byte from 128 on is no character. -/
theorem not_valid_singleton (hb : isAscii b = false) : ¬ Valid [b] := by
  rintro ⟨cs, hcs⟩
  cases cs with
  | nil => exact absurd hcs (by simp)
  | cons c cs =>
    rw [List.flatMap_cons] at hcs
    have hlen := congrArg List.length hcs
    rw [List.length_append, String.length_utf8EncodeChar, List.length_singleton] at hlen
    have hone : c.utf8Size = 1 := by
      have hpos := c.utf8Size_pos
      omega
    have hval : c.val.toNat ≤ 127 := UInt32.le_iff_toNat_le.mp (Char.utf8Size_eq_one_iff.mp hone)
    rw [String.utf8EncodeChar_eq_singleton hone, List.singleton_append] at hcs
    have hlow : isAscii c.val.toUInt8 = true := by
      refine decide_eq_true (UInt8.lt_iff_toNat_lt.mpr ?_)
      rw [UInt32.toNat_toUInt8]
      show c.val.toNat % 256 < 128
      omega
    rw [(List.cons.inj hcs).1, hlow] at hb
    exact absurd hb (by simp)

theorem valid_of_isAscii (h : ∀ b ∈ bs, isAscii b = true) : Valid bs := by
  induction bs with
  | nil => exact valid_nil
  | cons b bs ih =>
    exact (valid_singleton (h b (by simp))).append (ih fun b' hb' => h b' (by simp [hb']))

theorem valid_toByteArray (s : String) : Valid s.toByteArray.data.toList := by
  refine valid_iff_isValidUTF8.mpr ?_
  have hback : s.toByteArray.data.toList.toByteArray = s.toByteArray := by
    ext1
    simp
  rw [hback]
  exact s.isValidUTF8

/-! ## Cutting -/

/-- **Cutting at a byte below 128.** -/
theorem valid_append_cons_iff (hb : isAscii b = true) :
    Valid (l ++ b :: r) ↔ Valid l ∧ Valid r := by
  constructor
  · rintro ⟨cs, hcs⟩
    induction cs generalizing l with
    | nil => simp at hcs
    | cons c cs ih =>
      rw [List.flatMap_cons] at hcs
      by_cases hmem : b ∈ String.utf8EncodeChar c
      · -- the byte is the whole of its character, so it comes first
        rcases utf8EncodeChar_cases c with ⟨b', -, hc⟩ | hhigh
        · rw [hc, List.mem_singleton] at hmem
          subst hmem
          rw [hc, List.singleton_append] at hcs
          cases l with
          | nil => exact ⟨valid_nil, cs, (List.cons.inj hcs).2⟩
          | cons x l =>
            obtain ⟨rfl, hl⟩ := List.cons.inj hcs
            obtain ⟨hvalid, hr⟩ := ih hl
            exact ⟨(valid_singleton hb).append hvalid, hr⟩
        · exact absurd ((hhigh b hmem).symm.trans hb) (by simp)
      · obtain ⟨v, rfl, hv⟩ := Scan.exists_of_append_eq_append_cons hmem hcs.symm
        obtain ⟨hvalid, hr⟩ := ih hv.symm
        exact ⟨(valid_utf8EncodeChar c).append hvalid, hr⟩
  · rintro ⟨hl, hr⟩
    exact hl.append ((valid_singleton hb).append hr)

theorem valid_cons_iff (hb : isAscii b = true) : Valid (b :: r) ↔ Valid r := by
  have h := valid_append_cons_iff (l := []) (r := r) hb
  exact h.trans (and_iff_right valid_nil)

/-- Bytes below 128 may be cut off at the front. -/
theorem valid_ascii_append_iff (hl : ∀ b ∈ l, isAscii b = true) : Valid (l ++ r) ↔ Valid r := by
  induction l with
  | nil => rfl
  | cons b l ih =>
    rw [List.cons_append, valid_cons_iff (hl b (by simp))]
    exact ih fun b' hb' => hl b' (by simp [hb'])

/-- Bytes below 128 may be cut off at the end. -/
theorem valid_append_ascii_iff (hr : ∀ b ∈ r, isAscii b = true) : Valid (l ++ r) ↔ Valid l := by
  cases r with
  | nil => rw [List.append_nil]
  | cons b r =>
    rw [valid_append_cons_iff (hr b (by simp))]
    exact and_iff_left (valid_of_isAscii fun b' hb' => hr b' (by simp [hb']))

/-- **Cutting off a string that is UTF-8** at the front. -/
theorem valid_append_left_iff (hl : Valid l) : Valid (l ++ r) ↔ Valid r := by
  refine ⟨?_, hl.append⟩
  obtain ⟨cs, rfl⟩ := hl
  induction cs with
  | nil => exact id
  | cons c cs ih =>
    rintro ⟨ds, hds⟩
    cases ds with
    | nil => simp at hds
    | cons d ds =>
      rw [List.flatMap_cons, List.flatMap_cons, List.append_assoc] at hds
      exact ih ⟨ds, (utf8EncodeChar_inj hds).2⟩

/-- The first byte of a character is not a later byte of one. -/
theorem not_isUTF8FirstByte {c : Char} (h : String.utf8EncodeChar c = l ++ b :: r) (hl : l ≠ []) :
    ¬ b.IsUTF8FirstByte := by
  have hlen : l.length < (String.utf8EncodeChar c).length := by
    rw [h, List.length_append, List.length_cons]
    omega
  have hget : (String.utf8EncodeChar c)[l.length] = b := by
    simp [h]
  rw [← hget, UInt8.isUTF8FirstByte_getElem_utf8EncodeChar]
  exact fun hzero => hl (List.length_eq_zero_iff.mp hzero)

theorem Valid.isUTF8FirstByte (h : Valid (b :: r)) : b.IsUTF8FirstByte := by
  obtain ⟨cs, hcs⟩ := h
  cases cs with
  | nil => simp at hcs
  | cons c cs =>
    rw [List.flatMap_cons] at hcs
    have hlen : 0 < (String.utf8EncodeChar c).length :=
      List.length_pos_iff.mpr String.utf8EncodeChar_ne_nil
    have hget : (String.utf8EncodeChar c)[0] = b := by
      have hhead := congrArg List.head? hcs
      rw [List.head?_append_of_ne_nil _ String.utf8EncodeChar_ne_nil] at hhead
      rw [List.head?_eq_getElem?, List.head?_eq_getElem?, List.getElem?_eq_getElem hlen] at hhead
      exact (Option.some.inj hhead).symm
    rw [← hget, UInt8.isUTF8FirstByte_getElem_utf8EncodeChar]

/-- **Cutting off a string that is UTF-8** at the end. -/
theorem valid_append_right_iff (hr : Valid r) : Valid (l ++ r) ↔ Valid l := by
  refine ⟨?_, fun hl => hl.append hr⟩
  rintro ⟨cs, hcs⟩
  induction cs generalizing l with
  | nil =>
    rw [(List.append_eq_nil_iff.mp hcs).1]
    exact valid_nil
  | cons c cs ih =>
    rw [List.flatMap_cons] at hcs
    rcases List.append_eq_append_iff.mp hcs with ⟨v, hc, hv⟩ | ⟨v, hl, hv⟩
    · cases v with
      | nil =>
        rw [List.append_nil] at hc
        rw [← hc]
        exact valid_utf8EncodeChar c
      | cons b v =>
        cases hl : l with
        | nil => exact valid_nil
        | cons x l' =>
          rw [List.cons_append] at hv
          rw [hv] at hr
          exact absurd hr.isUTF8FirstByte (not_isUTF8FirstByte hc (by simp [hl]))
    · rw [hl]
      exact (valid_utf8EncodeChar c).append (ih hv.symm)

/-! ## Maps of bytes -/

section

variable {f : UInt8 → UInt8}

/-- **Maps of bytes** that keep the bytes below 128 there, and leave the others alone. -/
theorem valid_map_iff (hlow : ∀ b, isAscii b = true → isAscii (f b) = true)
    (hhigh : ∀ b, isAscii b = false → f b = b) : Valid (bs.map f) ↔ Valid bs := by
  have hkeep : ∀ l : List UInt8, (∀ b ∈ l, isAscii b = false) → l.map f = l := fun l hl =>
    (List.map_congr_left fun b hb => hhigh b (hl b hb)).trans (List.map_id l)
  have hback : ∀ b, isAscii (f b) = false → isAscii b = false := by
    intro b hb
    cases h : isAscii b with
    | false => rfl
    | true => exact absurd ((hlow b h).symm.trans hb) (by simp)
  constructor
  · rintro ⟨cs, hcs⟩
    induction cs generalizing bs with
    | nil =>
      rw [List.map_eq_nil_iff.mp hcs]
      exact valid_nil
    | cons c cs ih =>
      rw [List.flatMap_cons] at hcs
      obtain ⟨l, r, rfl, hl, hr⟩ := List.map_eq_append_iff.mp hcs
      refine Valid.append ?_ (ih hr)
      rcases utf8EncodeChar_cases c with ⟨b', hb', hc⟩ | hchar
      · rw [hc] at hl
        obtain ⟨b, rfl, rfl⟩ := List.map_eq_singleton_iff.mp hl
        refine valid_singleton ?_
        cases h : isAscii b with
        | true => rfl
        | false => exact absurd ((hhigh b h ▸ h).symm.trans hb') (by simp)
      · have hall : ∀ b ∈ l, isAscii b = false := fun b hb =>
          hback b (hchar (f b) (hl ▸ List.mem_map_of_mem hb))
        rw [hkeep l hall] at hl
        rw [hl]
        exact valid_utf8EncodeChar c
  · rintro ⟨cs, rfl⟩
    induction cs with
    | nil => exact valid_nil
    | cons c cs ih =>
      rw [List.flatMap_cons, List.map_append]
      refine Valid.append ?_ ih
      rcases utf8EncodeChar_cases c with ⟨b, hb, hc⟩ | hchar
      · rw [hc]
        exact valid_singleton (hlow b hb)
      · rw [hkeep _ hchar]
        exact valid_utf8EncodeChar c

end

/-! ## Replacing what is not UTF-8 -/

/-- A byte that only continues a character. -/
def isContinuation (b : UInt8) : Bool := 0x80 ≤ b && b ≤ 0xBF

/-- The bytes that may follow the first byte of a character of three or four bytes. -/
def isSecond (first second : UInt8) : Bool :=
  if first = 0xE0 then 0xA0 ≤ second && second ≤ 0xBF
  else if first = 0xED then 0x80 ≤ second && second ≤ 0x9F
  else if first = 0xF0 then 0x90 ≤ second && second ≤ 0xBF
  else if first = 0xF4 then 0x80 ≤ second && second ≤ 0x8F
  else isContinuation second

/-- The length of the longest beginning that could be that of a character, or one, where there is no
character. -/
def invalidLen : List UInt8 → ℕ
  | first :: second :: rest =>
    if 0xE0 ≤ first ∧ first ≤ 0xF4 ∧ isSecond first second then
      match rest with
      | third :: _ => if 0xF0 ≤ first ∧ isContinuation third then 3 else 2
      | [] => 2
    else 1
  | _ => 1

theorem invalidLen_pos (bs : List UInt8) : 0 < invalidLen bs := by
  unfold invalidLen
  split
  · split
    · split
      · split <;> decide
      · decide
    · decide
  · decide

/-- `String::from_utf8_lossy`, for a string that is not UTF-8: each part that is not UTF-8 becomes
one replacement character. -/
def lossy (bs : List UInt8) : List UInt8 :=
  if _h : bs = [] then []
  else
    match bs.toByteArray.utf8DecodeChar? 0 with
    | some c => String.utf8EncodeChar c ++ lossy (bs.drop c.utf8Size)
    | none => String.utf8EncodeChar (Char.ofNat 0xFFFD) ++ lossy (bs.drop (invalidLen bs))
termination_by bs.length
decreasing_by
  · have hpos := c.utf8Size_pos
    have hlen := List.length_pos_iff.mpr _h
    rw [List.length_drop]
    omega
  · have hpos := invalidLen_pos bs
    have hlen := List.length_pos_iff.mpr _h
    rw [List.length_drop]
    omega

theorem valid_lossy (bs : List UInt8) : Valid (lossy bs) := by
  induction bs using lossy.induct with
  | case1 =>
    rw [lossy]
    exact valid_nil
  | case2 bs h c hc ih =>
    rw [lossy, dif_neg h, hc]
    exact (valid_utf8EncodeChar c).append ih
  | case3 bs h hc ih =>
    rw [lossy, dif_neg h, hc]
    exact (valid_utf8EncodeChar _).append ih

end Library.Utf8
