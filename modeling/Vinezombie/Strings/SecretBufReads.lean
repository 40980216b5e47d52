import Vinezombie.Strings.SecretBuf

/-!
# Reading into a buffer

`read_from` is there to read up to `expect` bytes.  It gives the reader all of the memory that is
not in use, and looks only afterwards at how much it got.

A reader returns its data in pieces, of which all but the last are at least one byte long; what it
returns at once depends on the reader, and on how much room it is given.

* `LawfulRead`: what the documentation of `std::io::Read` says.
* `readLoop_eq`: what the loop does.
* `Fits`: no piece is longer than what is left of `expect`.
* `readFrom_correct_iff`: when `read_from` does what it is there for.
-/

namespace Vinezombie

open Library Library.Cells

/-! ## Readers -/

/-- A reader, with the data that it returns from here on.  It returns no more than it is given room
for, it returns nothing only if there is no room or no data, and no data is lost to an error. -/
class LawfulRead (R : Type) (E : outParam Type) [Read R E] where
  available : R → List UInt8
  length_le : ∀ {r r' : R} {n bytes}, Read.read r n = (.ok bytes, r') → bytes.length ≤ n
  of_ok : ∀ {r r' : R} {n bytes}, Read.read r n = (.ok bytes, r') →
    available r = bytes ++ available r'
  of_nil : ∀ {r r' : R} {n}, Read.read r n = (.ok [], r') → n = 0 ∨ available r = []
  of_error : ∀ {r r' : R} {n e}, Read.read r n = (.error e, r') → available r' = available r

instance : LawfulRead Cursor Empty where
  available cursor := cursor.rest
  length_le h := by
    rw [← Except.ok.inj (Prod.mk.inj h).1]
    exact List.length_take_le _ _
  of_ok h := by
    rw [← Except.ok.inj (Prod.mk.inj h).1, ← (Prod.mk.inj h).2]
    exact (List.take_append_drop _ _).symm
  of_nil h := List.take_eq_nil_iff.mp (Except.ok.inj (Prod.mk.inj h).1)
  of_error h := absurd (Prod.mk.inj h).1 (by simp)

namespace SecretBuf

open LawfulRead

variable {R E : Type} [Read R E] [LawfulRead R E]

/-! ## The loop -/

/-- No piece that the reader returns is longer than what is left of what is expected, where it is
given all of the room each time. -/
def Fits (room left : ℕ) (r : R) : Prop :=
  if 0 < left then
    match Read.read r room with
    | (.error _, _) => True
    | (.ok bytes, r) =>
      if bytes.length = 0 then True
      else bytes.length ≤ left ∧ Fits (room - bytes.length) (left - bytes.length) r
  else True
termination_by left

section Fits

variable {room left : ℕ} {r r' : R} {bytes : List UInt8}

omit [LawfulRead R E] in
theorem fits_zero : Fits room 0 r := by
  rw [Fits, if_neg (Nat.lt_irrefl 0)]
  trivial

omit [LawfulRead R E] in
theorem fits_of_error {e : E} (h : Read.read r room = (.error e, r')) : Fits room left r := by
  rw [Fits, h]
  split <;> trivial

omit [LawfulRead R E] in
theorem fits_of_nil (h : Read.read r room = (.ok [], r')) : Fits room left r := by
  rw [Fits, h]
  split <;> trivial

omit [LawfulRead R E] in
theorem fits_piece_iff (hleft : 0 < left) (h : Read.read r room = (.ok bytes, r'))
    (hne : bytes ≠ []) : Fits room left r ↔
      bytes.length ≤ left ∧ Fits (room - bytes.length) (left - bytes.length) r' := by
  have hlen : ¬ bytes.length = 0 := by simpa using hne
  conv_lhs => rw [Fits, if_pos hleft, h]
  dsimp only
  rw [if_neg hlen]

end Fits

/-- How the loop ends when it has read `taken` before and `more` from then on. -/
structure LoopEnds (expect : ℕ) (bytes taken spare : List UInt8) (r : R) (more rest : List UInt8)
    (out : ReadFrom R E) : Prop where
  reads : available r = more ++ available out.reader
  buf : out.buf = holding bytes (taken ++ more ++ rest)
  length : more.length + rest.length = spare.length
  ok : ∀ n, out.result = .ok n →
    n = taken.length + more.length ∧ (expect ≤ n ∨ available out.reader = [])
  error : ∀ e, out.result = .error e → taken.length + more.length < expect
  fits : taken.length ≤ expect →
    (Fits spare.length (expect - taken.length) r ↔ ∀ n, out.result = .ok n → n ≤ expect)

/-- A piece is written behind the part that has been read. -/
theorem update_piece (bytes taken : List UInt8) {old piece : List UInt8} (spare : List UInt8)
    (h : old.length = piece.length) :
    (holding bytes (taken ++ (old ++ spare))).data.update
        (writeAll piece (bytes.length + taken.length)) =
      .ok (holding bytes (taken ++ piece ++ spare)).data := by
  have hupdate := update_writeAll_holding (bytes ++ taken) spare h
  rw [List.length_append] at hupdate
  have hold : (holding bytes (taken ++ (old ++ spare))).data =
      (holding (bytes ++ taken) (old ++ spare)).data := by
    unfold holding
    rw [List.append_assoc]
  have hnew : (holding bytes (taken ++ piece ++ spare)).data =
      (holding (bytes ++ taken ++ piece) spare).data := by
    unfold holding
    rw [List.append_assoc, List.append_assoc, List.append_assoc]
  rw [hold, hnew]
  exact hupdate

namespace LoopEnds

variable {expect : ℕ} {bytes taken spare : List UInt8} {r r' : R}

/-- Enough has been read. -/
theorem done (h : expect ≤ taken.length) : LoopEnds expect bytes taken spare r [] spare
    ⟨.ok taken.length, holding bytes (taken ++ spare), r⟩ where
  reads := rfl
  buf := by rw [List.append_nil]
  length := Nat.zero_add _
  ok n hn := by
    obtain rfl := Except.ok.inj hn
    exact ⟨rfl, .inl h⟩
  error e he := absurd he (by simp)
  fits hle := by
    rw [Nat.sub_eq_zero_of_le h]
    refine iff_of_true fits_zero fun n hn => ?_
    rw [← Except.ok.inj hn]
    exact hle

/-- The reader is in error. -/
theorem failed (hlt : taken.length < expect) {e : E}
    (hread : Read.read r spare.length = (.error e, r')) :
    LoopEnds expect bytes taken spare r [] spare
      ⟨.error e, holding bytes (taken ++ spare), r'⟩ where
  reads := (of_error hread).symm
  buf := by rw [List.append_nil]
  length := Nat.zero_add _
  ok n hn := absurd hn (by simp)
  error _ _ := hlt
  fits _ := iff_of_true (fits_of_error hread) fun n hn => absurd hn (by simp)

/-- There is nothing more to read. -/
theorem nothing (hlt : taken.length < expect) (hroom : expect ≤ taken.length + spare.length)
    (hread : Read.read r spare.length = (.ok [], r')) :
    LoopEnds expect bytes taken spare r [] spare
      ⟨.ok taken.length, holding bytes (taken ++ spare), r'⟩ where
  reads := of_ok hread
  buf := by rw [List.append_nil]
  length := Nat.zero_add _
  ok n hn := by
    obtain rfl := Except.ok.inj hn
    refine ⟨rfl, .inr ?_⟩
    have hsame := of_ok hread
    rw [List.nil_append] at hsame
    rcases of_nil hread with hspare | hdone
    · omega
    · rw [← hsame, hdone]
  error e he := absurd he (by simp)
  fits _ := by
    refine iff_of_true (fits_of_nil hread) fun n hn => ?_
    rw [← Except.ok.inj hn]
    exact Nat.le_of_lt hlt

/-- A piece, and how the loop ends after it. -/
theorem piece {piece more rest : List UInt8} {out : ReadFrom R E} (hlt : taken.length < expect)
    (hread : Read.read r spare.length = (.ok piece, r')) (hne : piece ≠ [])
    (h : LoopEnds expect bytes (taken ++ piece) (spare.drop piece.length) r' more rest out) :
    LoopEnds expect bytes taken spare r (piece ++ more) rest out where
  reads := by rw [of_ok hread, h.reads, List.append_assoc]
  buf := by rw [h.buf, List.append_assoc taken]
  length := by
    have hle := length_le hread
    have hlength := h.length
    rw [List.length_drop] at hlength
    rw [List.length_append]
    omega
  ok n hn := by
    obtain ⟨hcount, hend⟩ := h.ok n hn
    rw [List.length_append] at hcount ⊢
    exact ⟨hcount.trans (Nat.add_assoc _ _ _), hend⟩
  error e he := by
    have herror := h.error e he
    rw [List.length_append] at herror ⊢
    omega
  fits _ := by
    have hlength : (taken ++ piece).length = taken.length + piece.length := List.length_append
    rw [fits_piece_iff (by omega) hread hne]
    by_cases hle : (taken ++ piece).length ≤ expect
    · have hfits := h.fits hle
      rw [List.length_drop, hlength, Nat.sub_add_eq] at hfits
      rw [← hfits]
      exact and_iff_right (by omega)
    -- the loop ends here, and returns more than what is expected
    · refine iff_of_false (fun hfits => ?_) fun hfits => ?_
      · omega
      · cases hresult : out.result with
        | error e =>
          have herror := h.error e hresult
          omega
        | ok n =>
          have hcount := (h.ok n hresult).1
          have hn := hfits n hresult
          omega

end LoopEnds

/-- **The loop of `read_from`.** -/
theorem exists_loopEnds (expect : ℕ) (bytes taken spare : List UInt8) (r : R)
    (hroom : expect ≤ taken.length + spare.length) :
    ∃ more rest out, readLoop expect (holding bytes (taken ++ spare)) taken.length r = .ok out ∧
      LoopEnds expect bytes taken spare r more rest out := by
  induction hleft : expect - taken.length using Nat.strongRecOn generalizing taken spare r with
  | _ left ih =>
    rw [readLoop]
    by_cases hlt : taken.length < expect
    · have hstart : (holding bytes (taken ++ spare)).data.writeCapacity
          ((holding bytes (taken ++ spare)).len + taken.length) = spare.length := by
        rw [writeCapacity_holding, len_holding, List.length_append]
        omega
      rw [if_pos hlt]
      dsimp only
      rw [hstart]
      obtain ⟨result, r', hread⟩ : ∃ result r', Read.read r spare.length = (result, r') :=
        ⟨_, _, rfl⟩
      rw [hread]
      cases result with
      | error e => exact ⟨[], spare, _, rfl, .failed hlt hread⟩
      | ok piece =>
        by_cases hnil : piece = []
        · subst hnil
          exact ⟨[], spare, _, rfl, .nothing hlt hroom hread⟩
        · have hpos : 0 < piece.length := List.length_pos_iff.mpr hnil
          have hle : piece.length ≤ spare.length := length_le hread
          have hupdate := update_piece bytes taken (spare.drop piece.length)
            (List.length_take_of_le hle)
          rw [List.take_append_drop] at hupdate
          have hlength : (taken ++ piece).length = taken.length + piece.length :=
            List.length_append
          obtain ⟨more, rest, out, hloop, hends⟩ := ih (expect - (taken ++ piece).length)
            (by omega) (taken ++ piece) (spare.drop piece.length) r'
            (by rw [List.length_drop]; omega) rfl
          refine ⟨piece ++ more, rest, out, ?_, hends.piece hlt hread hnil⟩
          dsimp only
          rw [if_neg (by omega), if_neg (by omega), len_holding, hupdate, ← hlength]
          exact hloop
    · rw [if_neg hlt]
      exact ⟨[], spare, _, rfl, .done (Nat.not_lt.mp hlt)⟩

/-! ## `read_from` -/

/-- What `read_from` is there for.  It appends what the reader has, up to `expect` bytes; it reads
no more than that; and when the reader is in error, what the buffer holds stays as it was. -/
structure ReadCorrect (buf : SecretBuf) (expect : ℕ) (r : R) (out : ReadFrom R E) : Prop where
  ok : ∀ n, out.result = .ok n → n = min expect (available r).length ∧
    out.buf.contents = buf.contents ++ ((available r).take n).map some ∧
    available out.reader = (available r).drop n
  error : ∀ e, out.result = .error e → out.buf.contents = buf.contents ∧
    ∃ n ≤ expect, available out.reader = (available r).drop n

/-- How `read_from` ends, where there is room for what is expected. -/
structure ReadEnds (expect : ℕ) (bytes spare : List UInt8) (r : R) (more rest : List UInt8)
    (out : ReadFrom R E) : Prop where
  reads : available r = more ++ available out.reader
  length : more.length + rest.length = spare.length
  result : (out.result = .ok more.length ∧ out.buf = holding (bytes ++ more) rest ∧
      (expect ≤ more.length ∨ available out.reader = [])) ∨
    ∃ e, out.result = .error e ∧ out.buf = holding bytes (more ++ rest) ∧ more.length < expect
  fits : Fits spare.length expect r ↔ ∀ n, out.result = .ok n → n ≤ expect

section ReadFrom

variable {checks : Bool} {alloc : Allocator} {buf : SecretBuf} {expect : ℕ}
  {bytes spare more rest : List UInt8} {r : R}

/-- **`read_from`**, after it has reserved room. -/
theorem exists_readEnds (r : R)
    (hreserve : buf.reserve checks alloc expect = .ok (holding bytes spare))
    (hroom : expect ≤ spare.length) :
    ∃ more rest out, buf.readFrom checks alloc expect r = .ok out ∧
      ReadEnds expect bytes spare r more rest out := by
  obtain ⟨more, rest, out, hloop, hends⟩ := exists_loopEnds expect bytes [] spare r (by simpa)
  have hread : buf.readFrom checks alloc expect r = .ok out.finish := by
    rw [List.nil_append, List.length_nil] at hloop
    unfold readFrom
    rw [hreserve]
    show (readLoop expect (holding bytes spare) 0 r).bind _ = _
    rw [hloop]
    rfl
  have hbuf : out.buf = holding bytes (more ++ rest) := hends.buf
  have hfits := hends.fits (Nat.zero_le _)
  refine ⟨more, rest, out.finish, hread, ?_⟩
  unfold ReadFrom.finish
  cases hresult : out.result with
  | error e =>
    have hlt := hends.error e hresult
    rw [List.length_nil, Nat.zero_add] at hlt
    exact ⟨hends.reads, hends.length, .inr ⟨e, hresult, hbuf, hlt⟩, hfits⟩
  | ok n =>
    obtain ⟨hn, hend⟩ := hends.ok n hresult
    rw [List.length_nil, Nat.zero_add] at hn
    subst hn
    rw [hresult] at hfits
    refine ⟨hends.reads, hends.length, .inl ⟨rfl, ?_, hend⟩, hfits⟩
    dsimp only
    rw [hbuf]
    unfold holding
    rw [List.append_assoc, List.length_append]

/-- **What decides is how much the reader returns at once.** -/
theorem ReadEnds.readCorrect_iff {out : ReadFrom R E}
    (h : ReadEnds expect bytes spare r more rest out) (hbuf : buf.contents = bytes.map some) :
    ReadCorrect buf expect r out ↔ Fits spare.length expect r := by
  have htake : (available r).take more.length = more := by
    rw [h.reads, List.take_left]
  have hdrop : (available r).drop more.length = available out.reader := by
    rw [h.reads, List.drop_left]
  have hlength : (available r).length = more.length + (available out.reader).length := by
    rw [h.reads, List.length_append]
  rw [h.fits]
  rcases h.result with ⟨hresult, hout, hend⟩ | ⟨e, hresult, hout, hlt⟩
  · constructor
    · intro hcorrect n hn
      rw [(hcorrect.ok n hn).1]
      exact Nat.min_le_left _ _
    · intro hfits
      have hle := hfits _ hresult
      refine ⟨fun n hn => ?_, fun e he => absurd (hresult.symm.trans he) (by simp)⟩
      obtain rfl := Except.ok.inj (hresult.symm.trans hn)
      refine ⟨?_, ?_, hdrop.symm⟩
      · rcases hend with hge | hnil
        · omega
        · rw [hnil, List.length_nil] at hlength
          omega
      · rw [hout, contents_holding, hbuf, htake, List.map_append]
  · refine iff_of_true ⟨fun n hn => absurd (hresult.symm.trans hn) (by simp), fun e' _ => ?_⟩
      fun n hn => absurd (hresult.symm.trans hn) (by simp)
    rw [hout, contents_holding, hbuf]
    exact ⟨rfl, more.length, Nat.le_of_lt hlt, hdrop.symm⟩

/-- `reserve` makes room, without a panic and without a write to other memory. -/
def CanReserve (len : ℕ) (buf : SecretBuf) : Prop :=
  len ≤ buf.data.writeCapacity buf.len ∨ buf.len = 0 ∧ len < 2 ^ 63

/-- The room that the reader is given at first. -/
def roomFor (alloc : Allocator) (expect : ℕ) (buf : SecretBuf) : ℕ :=
  if expect ≤ buf.data.writeCapacity buf.len then buf.data.writeCapacity buf.len
  else alloc.grant expect

omit [LawfulRead R E] in
theorem readFrom_fault {fault : Fault} (h : buf.reserve checks alloc expect = .error fault) :
    buf.readFrom checks alloc expect r = .error fault := by
  unfold readFrom
  rw [h]
  rfl

/-- What decides is how much the reader returns at once, where there is room. -/
theorem readFrom_of_reserve
    (hreserve : buf.reserve checks alloc expect = .ok (holding bytes spare))
    (hroom : expect ≤ spare.length) (hbuf : buf.contents = bytes.map some) :
    (∃ out, buf.readFrom checks alloc expect r = .ok out ∧ ReadCorrect buf expect r out) ↔
      Fits spare.length expect r := by
  obtain ⟨more, rest, out, hread, hends⟩ := exists_readEnds r hreserve hroom
  rw [← hends.readCorrect_iff hbuf, hread]
  constructor
  · rintro ⟨out', hout, hcorrect⟩
    rwa [Except.ok.inj hout]
  · exact fun hcorrect => ⟨out, rfl, hcorrect⟩

/-- **`read_from`** does what it is there for exactly when there is room or the buffer is empty, and
no piece that the reader returns is longer than what is left of what is expected. -/
theorem readFrom_correct_iff (checks : Bool) (alloc : Allocator) (r : R) (h : buf.Valid)
    (hexpect : expect < 2 ^ 64) :
    (∃ out, buf.readFrom checks alloc expect r = .ok out ∧ ReadCorrect buf expect r out) ↔
      buf.CanReserve expect ∧ Fits (buf.roomFor alloc expect) expect r := by
  obtain ⟨bytes, spare, rfl, hlength⟩ := h
  rw [List.length_append] at hlength
  have hspare : (holding bytes spare).data.writeCapacity (holding bytes spare).len =
      spare.length := by simp
  unfold CanReserve roomFor
  rw [hspare, len_holding, List.length_eq_zero_iff]
  rcases reserve_cases checks alloc hexpect hlength with ⟨hle, hreserve⟩ |
    ⟨hlt, rfl, hfits, hreserve⟩ | ⟨hlt, hrefused, hreserve⟩ | ⟨hlt, hne, -, w, hreserve⟩
  · rw [if_pos hle, readFrom_of_reserve hreserve hle (contents_holding bytes spare)]
    exact (and_iff_right (.inl hle)).symm
  · have hroom : expect ≤ (List.replicate (alloc.grant expect) (0 : UInt8)).length := by
      rw [List.length_replicate]
      exact alloc.le expect
    rw [if_neg (Nat.not_le.mpr hlt), readFrom_of_reserve hreserve hroom (contents_holding [] spare),
      List.length_replicate]
    exact (and_iff_right (.inr ⟨rfl, hfits⟩)).symm
  · rw [readFrom_fault hreserve]
    refine iff_of_false (by simp) fun hcan => hcan.1.elim (Nat.not_le.mpr hlt) ?_
    rintro ⟨rfl, hfits⟩
    have hbeyond := (refused_nil_iff hexpect).mp hrefused
    omega
  · rw [readFrom_fault hreserve]
    exact iff_of_false (by simp) fun hcan =>
      hcan.1.elim (Nat.not_le.mpr hlt) fun hempty => hne hempty.1

/-- After `read_from` the buffer is one that later calls can rely on. -/
theorem valid_readFrom {out : ReadFrom R E} (h : buf.Valid) (hexpect : expect < 2 ^ 64)
    (hread : buf.readFrom checks alloc expect r = .ok out) : out.buf.Valid := by
  obtain ⟨bytes, spare, rfl, hlength⟩ := h
  rw [List.length_append] at hlength
  cases hreserve : (holding bytes spare).reserve checks alloc expect with
  | error fault =>
    rw [readFrom_fault hreserve] at hread
    exact absurd hread (by simp)
  | ok buf =>
    obtain ⟨spare', rfl, hroom, hlength'⟩ := exists_of_reserve hexpect hlength hreserve
    obtain ⟨more, rest, out', hread', hends⟩ := exists_readEnds r hreserve hroom
    obtain rfl := Except.ok.inj (hread.symm.trans hread')
    have hrest := hends.length
    rcases hends.result with ⟨-, hout, -⟩ | ⟨e, -, hout, -⟩
    · refine ⟨_, _, hout, ?_⟩
      simp only [List.length_append]
      omega
    · refine ⟨_, _, hout, ?_⟩
      simp only [List.length_append]
      omega

end ReadFrom

/-! ## Readers that fit -/

/-- **A reader fits** if it is given no more room than what is expected, or has no more data. -/
theorem fits_of_le {room left : ℕ} {r : R} (h : room ≤ left ∨ (available r).length ≤ left) :
    Fits room left r := by
  induction left using Nat.strongRecOn generalizing room r with
  | _ left ih =>
    rcases Nat.eq_zero_or_pos left with rfl | hpos
    · exact fits_zero
    · obtain ⟨result, r', hread⟩ : ∃ result r', Read.read r room = (result, r') := ⟨_, _, rfl⟩
      cases result with
      | error e => exact fits_of_error hread
      | ok piece =>
        by_cases hnil : piece = []
        · subst hnil
          exact fits_of_nil hread
        · have hpiece : 0 < piece.length := List.length_pos_iff.mpr hnil
          have hroom : piece.length ≤ room := length_le hread
          have hlength : (available r).length = piece.length + (available r').length := by
            rw [of_ok hread, List.length_append]
          exact (fits_piece_iff hpos hread hnil).mpr
            ⟨by omega, ih (left - piece.length) (by omega) (by omega)⟩

/-- Two bytes are read to where there is room for two. -/
theorem readFrom_correct_iff_two :
    ∃ out, (holding [7] [0, 0]).readFrom true .exact 2 (⟨[1, 2, 3]⟩ : Cursor) = .ok out ∧
      ReadCorrect (holding [7] [0, 0]) 2 (⟨[1, 2, 3]⟩ : Cursor) out :=
  (readFrom_correct_iff true .exact _ ⟨[7], [0, 0], rfl, by decide⟩ (by decide)).mpr
    ⟨.inl (by decide), fits_of_le (.inl (by decide))⟩

/-- One byte is expected where there is room for two, and two are read. -/
theorem not_readCorrect_one :
    withCapacity .exact 2 = .ok (holding [] [0, 0]) ∧
      ¬ ∃ out, (holding [] [0, 0]).readFrom true .exact 1 (⟨[1, 2]⟩ : Cursor) = .ok out ∧
        ReadCorrect (holding [] [0, 0]) 1 (⟨[1, 2]⟩ : Cursor) out := by
  refine ⟨withCapacity_of_lt .exact (by decide), fun h => ?_⟩
  have hfits := (readFrom_of_reserve (reserve_of_le (by decide)) (by decide)
    (contents_holding [] [0, 0])).mp h
  exact absurd ((fits_piece_iff (by decide) rfl (by simp)).mp hfits).1 (by decide)

end SecretBuf

end Vinezombie
