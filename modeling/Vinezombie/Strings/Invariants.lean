import Vinezombie.Strings.Base64RoundTrip
import Vinezombie.Strings.FlaggedSteps

/-!
# The invariants of the newtypes

Most of the string API makes values of a newtype without checking all of its invariant: a conversion
checks nothing, `from_super` only what the narrower type adds, a splitter only the bytes up to where
it stops or only the string as a whole, a transform nothing at all.  That every string belongs to
its kind all the same rests on what each of these starts from, which is itself a string of some
kind.

A kind consists of a check of single bytes, and of no other check or that of the first byte of an
`Arg`.  So it is enough to know what happens to single bytes and to the first one.

* `Kind.Admits`: a string passes the checks of a kind.
* `Kind.Admits.into`, `Kind.fromSuper_eq_fromBytes`: wider and narrower kinds.
* `Kind.Admits.map`, `Kind.Admits.append`: what happens to single bytes.
* `newtypes_valid`: every string that can be made belongs to its kind.
-/

namespace Vinezombie

open Library

namespace Flagged

namespace Kind

variable {k T U : Kind} {bs : List UInt8}

/-- A string passes the checks of a kind. -/
def Admits (k : Kind) (bs : List UInt8) : Prop := k.type.findInvalid bs = none

theorem admits_iff :
    k.Admits bs ↔ k.type.checkOthers bs = none ∧ ∀ b ∈ bs, k.type.isInvalid b = false :=
  k.type.findInvalid_eq_none_iff

/-- A kind has no other check than that of its bytes, or the one of the first byte of an `Arg`. -/
theorem checkOthers_cases (k : Kind) :
    k.type.checkOthers = returnNone ∨ k.type.checkOthers = argFirstCheck := by
  cases k with
  | bytes => exact .inl rfl
  | noNul => exact .inl rfl
  | line => exact .inl rfl
  | word => exact .inl rfl
  | _ => exact .inr rfl

theorem admits_nil (h : k.hasDefault = true) : k.Admits [] := by
  cases k with
  | bytes => rfl
  | noNul => rfl
  | line => rfl
  | word => rfl
  | _ => exact absurd h (by decide)

/-! ## Wider kinds -/

theorem into_cases (h : T.into U = true) : T = U ∨ U = .bytes ∨ U ∈ T.conversions := by
  simpa [into, or_assoc] using h

/-- The bytes of the narrower kinds are bytes of words. -/
theorem isInvalidForWord_of_conversions (h : .word ∈ T.conversions) {b : UInt8}
    (hb : T.type.isInvalid b = false) : isInvalidForWord true b = false := by
  cases T with
  | arg => exact hb
  | key => exact (isInvalidForKey_eq_false.mp hb).2.2
  | nick => exact (isInvalidForNick_eq_false.mp hb).2.2
  | user => exact (isInvalidForUser_eq_false.mp hb).2.2
  | cmd =>
    have hupper : isAsciiUppercase b = true := by
      simpa [type, StringType.cmd, cmdByteCheck] using hb
    exact isInvalidForWord_of_class hupper rfl
  | _ => exact absurd h (by simp [conversions])

/-- **A byte of a kind** is a byte of every wider one. -/
theorem isInvalid_of_into (h : T.into U = true) :
    ∀ b, T.type.isInvalid b = false → U.type.isInvalid b = false := by
  have hline : ∀ b, isInvalidForLine true b = false → isInvalidForNoNul b = false :=
    fun b hb => isInvalidForNoNul_eq_false.mpr (isInvalidForLine_eq_false.mp hb).2.2
  have hword : ∀ b, isInvalidForWord true b = false → isInvalidForLine true b = false :=
    fun b hb => isInvalidForLine_eq_false.mpr (isInvalidForWord_eq_false.mp hb).2
  rcases into_cases h with rfl | rfl | hmem
  · exact fun _ hb => hb
  · exact fun _ _ => rfl
  · cases T with
    | bytes => exact absurd hmem (by simp [conversions])
    | noNul => exact absurd hmem (by simp [conversions])
    | line =>
      obtain rfl : U = .noNul := by simpa [conversions] using hmem
      exact hline
    | word =>
      have hU : U = .noNul ∨ U = .line := by simpa [conversions] using hmem
      rcases hU with rfl | rfl
      · exact fun b hb => hline b (hword b hb)
      · exact hword
    | arg =>
      have hU : U = .noNul ∨ U = .line ∨ U = .word := by simpa [conversions] using hmem
      rcases hU with rfl | rfl | rfl
      · exact fun b hb => hline b (hword b hb)
      · exact hword
      · exact fun _ hb => hb
    | _ =>
      have hU : U = .noNul ∨ U = .line ∨ U = .word ∨ U = .arg := by
        simpa [conversions] using hmem
      intro b hb
      have hb' := isInvalidForWord_of_conversions (by simp [conversions]) hb
      rcases hU with rfl | rfl | rfl | rfl
      · exact hline b (hword b hb')
      · exact hword b hb'
      · exact hb'
      · exact hb'

theorem checkOthers_of_into (h : T.into U = true) (hbs : T.type.checkOthers bs = none) :
    U.type.checkOthers bs = none := by
  rcases into_cases h with rfl | rfl | hmem
  · exact hbs
  · rfl
  · rcases checkOthers_cases U with hU | hU
    · rw [hU]
      rfl
    -- only kinds that begin like an `Arg` are converted to one
    · have hT : T.type.checkOthers = argFirstCheck := by
        cases T with
        | bytes => exact absurd hmem (by simp [conversions])
        | noNul => exact absurd hmem (by simp [conversions])
        | line =>
          obtain rfl : U = .noNul := by simpa [conversions] using hmem
          exact hU
        | word =>
          have hU' : U = .noNul ∨ U = .line := by simpa [conversions] using hmem
          rcases hU' with rfl | rfl <;> exact hU
        | _ => rfl
      rw [hU, ← hT]
      exact hbs

/-- **A conversion to a wider kind** needs no check. -/
theorem Admits.into (h : T.Admits bs) (hinto : T.into U = true) : U.Admits bs := by
  obtain ⟨hothers, hbytes⟩ := admits_iff.mp h
  exact admits_iff.mpr ⟨checkOthers_of_into hinto hothers,
    fun b hb => isInvalid_of_into hinto b (hbytes b hb)⟩

/-! ## Narrower kinds -/

theorem checkBytes_congr {f g : UInt8 → Bool} (h : ∀ b ∈ bs, f b = g b) :
    checkBytes bs f = checkBytes bs g := by
  induction bs with
  | nil => rfl
  | cons b bs ih =>
    have hb := h b List.mem_cons_self
    have hbs := ih fun c hc => h c (List.mem_cons_of_mem _ hc)
    unfold checkBytes at hbs ⊢
    rw [List.find?_cons, List.find?_cons, hb]
    cases g b with
    | true => rfl
    | false => exact hbs

/-- The kinds whose `from_super` checks the bytes that they add to those that are invalid. -/
theorem superCheck_eq_of_checkBytes {sup : Kind} {f : UInt8 → Bool} (h : sup.Admits bs)
    (hcheck : k.superCheck bs = checkBytes bs f)
    (hothers : k.type.checkOthers = sup.type.checkOthers)
    (hbyte : ∀ b, sup.type.isInvalid b = false → f b = k.type.isInvalid b) :
    k.superCheck bs = k.type.findInvalid bs := by
  obtain ⟨hnone, hbytes⟩ := admits_iff.mp h
  rw [hcheck, checkBytes_congr fun b hb => hbyte b (hbytes b hb)]
  unfold StringType.findInvalid
  rw [hothers, hnone]

/-- **What `from_super` checks** is all that is left to check. -/
theorem superCheck_eq {sup : Kind} (hsup : k.superOf = some sup) (h : sup.Admits bs) :
    k.superCheck bs = k.type.findInvalid bs := by
  cases k with
  | bytes => exact absurd hsup (by simp [superOf])
  | noNul => exact absurd hsup (by simp [superOf])
  | arg =>
    obtain rfl := Option.some.inj hsup
    have hword : checkBytes bs (isInvalidForWord true) = none :=
      checkBytes_eq_none_iff.mpr (admits_iff.mp h).2
    show argFirstCheck bs = StringType.arg.findInvalid bs
    unfold StringType.findInvalid
    rw [StringType.checkOthers_arg]
    cases argFirstCheck bs with
    | some e => rfl
    | none => exact hword.symm
  | line =>
    obtain rfl := Option.some.inj hsup
    exact superCheck_eq_of_checkBytes h rfl rfl fun b (hb : isInvalidForNoNul b = false) => by
      simp [type, StringType.line, isInvalidForLine, hb]
  | word =>
    obtain rfl := Option.some.inj hsup
    exact superCheck_eq_of_checkBytes h rfl rfl fun b (hb : isInvalidForLine true b = false) => by
      simp [type, StringType.word, isInvalidForWord, hb]
  | key =>
    obtain rfl := Option.some.inj hsup
    exact superCheck_eq_of_checkBytes h rfl rfl fun b (hb : isInvalidForWord true b = false) => by
      simp [type, StringType.key, isInvalidForKey, hb]
  | nick =>
    obtain rfl := Option.some.inj hsup
    exact superCheck_eq_of_checkBytes h rfl rfl fun b (hb : isInvalidForWord true b = false) => by
      simp [type, StringType.nick, isInvalidForNick, hb]
  | user =>
    obtain rfl := Option.some.inj hsup
    exact superCheck_eq_of_checkBytes h rfl rfl fun b (hb : isInvalidForWord true b = false) => by
      simp [type, StringType.user, isInvalidForUser, hb]
  | cmd =>
    obtain rfl := Option.some.inj hsup
    exact superCheck_eq_of_checkBytes h rfl rfl fun _ _ => rfl

/-- **`from_super`** is `from_bytes` on the strings of the wider kind. -/
theorem fromSuper_eq_fromBytes {sup : Kind} (hsup : k.superOf = some sup) {b : Bytes}
    (h : sup.Admits b.value) : k.fromSuper b = k.fromBytes b := by
  unfold fromSuper fromBytes
  rw [superCheck_eq hsup h]

/-! ## Single bytes -/

/-- **Bytes are changed one by one**, each to itself or to a byte of a class that has bytes of the
kind only, and no colon. -/
theorem Admits.map (h : k.Admits bs) {f : UInt8 → UInt8} {g : UInt8 → Bool}
    (hf : ∀ b, f b = b ∨ g (f b) = true) (hg : ∀ c, g c = true → k.type.isInvalid c = false)
    (hcolon : g (byte ':') = false) : k.Admits (bs.map f) := by
  obtain ⟨hothers, hbytes⟩ := admits_iff.mp h
  refine admits_iff.mpr ⟨?_, fun c hc => ?_⟩
  · rcases checkOthers_cases k with hk | hk
    · rw [hk]
      rfl
    · rw [hk] at hothers ⊢
      obtain ⟨b, rest, rfl, hb⟩ := argFirstCheck_eq_none_iff.mp hothers
      refine argFirstCheck_cons_of_ne (fun heq => ?_) _
      rcases hf b with hsame | hmapped
      · exact hb (hsame.symm.trans heq)
      · rw [heq, hcolon] at hmapped
        exact absurd hmapped (by simp)
  · obtain ⟨b, hb, rfl⟩ := List.mem_map.mp hc
    rcases hf b with hsame | hmapped
    · rw [hsame]
      exact hbytes b hb
    · exact hg _ hmapped

/-- **Bytes are added at the end**, where the first one stays as it is. -/
theorem Admits.append (h : k.Admits bs) {r : List UInt8}
    (hr : ∀ b ∈ r, k.type.isInvalid b = false) : k.Admits (bs ++ r) := by
  obtain ⟨hothers, hbytes⟩ := admits_iff.mp h
  refine admits_iff.mpr ⟨?_, fun b hb => ?_⟩
  · rcases checkOthers_cases k with hk | hk
    · rw [hk]
      rfl
    · rw [hk] at hothers ⊢
      obtain ⟨b, rest, rfl, hb⟩ := argFirstCheck_eq_none_iff.mp hothers
      exact argFirstCheck_cons_of_ne hb _
  · rcases List.mem_append.mp hb with hb | hb
    · exact hbytes b hb
    · exact hr b hb

/-- What the casemaps write: letters, and the bytes that take the place of brackets and `~`. -/
def isCasemapped (b : UInt8) : Bool :=
  isAsciiAlphabetic b || b == byte '\x7b' || b == byte '|' || b == byte '\x7d' || b == byte '^'

theorem casemap_cases : ∀ f ∈ [toAsciiUppercase, toAsciiLowercase, rfc1459Strict, rfc1459],
    ∀ b : UInt8, f b = b ∨ isCasemapped (f b) = true := by
  intro f hf
  simp only [List.mem_cons, List.not_mem_nil, or_false] at hf
  rcases hf with rfl | rfl | rfl | rfl <;> exact forall_byte (by decide +kernel)

theorem toAsciiUppercase_cases :
    ∀ b : UInt8, toAsciiUppercase b = b ∨ isAsciiUppercase (toAsciiUppercase b) = true :=
  forall_byte (by decide +kernel)

/-- **A transform that is safe for a kind.** -/
theorem Admits.transform (h : k.Admits bs) {tf : Transform} (hsafe : k.isSafe tf = true) :
    k.Admits (tf.transform bs).transformed.bytes := by
  rcases bytes_transform tf bs with ⟨f, hbytes, hf⟩ | ⟨side, rfl, hbytes⟩
  · rw [hbytes]
    by_cases hk : k = .cmd
    -- only the uppercase casemap is safe for commands
    · subst hk
      obtain rfl : f = toAsciiUppercase := by
        rcases hf with ⟨rfl, rfl⟩ | ⟨rfl, rfl⟩ | ⟨casemap, rfl, rfl⟩
        · rfl
        · exact absurd hsafe (by simp [isSafe])
        · exact absurd hsafe (by simp [isSafe])
      refine h.map toAsciiUppercase_cases (fun c hc => ?_) rfl
      simpa [type, StringType.cmd, cmdByteCheck] using hc
    · refine h.map (casemap_cases f ?_) (fun c hc => isInvalid_of_class hk rfl hc) rfl
      rcases hf with ⟨-, rfl⟩ | ⟨-, rfl⟩ | ⟨casemap, -, rfl⟩
      · simp
      · simp
      · cases casemap <;> simp [IrcCasemap.map]
  -- trimming is safe only where there is no check of the first byte
  · rw [hbytes]
    obtain ⟨l, r, hsplit, -⟩ := exists_trimAscii side bs
    have hothers : k.type.checkOthers = returnNone := by
      cases k with
      | bytes => rfl
      | noNul => rfl
      | line => rfl
      | _ => exact absurd hsafe (by simp [isSafe])
    refine admits_iff.mpr ⟨by rw [hothers]; rfl, fun b hb => (admits_iff.mp h).2 b ?_⟩
    rw [hsplit]
    simp [hb]

end Kind

/-! ## Methods -/

section

variable [Base64.Engine]

theorem admits_toBase64Impl (b : Bytes) : Kind.word.Admits (toBase64Impl b).value :=
  Kind.admits_iff.mpr ⟨rfl, fun c hc =>
    (Base64.isInvalidForWord_of_isBase64 (Base64.Engine.isBase64_encode b.value c hc)).1⟩

/-- **The methods of strings**, except `Cmd::from_word`. -/
theorem admits_strOp (hencode : ∀ bytes, bytes ≠ [] → Base64.Engine.encode bytes ≠ [])
    {o : StrOp} {k k' : Kind} {b b' : Bytes} (ho : o ≠ .fromWord) (h : k.Admits b.value)
    (hop : o.apply (k, b) = some (k', b')) : k'.Admits b'.value := by
  have hzero : k.into .noNul = true → ∀ c ∈ b.value, c ≠ 0 := fun hinto c hc =>
    isInvalidForNoNul_eq_false.mp ((Kind.admits_iff.mp (h.into hinto)).2 c hc)
  have hescape : k.into .noNul = true → Kind.word.Admits (escapeBytes b.value) := fun hinto =>
    Kind.admits_iff.mpr ⟨rfl, fun _ hc => (escapeBytes_valid (hzero hinto) hc).2⟩
  cases StrOp.makes_of_apply hop with
  | clone => exact h
  | owning => rwa [Bytes.value_owning]
  | makeOwning => rwa [Bytes.value_makeOwning]
  | secret => rwa [Bytes.value_secret]
  | toUtf8 => rwa [Bytes.value_toUtf8]
  | toUtf8Lossy => rwa [Bytes.value_utf8Cow]
  | intoUtf8Lossy hk =>
    rw [hk]
    exact Kind.admits_iff.mpr ⟨rfl, fun _ _ => rfl⟩
  | transform tf hsafe =>
    rw [Bytes.value_transform]
    exact h.transform hsafe
  | into _ hinto => exact h.into hinto
  | fromBytes _ hnone => exact hnone
  | fromSuper _ sup hsup hinto hnone =>
    rw [Kind.superCheck_eq hsup (h.into hinto)] at hnone
    exact hnone
  | fromWord => exact absurd rfl ho
  | escapeNothing hinto hnone =>
    have hword := hescape hinto
    rw [escapeBytes_eq_flatMap, flatMap_escapeOne_of_none hnone] at hword
    exact hword
  | escape hinto => exact hescape hinto
  | unescapeNothing hinto => exact h.into hinto
  | unescape hinto =>
    exact Kind.admits_iff.mpr ⟨rfl, fun c hc =>
      isInvalidForNoNul_eq_false.mpr (unescapeBytes_ne_zero (hzero hinto) c hc)⟩
  | toBase64 => exact admits_toBase64Impl b
  | toBase64Plus hne => exact Base64.encode_valid (hencode b.value hne)
  | plus => exact show StringType.arg.findInvalid _ = none by decide +kernel

end

/-! ## Splitters -/

namespace Splitter

variable {s : Splitter}

/-- The bytes that a splitter can return are those of its string, which belongs to its kind. -/
def Admissible (s : Splitter) : Prop := ∀ b ∈ s.str.value, s.kind.type.isInvalid b = false

theorem mem_of_mem_asSlice {b : UInt8} (hb : b ∈ s.asSlice) : b ∈ s.str.value :=
  List.mem_of_mem_take (List.mem_of_mem_drop hb)

theorem Admissible.sameString (h : s.Admissible) {s' : Splitter} (hsame : s'.SameString s) :
    s'.Admissible := by
  unfold Admissible
  rw [hsame.1, hsame.2]
  exact h

/-- **A string that is extracted**: the bytes are those of a kind that is at least as narrow, or are
checked one by one. -/
theorem Admissible.peek (h : s.Admissible) {e : Extraction} (hallowed : e.allowed s = true)
    {b : Bytes} (hpeek : e.peek s = .ok b) : e.kind.Admits b.value := by
  obtain ⟨n, -, rfl, hothers, hend⟩ := Extraction.begins_of_peek hpeek
  refine Kind.admits_iff.mpr ⟨hothers, fun c hc => ?_⟩
  have hmem : c ∈ s.asSlice := List.mem_of_mem_take hc
  rcases hend with ⟨-, hinto | hall⟩ | hidx
  · exact Kind.isInvalid_of_into (hinto hallowed) c (h c (mem_of_mem_asSlice hmem))
  · exact hall c hmem
  · have hbefore : c ∈ s.asSlice.takeWhile fun c => !e.kind.type.isInvalid c := by
      rw [← Scan.take_eq_takeWhile_of_findIdx? hidx]
      exact hc
    simpa using List.mem_takeWhile_imp hbefore

/-- **A string that is extracted, and the splitter after it.** -/
theorem Admissible.run (h : s.Admissible) {e : Extraction} {b : Bytes} {s' : Splitter}
    (hrun : e.run s = some (b, s')) : e.kind.Admits b.value ∧ s'.Admissible := by
  refine ⟨?_, h.sameString (Extraction.sameString_run hrun)⟩
  obtain ⟨hallowed, ⟨hpeek, -⟩ | ⟨rfl, hdefault, -⟩⟩ := Extraction.run_eq_some hrun
  · exact h.peek hallowed hpeek
  · exact Kind.admits_nil hdefault

end Splitter

/-! ## Builders -/

namespace Builder

variable {b : Builder}

/-- What a builder has collected is a string of its kind. -/
def Admissible (b : Builder) : Prop := b.kind.Admits b.bytes

theorem Admissible.tryAppendUnchecked (h : b.Admissible) (string : List UInt8) (utf8 : Bool) :
    (b.tryAppendUnchecked string utf8).Admissible := by
  unfold Builder.tryAppendUnchecked
  split
  · exact h
  · rename_i hany
    refine Kind.Admits.append h fun c hc => ?_
    simpa using List.any_eq_false.mp (Bool.eq_false_iff.mpr hany) c hc

theorem Admissible.apply (h : b.Admissible) (o : BuilderOp) : (o.apply b).Admissible := by
  cases o with
  | tryAppend string => exact h.tryAppendUnchecked _ _
  | tryAppendStr string => exact h.tryAppendUnchecked _ _
  | tryPush byte => exact h.tryAppendUnchecked _ _
  | tryPushChar c => exact h.tryAppendUnchecked _ _
  | checkUtf8 =>
    show b.checkUtf8.Admissible
    unfold checkUtf8
    split <;> exact h

theorem value_build (b : Builder) : b.build.value = b.bytes := by
  unfold build
  split <;> rfl

end Builder

/-! ## Everything that can be made -/

variable [Base64.Engine]

/-- An object is made of strings of its kind. -/
def Object.Admissible : Object → Prop
  | .str k b => k.Admits b.value
  | .splitter s => s.Admissible
  | .builder b => b.Admissible

/-- **Whatever is made** without `Cmd::from_word` consists of strings of its kind. -/
theorem admissible_of_obtainable
    (hencode : ∀ bytes, bytes ≠ [] → Base64.Engine.encode bytes ≠ [])
    {Drops : Splitter → Prop} {x : Object} (hx : Obtainable (· ≠ .fromWord) Drops x) :
    x.Admissible := by
  have hbytes : ∀ value, Kind.bytes.Admits value := fun _ =>
    Kind.admits_iff.mpr ⟨rfl, fun _ _ => rfl⟩
  induction hx with
  | empty k hk => exact Kind.admits_nil hk
  | default k hk => exact Kind.admits_nil hk
  | fromBytes value => exact hbytes value
  | fromVec value => exact hbytes value
  | fromString value => exact hbytes _
  | fromStr k value hk => exact hk
  | fromSecret k value hk => exact hk
  | strOp o k k' b b' ho _ hop ih => exact admits_strOp hencode ho ih hop
  | splitterNew k b _ ih => exact (Kind.admits_iff.mp ih).2
  | splitterOp o s _ _ ih =>
    exact Splitter.Admissible.sameString ih (Splitter.sameString_apply o s)
  | extracted e s s' b _ hrun ih => exact (Splitter.Admissible.run ih hrun).1
  | splitterAfter e s s' b _ hrun ih => exact (Splitter.Admissible.run ih hrun).2
  | builderNew k b _ ih => exact ih
  | builderOp o b _ ih => exact Builder.Admissible.apply ih o
  | builderAppend k string b _ _ hk ihb ihs =>
    exact Kind.Admits.append ihb (Kind.admits_iff.mp (Kind.Admits.into ihs hk)).2
  | build b _ ih =>
    show b.kind.Admits b.build.value
    rw [Builder.value_build]
    exact ih

/-- **Every string belongs to its kind**, in whatever order it was made from others; and
`from_super` accepts the same strings as `from_bytes`, with the same error. -/
theorem newtypes_valid (hencode : ∀ bytes, bytes ≠ [] → Base64.Engine.encode bytes ≠ []) :
    (∀ k b, Obtainable (· ≠ .fromWord) (fun _ => True) (.str k b) →
      k.type.findInvalid b.value = none) ∧
    ∀ k sup, Kind.superOf k = some sup → ∀ b : Bytes, sup.type.findInvalid b.value = none →
      k.fromSuper b = k.fromBytes b :=
  ⟨fun _ _ hb => admissible_of_obtainable hencode hb,
    fun _ _ hsup _ h => Kind.fromSuper_eq_fromBytes hsup h⟩

omit [Base64.Engine] in
/-- The `Word` before the space in `"A= b"`, in base64; it is an `Arg`, but not a `Key`. -/
theorem newtypes_valid_encoded :
    letI := Base64.standardEngine
    (∀ bytes, bytes ≠ [] → Base64.Engine.encode bytes ≠ []) ∧
      Obtainable (· ≠ .fromWord) (fun _ => True)
        (.str .arg (toBase64Impl (.fromBytes (text "A=")))) ∧
      Kind.arg.type.findInvalid (toBase64Impl (.fromBytes (text "A="))).value = none ∧
      Kind.key.fromSuper (.fromBytes (text "A=")) = .error (.byte (byte '=')) ∧
      Kind.key.fromBytes (.fromBytes (text "A=")) = .error (.byte (byte '=')) := by
  let _ : Base64.Engine := Base64.standardEngine
  have hencode : ∀ bytes, bytes ≠ [] → Base64.Engine.encode bytes ≠ [] := fun _ =>
    Base64.encodeStandard_ne_nil
  have hstr : Obtainable (· ≠ .fromWord) (fun _ => True)
      (.str .bytes (.fromBytes (text "A= b"))) := .fromBytes _
  have hword : Obtainable (· ≠ .fromWord) (fun _ => True) (.str .word (.fromBytes (text "A="))) :=
    .extracted (.string .word false) _ _ _ (.splitterNew _ _ hstr) rfl
  have harg := hword.strOp .toBase64Plus _ _ _ _ (by simp) rfl
  have hsuper := (newtypes_valid hencode).2 .key .arg rfl (.fromBytes (text "A=")) (by decide)
  exact ⟨hencode, harg, (newtypes_valid hencode).1 _ _ harg, rfl, hsuper ▸ rfl⟩

end Flagged

end Vinezombie
