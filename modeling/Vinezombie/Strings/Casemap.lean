import Vinezombie.Strings.Encoding
import Vinezombie.Strings.Invariants

/-!
# Casemaps

`string/tf.rs` and `string/tf/casemap.rs`.  A casemap is a map of single bytes that is done by
`map_bytes`, which copies the string only if it has to: the first loop looks for a byte that is
changed, and only if there is one, a second loop writes the new string.  Both loops take note of
whether what they have seen is ASCII, which overrides the policy for the flag of the string.

`mapBytes` says in one go what comes out of that; here are the loops themselves.

* `mapBytesLoops`: `map_bytes`, loop by loop.
* `mapBytesLoops_eq`: it maps the bytes, and borrows the string if none of them changes.
* `Casemap.correct`: what holds of the casemaps of the crate.
-/

namespace Vinezombie

open Library.Utf8

/-! ## The loops -/

/-- The variables of `map_bytes` in its first loop. -/
structure MapScan where
  replace : UInt8
  idx : Nat
  asciiOnly : Bool

/-- The first loop of `map_bytes`, which ends behind the first byte that is changed. -/
def mapScan (f : UInt8 → UInt8) : MapScan → List UInt8 → MapScan
  | scan, [] => scan
  | scan, b :: bytes =>
    let mapped := f b
    let asciiOnly := scan.asciiOnly && isAscii mapped
    if mapped ≠ b then { scan with replace := mapped, asciiOnly }
    else mapScan f { scan with idx := scan.idx + 1, asciiOnly } bytes

/-- The second loop of `map_bytes`, with the variables `new_bytes` and `ascii_only`. -/
def mapRest (f : UInt8 → UInt8) : List UInt8 × Bool → List UInt8 → List UInt8 × Bool
  | copied, [] => copied
  | (newBytes, asciiOnly), b :: bytes =>
    let mapped := f b
    mapRest f (newBytes ++ [mapped], asciiOnly && isAscii mapped) bytes

/-- `map_bytes`, loop by loop. -/
def mapBytesLoops (bytes : List UInt8) (utf8 : Utf8Policy) (f : UInt8 → UInt8) :
    Transformation :=
  let scan := mapScan f ⟨0, 0, true⟩ bytes
  if scan.idx < bytes.length then
    let copied := mapRest f (bytes.take scan.idx ++ [scan.replace], scan.asciiOnly)
      (bytes.drop (scan.idx + 1))
    ⟨.owned copied.1, if copied.2 then .valid else utf8⟩
  else ⟨.borrowed bytes, if scan.asciiOnly then .valid else utf8⟩

variable {f : UInt8 → UInt8} {same bytes : List UInt8}

/-- The bytes that are not changed are counted. -/
theorem mapScan_append (scan : MapScan) (h : ∀ b ∈ same, f b = b) :
    mapScan f scan (same ++ bytes) =
      mapScan f { scan with
        idx := scan.idx + same.length
        asciiOnly := scan.asciiOnly && same.all fun b => isAscii (f b) } bytes := by
  induction same generalizing scan with
  | nil => simp
  | cons b same ih =>
    have hb : f b = b := h b List.mem_cons_self
    have hrest : ∀ c ∈ same, f c = c := fun c hc => h c (List.mem_cons_of_mem _ hc)
    rw [List.cons_append, mapScan, if_neg (not_not_intro hb), ih _ hrest]
    congr 1
    simp [Nat.add_comm, Nat.add_left_comm, Bool.and_assoc]

/-- The second loop maps what is left. -/
theorem mapRest_eq (f : UInt8 → UInt8) (newBytes : List UInt8) (asciiOnly : Bool)
    (bytes : List UInt8) :
    mapRest f (newBytes, asciiOnly) bytes =
      (newBytes ++ bytes.map f, asciiOnly && bytes.all fun b => isAscii (f b)) := by
  induction bytes generalizing newBytes asciiOnly with
  | nil => simp [mapRest]
  | cons b bytes ih =>
    rw [mapRest, ih]
    simp [Bool.and_assoc]

/-- **No byte is changed**: the string is borrowed. -/
theorem mapBytesLoops_of_same (utf8 : Utf8Policy) (h : ∀ b ∈ bytes, f b = b) :
    mapBytesLoops bytes utf8 f =
      ⟨.borrowed bytes, if bytes.all fun b => isAscii (f b) then .valid else utf8⟩ := by
  have hscan : mapScan f ⟨0, 0, true⟩ (bytes ++ []) = _ := mapScan_append ⟨0, 0, true⟩ h
  rw [List.append_nil, mapScan] at hscan
  unfold mapBytesLoops
  simp [hscan]

/-- **The first byte that is changed**, wherever it is: the bytes before it are copied, it is
replaced, and those after it are mapped. -/
theorem mapBytesLoops_of_changed (utf8 : Utf8Policy) (h : ∀ b ∈ same, f b = b) {b : UInt8}
    (hb : f b ≠ b) (rest : List UInt8) :
    mapBytesLoops (same ++ b :: rest) utf8 f =
      ⟨.owned (same ++ f b :: rest.map f),
        if (same ++ b :: rest).all fun b => isAscii (f b) then .valid else utf8⟩ := by
  have hscan : mapScan f ⟨0, 0, true⟩ (same ++ b :: rest) = _ := mapScan_append ⟨0, 0, true⟩ h
  rw [mapScan] at hscan
  dsimp only at hscan
  rw [if_pos hb] at hscan
  have hdrop : (same ++ b :: rest).drop (same.length + 1) = rest := by
    rw [← List.drop_drop, List.drop_left]
    rfl
  unfold mapBytesLoops
  simp [hscan, hdrop, mapRest_eq, Bool.and_assoc]

/-- Either no byte is changed, or there is a first one. -/
theorem changed_cases (f : UInt8 → UInt8) (bytes : List UInt8) :
    (∀ b ∈ bytes, f b = b) ∨
      ∃ same b rest, bytes = same ++ b :: rest ∧ (∀ c ∈ same, f c = c) ∧ f b ≠ b := by
  induction bytes with
  | nil => exact .inl (by simp)
  | cons b bytes ih =>
    by_cases hb : f b = b
    · rcases ih with hall | ⟨same, c, rest, rfl, hsame, hc⟩
      · exact .inl (List.forall_mem_cons.mpr ⟨hb, hall⟩)
      · exact .inr ⟨b :: same, c, rest, rfl, List.forall_mem_cons.mpr ⟨hb, hsame⟩, hc⟩
    · exact .inr ⟨[], b, bytes, rfl, by simp, hb⟩

/-- **`map_bytes`** does what `mapBytes` says. -/
theorem mapBytesLoops_eq (bytes : List UInt8) (utf8 : Utf8Policy) (f : UInt8 → UInt8) :
    mapBytesLoops bytes utf8 f = mapBytes bytes utf8 f := by
  rcases changed_cases f bytes with hall | ⟨same, b, rest, rfl, hsame, hb⟩
  · have htake : (bytes.takeWhile fun b => f b == b) = bytes :=
      List.takeWhile_eq_self_iff.mpr fun b hb => by simpa using hall b hb
    rw [mapBytesLoops_of_same utf8 hall]
    unfold mapBytes
    simp [htake]
  · have htake : ((same ++ b :: rest).takeWhile fun b => f b == b) = same := by
      rw [List.takeWhile_append_of_pos fun c hc => by simpa using hsame c hc,
        List.takeWhile_cons_of_neg (by simpa using hb), List.append_nil]
    rw [mapBytesLoops_of_changed utf8 hsame hb]
    unfold mapBytes
    simp [htake]

/-- **The string is borrowed** exactly when nothing changes. -/
theorem transformed_mapBytesLoops (bytes : List UInt8) (utf8 : Utf8Policy)
    (f : UInt8 → UInt8) : (mapBytesLoops bytes utf8 f).transformed =
      if bytes.map f = bytes then .borrowed bytes else .owned (bytes.map f) := by
  rcases changed_cases f bytes with hall | ⟨same, b, rest, rfl, hsame, hb⟩
  · have hmap : bytes.map f = bytes := (List.map_congr_left hall).trans (List.map_id _)
    rw [mapBytesLoops_of_same utf8 hall, if_pos hmap]
  · have hmap : same.map f = same := (List.map_congr_left hsame).trans (List.map_id _)
    have hchanged : (same ++ b :: rest).map f ≠ same ++ b :: rest := by
      rw [List.map_append, hmap, List.map_cons]
      simp [hb]
    rw [mapBytesLoops_of_changed utf8 hsame hb, if_neg hchanged, List.map_append, hmap,
      List.map_cons]

/-! ## Casemaps -/

/-- The casemaps of the crate: `AsciiCasemap` and `IrcCasemap`. -/
inductive Casemap where
  | ascii (uppercase : Bool)
  | irc (casemap : IrcCasemap)
  deriving DecidableEq, Repr

namespace Casemap

/-- A casemap as one of the transforms. -/
def tf : Casemap → Transform
  | ascii uppercase => .asciiCasemap uppercase
  | irc casemap => .ircCasemap casemap

/-- The function that a casemap gives to `map_bytes`. -/
def byteMap : Casemap → UInt8 → UInt8
  | ascii true => toAsciiUppercase
  | ascii false => toAsciiLowercase
  | irc casemap => casemap.map

variable (c : Casemap)

theorem transform_eq (bytes : List UInt8) :
    c.tf.transform bytes = mapBytesLoops bytes .preserveStrict c.byteMap := by
  rw [mapBytesLoops_eq]
  cases c with
  | ascii uppercase =>
    cases uppercase with
    | true => rfl
    | false => rfl
  | irc casemap => rfl

theorem byteMap_mem :
    c.byteMap ∈ [toAsciiUppercase, toAsciiLowercase, rfc1459Strict, rfc1459] := by
  cases c with
  | ascii uppercase => cases uppercase <;> simp [byteMap]
  | irc casemap => cases casemap <;> simp [byteMap, IrcCasemap.map]

/-- A byte is ASCII after the map exactly when it was before, and else it is left alone. -/
theorem isAscii_byteMap (b : UInt8) :
    isAscii (c.byteMap b) = isAscii b ∧ (isAscii b = false → c.byteMap b = b) := by
  obtain ⟨hlow, hhigh⟩ := isAscii_casemap c.byteMap c.byteMap_mem b
  refine ⟨?_, hhigh⟩
  cases hb : isAscii b with
  | true => exact hlow hb
  | false => rw [hhigh hb, hb]

theorem byteMap_byteMap (b : UInt8) : c.byteMap (c.byteMap b) = c.byteMap b := by
  have hall : ∀ f ∈ [toAsciiUppercase, toAsciiLowercase, rfc1459Strict, rfc1459],
      ∀ b : UInt8, f (f b) = f b := by
    intro f hf
    simp only [List.mem_cons, List.not_mem_nil, or_false] at hf
    rcases hf with rfl | rfl | rfl | rfl <;> exact forall_byte (by decide +kernel)
  exact hall c.byteMap c.byteMap_mem b

variable (b : Bytes)

/-- What a casemap does to a string. -/
structure Correct : Prop where
  /-- The loops of `map_bytes` are run over the string. -/
  loops : c.tf.transform b.value = mapBytesLoops b.value .preserveStrict c.byteMap
  value : (b.transform c.tf).value = b.value.map c.byteMap
  transformed : (c.tf.transform b.value).transformed =
    if b.value.map c.byteMap = b.value then .borrowed b.value
    else .owned (b.value.map c.byteMap)
  length : (b.transform c.tf).value.length = b.value.length
  nonAscii : ∀ (i : Nat) (x : UInt8), isAscii x = false →
    ((b.transform c.tf).value[i]? = some x ↔ b.value[i]? = some x)
  valid : Valid (b.transform c.tf).value ↔ Valid b.value
  /-- The policy is overridden only where all bytes are ASCII. -/
  utf8 : (c.tf.transform b.value).utf8 =
    if b.value.all isAscii then .valid else .preserveStrict
  sound : b.Sound → (b.transform c.tf).Sound
  idempotent : (b.transform c.tf).transform c.tf = b.transform c.tf
  admits : ∀ k : Flagged.Kind, k.isSafe c.tf = true → k.Admits b.value →
    k.Admits (b.transform c.tf).value

variable {c b}

theorem value_transform : (b.transform c.tf).value = b.value.map c.byteMap := by
  rw [Bytes.value_transform, transform_eq, mapBytesLoops_eq, bytes_mapBytes]

theorem all_isAscii_map (bytes : List UInt8) :
    (bytes.map c.byteMap).all isAscii = bytes.all isAscii := by
  rw [List.all_map]
  exact congrArg bytes.all (funext fun x => (c.isAscii_byteMap x).1)

theorem utf8_transform_eq (bytes : List UInt8) : (c.tf.transform bytes).utf8 =
    if bytes.all isAscii then .valid else .preserveStrict := by
  rw [transform_eq, mapBytesLoops_eq, ← c.all_isAscii_map bytes, List.all_map]
  rfl

/-- The flag of the new string, whether it is borrowed or not. -/
theorem utf8_transform : (b.transform c.tf).utf8 =
    if b.value.all isAscii then .valid else b.utf8 := by
  have hpolicy := c.utf8_transform_eq b.value
  unfold Bytes.transform
  dsimp only
  split
  · rename_i hempty
    have hnil : b.value = [] := by
      rw [← Bytes.value_transform, value_transform] at hempty
      simpa using hempty
    rw [hnil]
    rfl
  · by_cases hall : b.value.all isAscii = true
    · rw [if_pos hall] at hpolicy ⊢
      rw [hpolicy]
      split <;> rfl
    · rw [if_neg hall] at hpolicy ⊢
      rw [hpolicy]
      split <;> rfl

/-- **A string that does not change** keeps all but its flag. -/
theorem transform_of_same (hne : b.value ≠ []) (hsame : b.value.map c.byteMap = b.value) :
    b.transform c.tf = { b with utf8 := (b.transform c.tf).utf8 } := by
  have hcow : (c.tf.transform b.value).transformed = .borrowed b.value := by
    rw [transform_eq, transformed_mapBytesLoops, if_pos hsame]
  unfold Bytes.transform
  simp [hcow, Cow.bytes, hne]

theorem transform_transform : (b.transform c.tf).transform c.tf = b.transform c.tf := by
  by_cases hnil : b.value = []
  · have hempty : b.transform c.tf = .empty := by
      unfold Bytes.transform
      rw [if_pos]
      rw [← Bytes.value_transform, value_transform, hnil]
      rfl
    rw [hempty]
    cases c with
    | ascii uppercase => cases uppercase <;> rfl
    | irc casemap => cases casemap <;> rfl
  · have hne : (b.transform c.tf).value ≠ [] := by
      rw [value_transform]
      simpa using hnil
    have hsame : (b.transform c.tf).value.map c.byteMap = (b.transform c.tf).value := by
      rw [value_transform, List.map_map]
      exact List.map_congr_left fun x _ => c.byteMap_byteMap x
    -- the second flag is that of the first, since both strings are ASCII or neither is
    have hutf8 : ((b.transform c.tf).transform c.tf).utf8 = (b.transform c.tf).utf8 := by
      rw [utf8_transform, utf8_transform, value_transform, all_isAscii_map]
      split <;> rfl
    rw [transform_of_same hne hsame, hutf8]

/-- **The bytes that are not ASCII** are where they were. -/
theorem getElem?_transform_iff (i : Nat) {x : UInt8} (hx : isAscii x = false) :
    (b.transform c.tf).value[i]? = some x ↔ b.value[i]? = some x := by
  rw [value_transform, List.getElem?_map, Option.map_eq_some_iff]
  constructor
  · rintro ⟨y, hy, rfl⟩
    rw [(c.isAscii_byteMap y).1] at hx
    rw [(c.isAscii_byteMap y).2 hx]
    exact hy
  · exact fun h => ⟨x, h, (c.isAscii_byteMap x).2 hx⟩

theorem valid_transform_iff : Valid (b.transform c.tf).value ↔ Valid b.value := by
  rw [value_transform]
  exact valid_map_iff (fun x hx => (c.isAscii_byteMap x).1.trans hx)
    fun x => (c.isAscii_byteMap x).2

/-- **Every casemap** does to every string what it is for. -/
theorem correct (c : Casemap) (b : Bytes) : c.Correct b where
  loops := c.transform_eq b.value
  value := value_transform
  transformed := by rw [transform_eq, transformed_mapBytesLoops]
  length := by rw [value_transform, List.length_map]
  nonAscii i _ hx := getElem?_transform_iff i hx
  valid := valid_transform_iff
  utf8 := utf8_transform_eq b.value
  sound h := h.transform c.tf
  idempotent := transform_transform
  admits k hsafe h := by
    rw [Bytes.value_transform]
    exact h.transform hsafe

end Casemap

end Vinezombie
