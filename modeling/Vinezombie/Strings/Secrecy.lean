import Vinezombie.Library.Machine
import Vinezombie.Strings.Base64RoundTrip
import Vinezombie.Strings.Encoding
import Vinezombie.Strings.FlaggedSteps

/-!
# Secret strings

A secret string is not printed, and its documentation has its buffer erased when it is dropped.  What
is made from a secret string ought to be secret as well.  Most methods hand the flag on; three have a
branch that does not: `make_owning` of a string that borrows its data, or is empty; a transform with
nothing left; and `into_utf8_lossy` of bytes that are not UTF-8.

* `Step`, `step`: the methods, and strings taken from a splitter of the string.
* `Keeps`: the calls that stay clear of the three branches.
* `isSecret_step_iff`: these, and no others, keep a string secret.
* `secrecy_sticky_iff`: a string is secret throughout a sequence of calls exactly if each of them is
  such a call.
-/

namespace Vinezombie

open Library Library.Utf8

/-! ## Methods of strings -/

/-- The strings of which a transform leaves something. -/
def Transform.Leaves : Transform → List UInt8 → Prop
  | .trimAscii _, bytes => ∃ b ∈ bytes, isAsciiWhitespace b = false
  | _, bytes => bytes ≠ []

theorem trimAscii_ne_nil_iff (side : StringSide) (bytes : List UInt8) :
    trimAscii side bytes ≠ [] ↔ ∃ b ∈ bytes, isAsciiWhitespace b = false := by
  constructor
  · intro hne
    by_contra hall
    push Not at hall
    have hwhite : ∀ b ∈ bytes, isAsciiWhitespace b = true := fun b hb => by
      simpa using hall b hb
    refine hne ?_
    unfold trimAscii
    cases side with
    | atStart => exact List.dropWhile_eq_nil_iff.mpr hwhite
    | atEnd => exact List.rdropWhile_eq_nil_iff.mpr hwhite
    | _ =>
      show List.dropWhile _ (bytes.rdropWhile isAsciiWhitespace) = []
      rw [List.rdropWhile_eq_nil_iff.mpr hwhite]
      rfl
  · rintro ⟨b, hb, hnot⟩ hnil
    obtain ⟨l, r, hsplit, hl, hr⟩ := exists_trimAscii side bytes
    rw [hsplit, hnil, List.append_nil] at hb
    have hwhite : isAsciiWhitespace b = true := by
      rcases List.mem_append.mp hb with hb | hb
      · exact hl b hb
      · exact hr b hb
    rw [hnot] at hwhite
    exact absurd hwhite (by simp)

theorem bytes_transform_ne_nil_iff (tf : Transform) (bytes : List UInt8) :
    (tf.transform bytes).transformed.bytes ≠ [] ↔ tf.Leaves bytes := by
  rcases bytes_transform tf bytes with ⟨f, hbytes, hf⟩ | ⟨side, rfl, hbytes⟩
  · rw [hbytes, Ne, List.map_eq_nil_iff]
    rcases hf with ⟨rfl, -⟩ | ⟨rfl, -⟩ | ⟨casemap, rfl, -⟩ <;> exact Iff.rfl
  · rw [hbytes]
    exact trimAscii_ne_nil_iff side bytes

namespace Bytes

variable {b : Bytes}

theorem isSecret_owning (h : b.isSecret = true) : b.owning.isSecret = true := by
  unfold owning
  split <;> exact h

theorem isSecret_secret (b : Bytes) : b.secret.isSecret = true := by
  unfold secret
  split <;> rfl

/-- **`make_owning`** of a secret string is secret only if there was nothing to do. -/
theorem isSecret_makeOwning_iff (h : b.isSecret = true) :
    b.makeOwning.isSecret = true ↔ b.isOwning = true := by
  unfold makeOwning
  cases howning : b.isOwning with
  | true => exact iff_of_true h rfl
  | false => exact iff_of_false (by simp [owningForce, ofVec]) (by simp)

/-- **A transform** of a secret string is secret unless nothing is left. -/
theorem isSecret_transform_iff (h : b.isSecret = true) (tf : Transform) :
    (b.transform tf).isSecret = true ↔ tf.Leaves b.value := by
  rw [← bytes_transform_ne_nil_iff]
  unfold transform
  dsimp only
  split
  · rename_i hempty
    exact iff_of_false (by simp [empty]) fun hne => hne (List.isEmpty_iff.mp hempty)
  · rename_i hne
    refine iff_of_true ?_ fun hnil => hne (List.isEmpty_iff.mpr hnil)
    split <;> exact h

/-- **`into_utf8_lossy`** of a secret string is secret if nothing has to be replaced, or the string
is taken to be UTF-8. -/
theorem isSecret_intoUtf8Lossy_iff (h : b.isSecret = true) :
    b.intoUtf8Lossy.isSecret = true ↔ b.utf8 = .valid ∨ Valid b.value := by
  have hcow : b.utf8 ≠ .valid → b.utf8Cow.1 = fromUtf8Lossy b.value := by
    intro hnot
    unfold utf8Cow isUtf8Lazy
    cases hflag : b.utf8 with
    | valid => exact absurd hflag hnot
    | invalid => rfl
    | unknown =>
      dsimp only
      cases fromUtf8Lossy b.value <;> rfl
  unfold intoUtf8Lossy
  by_cases hflag : b.utf8 = .valid
  · have hborrowed : b.utf8Cow.1 = .borrowed b.value := by
      unfold utf8Cow isUtf8Lazy
      rw [hflag]
    rw [hborrowed]
    exact iff_of_true h (.inl hflag)
  · rw [hcow hflag]
    rcases fromUtf8Lossy_cases b.value with ⟨hborrowed, hvalid⟩ | ⟨howned, hinvalid⟩
    · rw [hborrowed]
      exact iff_of_true h (.inr hvalid)
    · rw [howned]
      exact iff_of_false (by simp [ofVec]) (not_or.mpr ⟨hflag, hinvalid⟩)

end Bytes

namespace Flagged

/-! ## Splitters -/

/-- A call of a method of a splitter. -/
inductive SplitterCall where
  | op (o : SplitterOp)
  | extraction (e : Extraction)

/-- The splitter after the call. -/
def SplitterCall.apply : SplitterCall → Splitter → Splitter
  | .op o, s => o.apply s
  | .extraction e, s =>
    match e.run s with
    | some (_, s') => s'
    | none => s

theorem SplitterCall.str_apply (c : SplitterCall) (s : Splitter) : (c.apply s).str = s.str := by
  cases c with
  | op o => exact (Splitter.sameString_apply o s).1
  | extraction e =>
    unfold SplitterCall.apply
    dsimp only
    split
    · rename_i s' hrun
      exact (Extraction.sameString_run hrun).1
    · rfl

/-- A splitter keeps its string. -/
theorem str_foldl_apply (calls : List SplitterCall) (s : Splitter) :
    (calls.foldl (fun s c => c.apply s) s).str = s.str := by
  induction calls generalizing s with
  | nil => rfl
  | cons c calls ih => rw [List.foldl_cons, ih, c.str_apply]

/-! ## Sequences of calls -/

/-- The methods of strings that a secret string is put through, with the conversions between kinds
that lead to them. -/
def StrOp.isSticky : StrOp → Bool
  | .clone => true
  | .owning => true
  | .makeOwning => true
  | .secret => true
  | .transform _ => true
  | .intoUtf8Lossy => true
  | .into _ => true
  | _ => false

/-- A call that makes a string from a string. -/
inductive Step where
  | method (o : StrOp) (sticky : o.isSticky = true)
  /-- A splitter of the string, some calls of its methods, and an extraction. -/
  | extract (calls : List SplitterCall) (e : Extraction)

/-- The string that is made; no string where the call cannot be made or fails. -/
def step [Base64.Engine] : Kind × Bytes → Step → Except Unit (Kind × Bytes)
  | x, .method o _ =>
    match o.apply x with
    | some y => .ok y
    | none => .error ()
  | (k, b), .extract calls e =>
    let s := calls.foldl (fun s c => c.apply s) (.new k b)
    if e.allowed s then
      match e.peek s with
      | .ok b' => .ok (e.kind, b')
      | .error _ => .error ()
    else .error ()

/-- **The calls that keep a string secret**: `make_owning` if the string owns its data, a transform
if something is left, `into_utf8_lossy` if the bytes are UTF-8 or taken for it, and all others. -/
def Keeps : Kind × Bytes → Step → Prop
  | (_, b), .method .makeOwning _ => b.isOwning = true
  | (k, b), .method (.transform tf) _ => k.isSafe tf = true → tf.Leaves b.value
  | (k, b), .method .intoUtf8Lossy _ => k = .bytes → b.utf8 = .valid ∨ Valid b.value
  | _, _ => True

variable [Base64.Engine]

theorem step_method {x y : Kind × Bytes} {o : StrOp} {sticky : o.isSticky = true} :
    step x (.method o sticky) = .ok y ↔ o.apply x = some y := by
  simp only [step]
  cases hop : o.apply x with
  | none => simp
  | some z => simp

/-- A string that is taken from a splitter of a secret string. -/
theorem isSecret_extract {k : Kind} {b : Bytes} {calls : List SplitterCall} {e : Extraction}
    {y : Kind × Bytes} (h : b.isSecret = true) (hstep : step (k, b) (.extract calls e) = .ok y) :
    y.2.isSecret = true := by
  have hstr := str_foldl_apply calls (.new k b)
  unfold step at hstep
  dsimp only at hstep
  split at hstep
  · cases hpeek : e.peek (calls.foldl (fun s c => c.apply s) (.new k b)) with
    | error err =>
      rw [hpeek] at hstep
      exact absurd hstep (by simp)
    | ok b' =>
      rw [hpeek] at hstep
      rw [← Except.ok.inj hstep]
      obtain ⟨n, -, rfl, -⟩ := Extraction.begins_of_peek hpeek
      show (calls.foldl (fun s c => c.apply s) (Splitter.new k b)).str.isSecret = true
      rw [hstr]
      exact h
  · exact absurd hstep (by simp)

/-- **One call.** -/
theorem isSecret_step_iff {x : Kind × Bytes} (h : x.2.isSecret = true) (a : Step) :
    Keeps x a ↔ ∀ y, step x a = .ok y → y.2.isSecret = true := by
  obtain ⟨k, b⟩ := x
  -- a method that returns one string whenever a condition holds
  have hite : ∀ {o : StrOp} {sticky : o.isSticky = true} {c : Prop} {y : Kind × Bytes},
      (∀ z, o.apply (k, b) = some z ↔ c ∧ y = z) →
      ((∀ z, step (k, b) (.method o sticky) = .ok z → z.2.isSecret = true) ↔
        (c → y.2.isSecret = true)) := by
    intro o sticky c y happly
    constructor
    · exact fun hall hc => hall y (step_method.mpr ((happly y).mpr ⟨hc, rfl⟩))
    · intro hy z hz
      obtain ⟨hc, rfl⟩ := (happly z).mp (step_method.mp hz)
      exact hy hc
  have htrue : ∀ {o : StrOp} {sticky : o.isSticky = true} {c : Prop} {y : Kind × Bytes},
      (∀ z, o.apply (k, b) = some z ↔ c ∧ y = z) → y.2.isSecret = true →
      (True ↔ ∀ z, step (k, b) (.method o sticky) = .ok z → z.2.isSecret = true) :=
    fun happly hy => iff_of_true trivial ((hite happly).mpr fun _ => hy)
  cases a with
  | extract calls e => exact iff_of_true trivial fun y hy => isSecret_extract h hy
  | method o sticky =>
    cases o with
    | clone => exact htrue (c := True) (fun z => by simp [StrOp.apply]) h
    | owning =>
      exact htrue (c := True) (y := (k, b.owning)) (fun z => by simp [StrOp.apply])
        (Bytes.isSecret_owning h)
    | makeOwning =>
      refine Iff.trans ?_ (hite (c := True) (y := (k, b.makeOwning))
        fun z => by simp [StrOp.apply]).symm
      exact (Bytes.isSecret_makeOwning_iff h).symm.trans true_imp_iff.symm
    | secret =>
      exact htrue (c := True) (y := (k, b.secret)) (fun z => by simp [StrOp.apply])
        (Bytes.isSecret_secret b)
    | transform tf =>
      refine Iff.trans ?_ (hite (c := k.isSafe tf = true) (y := (k, b.transform tf))
        fun z => by simp [StrOp.apply]).symm
      exact imp_congr_right fun _ => (Bytes.isSecret_transform_iff h tf).symm
    | intoUtf8Lossy =>
      refine Iff.trans ?_ (hite (c := k = .bytes) (y := (k, b.intoUtf8Lossy))
        fun z => by simp [StrOp.apply]).symm
      exact imp_congr_right fun _ => (Bytes.isSecret_intoUtf8Lossy_iff h).symm
    | into k' =>
      exact htrue (c := k.into k' = true) (y := (k', b)) (fun z => by simp [StrOp.apply]) h
    | _ => exact absurd sticky (by simp [StrOp.isSticky])

/-- **Secrecy is sticky** along a sequence of calls, exactly if each of them keeps the string it is
made with secret. -/
theorem secrecy_sticky_iff (k : Kind) {b : Bytes} (h : b.isSecret = true) (calls : List Step) :
    Machine.Meets step (fun x a => ∀ y, step x a = .ok y → y.2.isSecret = true) (k, b) calls ↔
      Machine.Meets step Keeps (k, b) calls :=
  (Machine.meets_iff_of_keeps (fun x : Kind × Bytes => x.2.isSecret = true)
    (fun _ a hx => isSecret_step_iff hx a) h).symm

omit [Base64.Engine] in
/-- A password that owns its data, trimmed and then cut at the first space. -/
theorem secrecy_sticky_iff_owning :
    letI := Base64.standardEngine
    (Bytes.fromSecret (text " pass word ")).isSecret = true ∧
      Machine.Meets step (fun x a => ∀ y, step x a = .ok y → y.2.isSecret = true)
        (.line, .fromSecret (text " pass word "))
        [.method (.transform (.trimAscii .startFirst)) rfl, .extract [] (.string .word false),
          .method .makeOwning rfl] := by
  let _ : Base64.Engine := Base64.standardEngine
  refine ⟨rfl, (secrecy_sticky_iff .line rfl _).mpr ⟨fun _ => ?_, fun x hx => ?_⟩⟩
  · exact ⟨byte 'p', by decide, by decide⟩
  · obtain rfl := Except.ok.inj hx
    refine ⟨trivial, fun y hy => ?_⟩
    obtain rfl := Except.ok.inj hy
    exact ⟨rfl, fun _ _ => trivial⟩

omit [Base64.Engine] in
/-- A password that borrows its data: after `make_owning`, which `Tags::owning` calls, it is not
secret any more. -/
theorem not_secrecy_sticky :
    letI := Base64.standardEngine
    (Bytes.fromBytes (text "pw")).secret.isSecret = true ∧
      step (.noNul, (Bytes.fromBytes (text "pw")).secret) (.method .makeOwning rfl) =
        .ok (.noNul, .fromVec (text "pw")) ∧
      ¬ Machine.Meets step (fun x a => ∀ y, step x a = .ok y → y.2.isSecret = true)
        (.noNul, (Bytes.fromBytes (text "pw")).secret) [.method .makeOwning rfl] := by
  refine ⟨rfl, rfl, fun hmeets => ?_⟩
  have hsecret : (Bytes.fromVec (text "pw")).isSecret = true := hmeets.1 (.noNul, _) rfl
  exact absurd hsecret (by decide)

end Flagged

end Vinezombie
