import Mathlib.Data.List.Basic
import Mathlib.Data.List.Nodup

/-!
# Values of self-describing formats

A type is stored by turning its values into values of a data model, which a format then writes.  A
self-describing format can be read without knowing the type: what is read is again a value of the
data model, and for values that the format has a form for it is the one that was written.

What is read back is turned into a value of the type, or refused.  The rules for the shapes that
types are made of are here: text and optional values, sequences, maps, records of named fields and
alternatives without a tag.  Of several errors it is not kept which one is met first.

* `readAll_map`: reading a sequence that was written element by element.
* `fields_record`: reading the record that was written.
* `untagged_eq_ok_iff`: the alternatives.
-/

namespace Library.DataModel

/-- A value of the data model. -/
inductive Value where
  | unit
  | bool (b : Bool)
  | int (n : Int)
  | str (s : String)
  | bytes (bs : List UInt8)
  | seq (elems : List Value)
  | map (entries : List (Value × Value))

/-- Why a value is refused; `ε` are the reasons that a type has of its own. -/
inductive Refusal (ε : Type) where
  | invalidType
  | invalidValue
  | invalidLength
  | missingField (name : String)
  | duplicateField
  | noVariant
  | custom (e : ε)

/-- A format whose documents are values of `W`. -/
structure Format (W : Type) where
  write : Value → W
  read : W → Option Value

/-- The value is read back when it was written.  Formats differ in the values of which this is so:
they may have no byte arrays, a bound for integers, or names for keys only and each once. -/
def Format.Keeps {W : Type} (F : Format W) (v : Value) : Prop := F.read (F.write v) = some v

/-- The data model itself. -/
def Format.id : Format Value := ⟨fun v => v, some⟩

variable {α β ε W : Type}

/-- Reading a document. -/
def Format.deserialize (F : Format W) (f : Value → Except (Refusal ε) α) (w : W) :
    Except (Refusal ε) α :=
  match F.read w with
  | some v => f v
  | none => .error .invalidValue

theorem Format.deserialize_write {F : Format W} (f : Value → Except (Refusal ε) α) {v : Value}
    (hv : F.Keeps v) : F.deserialize f (F.write v) = f v := by
  rw [Format.deserialize, hv]

theorem Format.deserialize_eq_ok_iff {F : Format W} {f : Value → Except (Refusal ε) α} {w : W}
    {a : α} : F.deserialize f w = .ok a ↔ ∃ v, F.read w = some v ∧ f v = .ok a := by
  rw [Format.deserialize]
  cases F.read w with
  | none => simp
  | some v => simp

theorem map_eq_ok_iff {f : α → β} {r : Except ε α} {b : β} :
    r.map f = .ok b ↔ ∃ a, r = .ok a ∧ f a = b := by
  cases r with
  | error e => simp [Except.map]
  | ok a => simp [Except.map]

/-! ## Optional values -/

/-- An optional value, which is written as the value or as the unit. -/
def option (f : α → Value) : Option α → Value
  | some a => f a
  | none => .unit

/-- `Option` of what `f` reads. -/
def readOption (f : Value → Except (Refusal ε) α) : Value → Except (Refusal ε) (Option α)
  | .unit => .ok none
  | v => (f v).map some

theorem readOption_of_ne_unit (f : Value → Except (Refusal ε) α) {v : Value} (hv : v ≠ .unit) :
    readOption f v = (f v).map some := by
  cases v with
  | unit => exact absurd rfl hv
  | bool b => rfl
  | int n => rfl
  | str s => rfl
  | bytes bs => rfl
  | seq elems => rfl
  | map entries => rfl

theorem readOption_option {f : α → Value} {g : Value → Except (Refusal ε) α} {o : Option α}
    (hne : ∀ a ∈ o, f a ≠ .unit) (hg : ∀ a ∈ o, g (f a) = .ok a) :
    readOption g (option f o) = .ok o := by
  cases o with
  | none => rfl
  | some a =>
    rw [option, readOption_of_ne_unit g (hne a rfl), hg a rfl]
    rfl

/-! ## Sequences and maps -/

/-- Reading the elements of a list one after another. -/
def readAll (f : α → Except ε β) : List α → Except ε (List β)
  | [] => .ok []
  | a :: l =>
    match f a with
    | .error e => .error e
    | .ok b => (readAll f l).map (b :: ·)

/-- **A list that was written element by element** is read so. -/
theorem readAll_map {γ : Type} {f : α → Except ε β} {g : γ → α} {h : γ → β} {l : List γ}
    (hf : ∀ c ∈ l, f (g c) = .ok (h c)) : readAll f (l.map g) = .ok (l.map h) := by
  induction l with
  | nil => rfl
  | cons c l ih =>
    rw [List.map_cons, readAll, hf c List.mem_cons_self,
      ih fun c hc => hf c (List.mem_cons_of_mem _ hc)]
    rfl

theorem readAll_cons_eq_ok_iff {f : α → Except ε β} {a : α} {l : List α} {bs : List β} :
    readAll f (a :: l) = .ok bs ↔
      ∃ b rest, f a = .ok b ∧ readAll f l = .ok rest ∧ bs = b :: rest := by
  rw [readAll]
  cases f a with
  | error e => simp
  | ok b =>
    cases readAll f l with
    | error e => simp [Except.map]
    | ok rest => simp [Except.map, eq_comm]

/-- A list of what `f` reads. -/
def readSeq (f : Value → Except (Refusal ε) α) : Value → Except (Refusal ε) (List α)
  | .seq elems => readAll f elems
  | _ => .error .invalidType

theorem readSeq_eq_ok_iff {f : Value → Except (Refusal ε) α} {v : Value} {l : List α} :
    readSeq f v = .ok l ↔ ∃ elems, v = .seq elems ∧ readAll f elems = .ok l := by
  constructor
  · intro h
    unfold readSeq at h
    split at h
    · exact ⟨_, rfl, h⟩
    · exact absurd h nofun
  · rintro ⟨elems, rfl, h⟩
    exact h

/-- A list of entries, of what `fk` and `fv` read. -/
def readMap (fk : Value → Except (Refusal ε) α) (fv : Value → Except (Refusal ε) β) :
    Value → Except (Refusal ε) (List (α × β))
  | .map entries =>
    readAll (fun e =>
      match fk e.1, fv e.2 with
      | .ok k, .ok v => .ok (k, v)
      | .error e, _ => .error e
      | _, .error e => .error e) entries
  | _ => .error .invalidType

/-! ## Records -/

/-- A record: the map from the names of its fields to their values. -/
def record (entries : List (String × Value)) : Value :=
  .map (entries.map fun e => (.str e.1, e.2))

/-- The field that a key is for, if there is one: a name, the bytes of a name, or its index. -/
def fieldName (names : List String) : Value → Except (Refusal ε) (Option String)
  | .str s => .ok (names.find? fun name => name == s)
  | .bytes bs => .ok (names.find? fun name => name.toByteArray.data.toList == bs)
  | .int n => if 0 ≤ n then .ok names[n.toNat]? else .error .invalidType
  | _ => .error .invalidType

/-- The first value of a field. -/
def lookupField (entries : List (Option String × Value)) (name : String) : Option Value :=
  (entries.find? fun e => e.1 == some name).map Prod.snd

/-- The fields of a record with these names.  A map may have other keys, and no field twice; a
sequence has the fields in order. -/
def fields (names : List String) : Value → Except (Refusal ε) (String → Option Value)
  | .map entries =>
    match readAll (fun e => (fieldName names e.1).map fun name => (name, e.2)) entries with
    | .error e => .error e
    | .ok entries =>
      if (entries.filterMap Prod.fst).Nodup then .ok (lookupField entries)
      else .error .duplicateField
  | .seq elems =>
    if elems.length = names.length then .ok (lookupField ((names.map some).zip elems))
    else .error .invalidLength
  | _ => .error .invalidType

/-- A field that has to be there. -/
def required (f : Value → Except (Refusal ε) α) (get : String → Option Value) (name : String) :
    Except (Refusal ε) α :=
  match get name with
  | some v => f v
  | none => .error (.missingField name)

/-- A field with an optional value, which may also be left out. -/
def optional (f : Value → Except (Refusal ε) α) (get : String → Option Value) (name : String) :
    Except (Refusal ε) (Option α) :=
  match get name with
  | some v => readOption f v
  | none => .ok none

theorem required_of_eq_some {f : Value → Except (Refusal ε) α} {get : String → Option Value}
    {name : String} {v : Value} (h : get name = some v) : required f get name = f v := by
  rw [required, h]

theorem optional_of_eq_some {f : Value → Except (Refusal ε) α} {get : String → Option Value}
    {name : String} {v : Value} (h : get name = some v) :
    optional f get name = readOption f v := by
  rw [optional, h]

theorem fieldName_str {names : List String} {s : String} (hs : s ∈ names) :
    (fieldName names (.str s) : Except (Refusal ε) (Option String)) = .ok (some s) := by
  have hfind : (names.find? fun name => name == s) = some s := by
    cases hf : names.find? fun name => name == s with
    | none => exact absurd (beq_self_eq_true s) (List.find?_eq_none.mp hf s hs)
    | some name =>
      have hbeq : (name == s) = true := List.find?_some (p := fun name : String => name == s) hf
      rw [beq_iff_eq.mp hbeq]
  rw [fieldName, hfind]

/-- The value of a field that is there once. -/
theorem lookupField_of_mem {entries : List (String × Value)} (h : (entries.map Prod.fst).Nodup)
    {e : String × Value} (he : e ∈ entries) :
    lookupField (entries.map fun e => (some e.1, e.2)) e.1 = some e.2 := by
  induction entries with
  | nil => exact absurd he (by simp)
  | cons a entries ih =>
    rw [List.map_cons, List.nodup_cons] at h
    rw [List.map_cons, lookupField, List.find?_cons]
    rcases List.mem_cons.mp he with rfl | he
    · rw [beq_self_eq_true]
      rfl
    · have hne : a.1 ≠ e.1 := fun hk => h.1 (hk ▸ List.mem_map_of_mem he)
      have hbeq : (some a.1 == some e.1) = false := by
        rw [beq_eq_false_iff_ne, ne_eq, Option.some_inj]
        exact hne
      simp only [hbeq]
      exact ih h.2 he

/-- **A record that was written** is read with the fields it was written with. -/
theorem fields_record (entries : List (String × Value)) (h : (entries.map Prod.fst).Nodup) :
    ∃ get : String → Option Value,
      (fields (entries.map Prod.fst) (record entries) : Except (Refusal ε) _) = .ok get ∧
        ∀ e ∈ entries, get e.1 = some e.2 := by
  have hall := readAll_map (l := entries) (g := fun e => (Value.str e.1, e.2))
    (f := fun e => (fieldName (entries.map Prod.fst) e.1 :
      Except (Refusal ε) (Option String)).map fun name => (name, e.2))
    (h := fun e => (some e.1, e.2)) (by
      intro e he
      simp only [fieldName_str (List.mem_map_of_mem he)]
      rfl)
  have hnames : (entries.map fun e => (some e.1, e.2)).filterMap Prod.fst =
      entries.map Prod.fst := by
    rw [List.filterMap_map]
    exact congrFun (List.filterMap_eq_map (f := fun e : String × Value => e.1)) entries
  refine ⟨lookupField (entries.map fun e => (some e.1, e.2)), ?_, fun e he =>
    lookupField_of_mem h he⟩
  simp only [fields, record, hall]
  rw [if_pos (by rw [hnames]; exact h)]

/-! ## Alternatives without a tag -/

/-- The first alternative that accepts the value. -/
def untagged (f g : Value → Except (Refusal ε) α) (v : Value) : Except (Refusal ε) α :=
  match f v with
  | .ok a => .ok a
  | .error _ =>
    match g v with
    | .ok a => .ok a
    | .error _ => .error .noVariant

theorem untagged_eq_ok_iff {f g : Value → Except (Refusal ε) α} {v : Value} {a : α} :
    untagged f g v = .ok a ↔ f v = .ok a ∨ (∀ b, f v ≠ .ok b) ∧ g v = .ok a := by
  unfold untagged
  cases f v with
  | ok b => simp
  | error e =>
    cases g v with
    | ok b => simp
    | error e' => simp

end Library.DataModel
