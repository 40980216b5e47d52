import Vinezombie.Library.Machine
import Vinezombie.Message.Args

/-!
# Editing message arguments

`ArgsEditGuard` and `Args::set` of `ircmsg/args.rs`.  A caller sees an argument list as one list of
strings, but it is kept in two fields, the words and the long argument, and which of the two the
last string is in depends on its bytes.  The guard has both fields to itself and could leave them
in any state, so it is kept apart here from `Args`, which carries the invariant.

* `ArgsEditGuard.longLast_strings`: the fields can be told from the strings.
* `lockstep`: the edits against the same edits of a list of strings.
* `Args.edits_spec`: whole runs of edits.
-/

namespace Vinezombie

open Library.Machine

/-- `ArgsEditGuard`. -/
@[ext] structure ArgsEditGuard where
  words : List Arg
  long : Option Line

namespace ArgsEditGuard

/-- `add_impl`. -/
def addImpl (words : List Arg) (long : Option Line) (s : Line) : Option Line × ArgsEditGuard :=
  match h : StringType.arg.findInvalid s.bytes with
  | some _ => (long, ⟨words, some s⟩)
  | none => (long, ⟨words ++ [⟨s.bytes, h⟩], none⟩)

variable (g : ArgsEditGuard)

/-- `add_word` of a guard. -/
def addWord (w : Arg) : ArgsEditGuard := { g with words := g.words ++ [w] }

/-- `add_before_last`.  A last word changes places with the new one, and is added again. -/
def addBeforeLast (w : Arg) : ArgsEditGuard :=
  let (words, s) :=
    if g.long.isNone then
      match g.words.getLast? with
      | some last => (g.words.dropLast ++ [w], last)
      | none => (g.words, w)
    else (g.words, w)
  { g with words := words ++ [s] }

/-- `add` of a guard. -/
def add (s : Line) : Option Line × ArgsEditGuard := addImpl g.words g.long s

/-- `all` of a guard. -/
def all : Option (List Arg) := if g.long.isNone then some g.words else none

/-- `split_last` of a guard. -/
def splitLast : List Arg × Option Line :=
  match g.long with
  | some long => (g.words, some long)
  | none =>
    match g.words.getLast? with
    | some last => (g.words.dropLast, some (Args.toLine last))
    | none => ([], none)

/-- `clear`, which leaves the same as `Args::clear`. -/
def clear (_ : ArgsEditGuard) : ArgsEditGuard := ⟨[], none⟩

/-- The invariant: a long argument is not a word. -/
def Classified : Prop := ∀ line ∈ g.long, StringType.arg.findInvalid line.bytes ≠ none

/-- What a caller sees. -/
def strings : List Line := g.words.map Args.toLine ++ g.long.toList

theorem addImpl_of_word (words : List Arg) (long : Option Line) {s : Line}
    (h : StringType.arg.findInvalid s.bytes = none) :
    addImpl words long s = (long, ⟨words ++ [⟨s.bytes, h⟩], none⟩) := by
  unfold addImpl
  split
  · rename_i e he
    rw [h] at he
    exact absurd he (by simp)
  · rfl

theorem addImpl_of_long (words : List Arg) (long : Option Line) {s : Line}
    (h : StringType.arg.findInvalid s.bytes ≠ none) :
    addImpl words long s = (long, ⟨words, some s⟩) := by
  unfold addImpl
  split
  · rfl
  · rename_i hnone
    exact absurd hnone h

end ArgsEditGuard

namespace Args

/-- `edit`. -/
def edit (args : Args) : ArgsEditGuard := ⟨args.words, args.long⟩

/-- `all`. -/
def all (args : Args) : Option (List Arg) := if args.long.isNone then some args.words else none

/-- `Args::set`: the fields that it sets. -/
def set (args : List Arg) (last : Option Line) : ArgsEditGuard :=
  match last with
  | some last =>
    match Str.fromBytes .arg last.bytes with
    | .ok word => ⟨args ++ [word], none⟩
    | .error _ => ⟨args, some last⟩
  | none => ⟨args, none⟩

/-- The guard adds a word as the list does. -/
theorem edit_addWord (args : Args) (w : Arg) : (args.addWord w).edit = args.edit.addWord w := rfl

/-- The guard adds a string as the list does. -/
theorem edit_add (args : Args) (s : Line) :
    ((args.add s).1, (args.add s).2.edit) = args.edit.add s := by
  by_cases h : StringType.arg.findInvalid s.bytes = none
  · rw [ArgsEditGuard.add, ArgsEditGuard.addImpl_of_word _ _ h]
    unfold add
    split
    · rename_i e he
      rw [h] at he
      exact absurd he (by simp)
    · rfl
  · rw [ArgsEditGuard.add, ArgsEditGuard.addImpl_of_long _ _ h]
    unfold add
    split
    · rfl
    · rename_i hnone
      exact absurd hnone h

/-- The fields of an argument list are classified. -/
theorem classified_edit (args : Args) : args.edit.Classified := args.long_isLong

end Args

/-! ## Edits -/

/-- The ways to change an argument list. -/
inductive ArgsEdit where
  | addWord (w : Arg)
  | addBeforeLast (w : Arg)
  | add (s : Line)
  | clear
  | set (args : List Arg) (last : Option Line)
  /-- The list is replaced by one that `Args::new` returns. -/
  | new (words : List Arg) (last : Option Line)

/-- What an edit returns, and what it leaves. -/
def ArgsEdit.apply (g : ArgsEditGuard) : ArgsEdit → Option Line × ArgsEditGuard
  | .addWord w => (none, g.addWord w)
  | .addBeforeLast w => (none, g.addBeforeLast w)
  | .add s => g.add s
  | .clear => (none, g.clear)
  | .set args last => (none, Args.set args last)
  | .new words last => (none, (Args.new words last).edit)

/-- The last of the strings, if it is long. -/
def longLast (l : List Line) : Option Line :=
  l.getLast?.filter fun last => (StringType.arg.findInvalid last.bytes).isSome

/-- The strings without the last one, if that is long. -/
def withoutLong (l : List Line) : List Line := if (longLast l).isSome then l.dropLast else l

/-- What the edit is to do with a list of strings: `add_word` adds a string at the end, or before
a last one that is long; `add_before_last` adds one before the last one; and `add` adds one at the
end, and removes a last one that is long and returns it. -/
def ArgsEdit.onStrings (l : List Line) : ArgsEdit → Option Line × List Line
  | .addWord w => (none, withoutLong l ++ [Args.toLine w] ++ (longLast l).toList)
  | .addBeforeLast w => (none, l.dropLast ++ [Args.toLine w] ++ l.getLast?.toList)
  | .add s => (longLast l, withoutLong l ++ [s])
  | .clear => (none, [])
  | .set args last => (none, args.map Args.toLine ++ last.toList)
  | .new words last => (none, words.map Args.toLine ++ last.toList)

/-! ## One edit -/

namespace ArgsEditGuard

variable {g : ArgsEditGuard}

/-- **The long argument** is the last string, if that is not a word. -/
theorem longLast_strings (h : g.Classified) : longLast g.strings = g.long := by
  unfold longLast strings
  cases hl : g.long with
  | some long =>
    have hlong : (StringType.arg.findInvalid long.bytes).isSome = true :=
      Option.isSome_iff_ne_none.mpr (h long hl)
    rw [Option.toList_some, List.getLast?_concat]
    exact Option.filter_some_pos hlong
  | none =>
    rw [Option.toList_none, List.append_nil, List.getLast?_map, Option.filter_eq_none_iff]
    intro line hline
    obtain ⟨w, -, rfl⟩ := Option.map_eq_some_iff.mp hline
    rw [show (Args.toLine w).bytes = w.bytes from rfl, w.valid]
    exact Bool.false_ne_true

theorem withoutLong_strings (h : g.Classified) :
    withoutLong g.strings = g.words.map Args.toLine := by
  rw [withoutLong, longLast_strings h]
  unfold strings
  cases g.long with
  | some long => simp
  | none => simp

theorem Classified.addImpl {words : List Arg} {long : Option Line} (s : Line) :
    (ArgsEditGuard.addImpl words long s).2.Classified := by
  by_cases h : StringType.arg.findInvalid s.bytes = none
  · rw [addImpl_of_word words long h]
    simp [Classified]
  · rw [addImpl_of_long words long h]
    intro line hline
    rwa [← Option.some.inj hline]

theorem strings_addImpl (words : List Arg) (long : Option Line) (s : Line) :
    (ArgsEditGuard.addImpl words long s).1 = long ∧
      (ArgsEditGuard.addImpl words long s).2.strings = words.map Args.toLine ++ [s] := by
  by_cases h : StringType.arg.findInvalid s.bytes = none
  · rw [addImpl_of_word words long h]
    refine ⟨rfl, ?_⟩
    rw [strings, List.map_append, List.map_singleton, Option.toList_none, List.append_nil]
    rfl
  · rw [addImpl_of_long words long h]
    exact ⟨rfl, rfl⟩

theorem strings_addBeforeLast (g : ArgsEditGuard) (w : Arg) :
    (g.addBeforeLast w).strings =
      g.strings.dropLast ++ [Args.toLine w] ++ g.strings.getLast?.toList := by
  obtain ⟨words, long⟩ := g
  cases long with
  | some long => simp [addBeforeLast, strings]
  | none =>
    rcases List.eq_nil_or_concat' words with rfl | ⟨front, last, rfl⟩
    · rfl
    · simp [addBeforeLast, strings]

theorem Classified.set (args : List Arg) (last : Option Line) :
    (Args.set args last).Classified := by
  unfold Args.set
  cases last with
  | none => simp [Classified]
  | some last =>
    dsimp only
    cases hword : Str.fromBytes .arg last.bytes with
    | ok word => simp [Classified]
    | error e =>
      intro line hline hnone
      obtain rfl := Option.some.inj hline
      have hok : Str.fromBytes .arg last.bytes = .ok ⟨last.bytes, hnone⟩ :=
        Str.fromBytes_eq_ok_iff.mpr rfl
      rw [hok] at hword
      exact absurd hword (by simp)

theorem strings_set (args : List Arg) (last : Option Line) :
    (Args.set args last).strings = args.map Args.toLine ++ last.toList := by
  unfold Args.set
  cases last with
  | none => rfl
  | some last =>
    dsimp only
    cases hword : Str.fromBytes .arg last.bytes with
    | error e => rfl
    | ok word =>
      have hbytes : word.bytes = last.bytes := Str.fromBytes_eq_ok_iff.mp hword
      have hline : Args.toLine word = last := Str.ext hbytes
      simp [strings, hline]

theorem edit_new (words : List Arg) (last : Option Line) :
    (Args.new words last).edit.strings = words.map Args.toLine ++ last.toList := by
  cases last with
  | none => rfl
  | some last =>
    have hadd := Args.edit_add (Args.ofWords words) last
    have hedit : (Args.new words (some last)).edit = ((Args.ofWords words).edit.add last).2 :=
      congrArg Prod.snd hadd
    rw [hedit]
    exact (strings_addImpl words none last).2

end ArgsEditGuard

/-- **The edits in lockstep** with those of a list of strings. -/
theorem ArgsEdit.lockstep :
    Lockstep ArgsEdit.apply ArgsEdit.onStrings (fun g l => g.Classified ∧ l = g.strings)
      fun _ _ => True where
  differ _ _ _ _ h := absurd trivial h
  agree := by
    rintro g l edit ⟨hg, rfl⟩ -
    cases edit with
    | addWord w =>
      refine ⟨rfl, hg, ?_⟩
      rw [onStrings, ArgsEditGuard.withoutLong_strings hg, ArgsEditGuard.longLast_strings hg]
      simp [apply, ArgsEditGuard.addWord, ArgsEditGuard.strings]
    | addBeforeLast w => exact ⟨rfl, hg, (g.strings_addBeforeLast w).symm⟩
    | add s =>
      obtain ⟨hreturned, hstrings⟩ := ArgsEditGuard.strings_addImpl g.words g.long s
      refine ⟨?_, ArgsEditGuard.Classified.addImpl s, ?_⟩
      · rw [onStrings, ArgsEditGuard.longLast_strings hg]
        exact hreturned
      · rw [onStrings, ArgsEditGuard.withoutLong_strings hg]
        exact hstrings.symm
    | clear => exact ⟨rfl, by simp [apply, ArgsEditGuard.clear, ArgsEditGuard.Classified], rfl⟩
    | set args last =>
      exact ⟨rfl, ArgsEditGuard.Classified.set args last,
        (ArgsEditGuard.strings_set args last).symm⟩
    | new words last =>
      exact ⟨rfl, (Args.new words last).classified_edit, (ArgsEditGuard.edit_new words last).symm⟩

/-! ## Whole runs -/

namespace Args

/-- The methods of an argument list agree with the list of strings. -/
structure Agrees (args : Args) : Prop where
  splitLast : args.splitLast.1.map toLine = args.edit.strings.dropLast ∧
    args.splitLast.2 = args.edit.strings.getLast?
  all : args.all.map (List.map toLine) =
    if (longLast args.edit.strings).isSome then none else some args.edit.strings
  words : args.words.map toLine = withoutLong args.edit.strings
  isLastLong : args.isLastLong = (longLast args.edit.strings).isSome
  len : args.len = args.edit.strings.length
  isEmpty : args.isEmpty = args.edit.strings.isEmpty

theorem agrees (args : Args) : args.Agrees where
  splitLast := by
    obtain ⟨words, long, hlong⟩ := args
    cases long with
    | some long => simp [Args.splitLast, edit, ArgsEditGuard.strings]
    | none =>
      rcases List.eq_nil_or_concat' words with rfl | ⟨front, last, rfl⟩
      · exact ⟨rfl, rfl⟩
      · simp [Args.splitLast, edit, ArgsEditGuard.strings]
  all := by
    rw [ArgsEditGuard.longLast_strings args.classified_edit]
    obtain ⟨words, long, hlong⟩ := args
    cases long with
    | some long => rfl
    | none => simp [Args.all, edit, ArgsEditGuard.strings]
  words := (ArgsEditGuard.withoutLong_strings args.classified_edit).symm
  isLastLong := by
    rw [ArgsEditGuard.longLast_strings args.classified_edit]
    rfl
  len := by
    obtain ⟨words, long, hlong⟩ := args
    cases long with
    | some long => simp [Args.len, edit, ArgsEditGuard.strings]
    | none => simp [Args.len, edit, ArgsEditGuard.strings]
  isEmpty := by
    obtain ⟨words, long, hlong⟩ := args
    cases long with
    | some long => simp [Args.isEmpty, edit, ArgsEditGuard.strings]
    | none => simp [Args.isEmpty, edit, ArgsEditGuard.strings]

/-- **Editing arguments.**  After any edits, in any order, the fields are those of an argument list,
so a long argument is not a word.  The edits return what the same edits of the list of strings
return and leave its strings, and the methods of the list and of the guard agree with those. -/
theorem edits_spec (args : Args) (edits : List ArgsEdit) :
    ∃ args' : Args, final ArgsEdit.apply args.edit edits = args'.edit ∧
      outputs ArgsEdit.apply args.edit edits =
        outputs ArgsEdit.onStrings args.edit.strings edits ∧
      args'.edit.strings = final ArgsEdit.onStrings args.edit.strings edits ∧
      args'.Agrees ∧ args'.edit.splitLast = args'.splitLast ∧ args'.edit.all = args'.all := by
  have hR : args.edit.Classified ∧ args.edit.strings = args.edit.strings :=
    ⟨args.classified_edit, rfl⟩
  have hgood : Throughout ArgsEdit.apply (fun _ _ => True) args.edit edits :=
    throughout_of_forall (fun _ _ => trivial) edits args.edit
  obtain ⟨hclassified, hstrings⟩ := ArgsEdit.lockstep.final edits hR hgood
  refine ⟨⟨_, _, hclassified⟩, rfl, (ArgsEdit.lockstep.outputs_eq_iff edits hR).mpr hgood,
    hstrings.symm, agrees _, rfl, rfl⟩

end Args

end Vinezombie
