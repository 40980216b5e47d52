import Vinezombie.Client.Register
import Vinezombie.Util.FlatMapDedup
import Vinezombie.Util.FlatMapEdits
import Mathlib.Data.PNat.Basic

/-!
# The state that handlers share

`ClientState` of `client/logic.rs`, with the keys of `client/state.rs`: a `FlatMap` from types to
boxed values, and the length that clients assume for the source of their messages.

A key is a type, and what is stored under it is a `dyn Any`.  Keys can be added by other crates, so
the identities of types are any linear order that has the six keys of the source in it, and the
boxed values are those of the source's own keys and a type `A` of others.

The assumed length is computed from the source that is stored or given, and from the limits of the
server where the source is not known in full.  It is kept, and not computed again until someone
asks for that.

* `ISupport.limit`, `ISupport.limit_eq`: a limit of the server.
* `ClientState.get_insert`, `ClientState.get_write`: what is stored.
* `ClientState.calcSourceLen_of_user`, `ClientState.calcSourceLen_of_noUser`: the length for a
  source with a user, and for one without.
-/

namespace Vinezombie

open Library.KeyedList

/-! ## Keys -/

/-- The keys of `client/state.rs`. -/
inductive StateKey where
  | clientSource
  | serverSource
  | caps
  | iSupport
  | serverVersion
  | account
  deriving DecidableEq

/-- The place of a key in the order of `TypeId`s. -/
def StateKey.index : StateKey → ℕ
  | .clientSource => 0
  | .serverSource => 1
  | .caps => 2
  | .iSupport => 3
  | .serverVersion => 4
  | .account => 5

/-- `std::any::TypeId`, of these keys and of any others. -/
class TypeId (I : Type) where
  of : StateKey → I
  of_injective : Function.Injective of

/-- Types that are numbered, the keys of the source first. -/
instance : TypeId ℕ where
  of := StateKey.index
  of_injective := by
    intro a b h
    cases a <;> cases b <;> first | rfl | exact absurd h (by decide)

/-- `Box<dyn Any + Send + Sync>`, where `A` are the values of other types. -/
inductive AnyBox (A : Type) where
  | source (v : Source)
  | caps (v : NameMap Bool)
  | iSupport (v : NameMap Unit)
  | arg (v : Arg)
  | account (v : Option Arg)
  | other (v : A)

/-- `ClientStateKey`: the identity of the key, and the two conversions of its values. -/
structure ClientStateKey (I A V : Type) where
  typeId : I
  box : V → AnyBox A
  /-- `downcast_ref`. -/
  downcast : AnyBox A → Option V
  downcast_box : ∀ v, downcast (box v) = some v

namespace ClientStateKey

variable {I A : Type} [TypeId I]

/-- A key for sources. -/
def ofSource (key : StateKey) : ClientStateKey I A Source where
  typeId := TypeId.of key
  box := .source
  downcast := fun v => match v with
    | .source v => some v
    | _ => none
  downcast_box := fun _ => rfl

/-- `ClientSource`. -/
def clientSource : ClientStateKey I A Source := ofSource .clientSource

/-- `ServerSource`. -/
def serverSource : ClientStateKey I A Source := ofSource .serverSource

/-- `Caps`. -/
def caps : ClientStateKey I A (NameMap Bool) where
  typeId := TypeId.of .caps
  box := .caps
  downcast := fun v => match v with
    | .caps v => some v
    | _ => none
  downcast_box := fun _ => rfl

/-- `ISupport`. -/
def iSupport : ClientStateKey I A (NameMap Unit) where
  typeId := TypeId.of .iSupport
  box := .iSupport
  downcast := fun v => match v with
    | .iSupport v => some v
    | _ => none
  downcast_box := fun _ => rfl

/-- `ServerVersion`. -/
def serverVersion : ClientStateKey I A Arg where
  typeId := TypeId.of .serverVersion
  box := .arg
  downcast := fun v => match v with
    | .arg v => some v
    | _ => none
  downcast_box := fun _ => rfl

/-- `Account`. -/
def account : ClientStateKey I A (Option Arg) where
  typeId := TypeId.of .account
  box := .account
  downcast := fun v => match v with
    | .account v => some v
    | _ => none
  downcast_box := fun _ => rfl

end ClientStateKey

/-! ## The state -/

/-- `ClientState`.  `source_len` is a `NonZeroUsize`. -/
@[ext] structure ClientState (I A : Type) [LinearOrder I] where
  sourceLen : ℕ+
  state : FlatMap (I × AnyBox A)
  sorted : StrictSorted Prod.fst state.vec

/-- `User::no_tilde`. -/
def User.noTilde (user : User) : Bool := user.bytes.head? != some (byte '~')

/-- `User::len_with_tilde`. -/
def User.lenWithTilde (user : User) : ℕ := user.bytes.length + if user.noTilde then 1 else 0

namespace ISupport

/-- `NICKLEN`. -/
def nickLen : Key := .fromStr "NICKLEN"

/-- `USERLEN`. -/
def userLen : Key := .fromStr "USERLEN"

/-- `HOSTLEN`. -/
def hostLen : Key := .fromStr "HOSTLEN"

/-- `from_union` of `NICKLEN`, `USERLEN` and `HOSTLEN`, with its error dropped as all callers drop
it: `str::parse` to a `NonZeroU16`.  A value that is not UTF-8 has a byte that is no digit. -/
def fromUnion (input : Key × Word) : Option UInt16 :=
  match parseU16 input.2.bytes with
  | .ok n => if n = 0 then none else some n
  | .error _ => none

/-- The search that the standard library makes among ISUPPORT tokens.  A map can hold a token twice,
and it is open then which of the two is found. -/
class StdSearch where
  search : List ((Key × Word) × Unit) → Key → Except ℕ ℕ
  isBinarySearch : IsBinarySearch NameMap.tag search

/-- `get_parsed(name).and_then(|v| v.ok().map(|v| v.get() as usize))`. -/
def limit [StdSearch] (isupport : NameMap Unit) (name : Key) : Option ℕ :=
  (isupport.getBy NameMap.tag StdSearch.search name).bind fun elem =>
    (fromUnion elem.1).map UInt16.toNat

/-- The search that finds the first. -/
abbrev StdSearch.first : StdSearch := ⟨binarySearchBy NameMap.tag, isBinarySearch_binarySearchBy⟩

/-- Where no token is held twice it is not open. -/
theorem limit_eq [StdSearch] {isupport : NameMap Unit}
    (h : StrictSorted NameMap.tag isupport.vec) (name : Key) :
    limit isupport name = (isupport.getParsed name fromUnion).bind fun v => v.map UInt16.toNat := by
  rw [limit, FlatMap.getBy_eq_get StdSearch.isBinarySearch h, NameMap.getParsed, Option.bind_map]
  rfl

end ISupport

namespace ClientState

variable {I A : Type} [LinearOrder I]

/-- `usize::saturating_add`, of 64 bits. -/
def saturatingAdd (a b : ℕ) : ℕ := min (a + b) (2 ^ 64 - 1)

theorem saturatingAdd_two_pos (a : ℕ) : 0 < saturatingAdd a 2 := by
  unfold saturatingAdd
  omega

/-- `DEFAULT_SOURCE_LEN`. -/
def defaultSourceLen : ℕ+ := 85

/-- `ClientState::new`. -/
def new : ClientState I A := ⟨defaultSourceLen, FlatMap.new, strictSorted_nil⟩

variable {V : Type}

/-- `get`. -/
def get (key : ClientStateKey I A V) (s : ClientState I A) : Option V :=
  (s.state.get Prod.fst key.typeId).bind fun v => key.downcast v.2

/-- The elements after `insert` through a guard. -/
theorem sorted_insert (s : ClientState I A) (elem : I × AnyBox A) :
    StrictSorted Prod.fst ((s.state.edit.insert Prod.fst elem).2.drop Prod.fst).vec := by
  have hrep := EditGuard.represents_edit s.sorted
  exact (hrep.insert (EditGuard.not_hidden_edit s.state elem.1)).drop.1

/-- `insert`. -/
def insert (key : ClientStateKey I A V) (value : V) (s : ClientState I A) : ClientState I A :=
  { s with
    state := (s.state.edit.insert Prod.fst (key.typeId, key.box value)).2.drop Prod.fst
    sorted := s.sorted_insert _ }

/-- The elements after a write through the reference that `FlatMap::get_mut` returns. -/
def written (s : ClientState I A) (elem : I × AnyBox A) : List (I × AnyBox A) :=
  match getImpl Prod.fst s.state.vec s.state.vec.length elem.1 with
  | some idx => s.state.vec.set idx elem
  | none => s.state.vec

/-- A write leaves the keys as they are. -/
theorem map_fst_written (s : ClientState I A) (elem : I × AnyBox A) :
    (s.written elem).map Prod.fst = s.state.vec.map Prod.fst := by
  unfold written
  split
  · rename_i idx hidx
    exact EditGuard.replace_keys (g := s.state.edit) hidx
  · rfl

theorem sorted_written (s : ClientState I A) (elem : I × AnyBox A) :
    StrictSorted Prod.fst (s.written elem) := by
  have hkeys : (s.state.vec.map Prod.fst).Pairwise (· < ·) := List.pairwise_map.mpr s.sorted
  rw [← s.map_fst_written elem] at hkeys
  exact List.pairwise_map.mp hkeys

/-- What is left when `value` is written through the reference that `get_mut` returns. -/
def write (key : ClientStateKey I A V) (value : V) (s : ClientState I A) : ClientState I A :=
  { s with
    state := ⟨s.written (key.typeId, key.box value)⟩
    sorted := s.sorted_written _ }

/-- `clear`, which keeps the length. -/
def clear (s : ClientState I A) : ClientState I A :=
  { s with state := ⟨[]⟩, sorted := strictSorted_nil }

/-- `set_source_len`. -/
def setSourceLen (len : ℕ+) (s : ClientState I A) : ClientState I A := { s with sourceLen := len }

/-! ## What is stored -/

theorem get_eq (key : ClientStateKey I A V) (s : ClientState I A) :
    s.get key = (lookup Prod.fst s.state.vec key.typeId).bind fun v => key.downcast v.2 := by
  rw [get, FlatMap.get_eq_lookup]

theorem get_new (key : ClientStateKey I A V) : (new : ClientState I A).get key = none := by
  rw [get_eq]
  rfl

/-- What is looked up after a change that sets the element of one key. -/
theorem get_of_lookup_eq {s s' : ClientState I A} {key : ClientStateKey I A V} {value : V}
    (h : lookup Prod.fst s'.state.vec =
      Function.update (lookup Prod.fst s.state.vec) key.typeId
        (some (key.typeId, key.box value))) :
    s'.get key = some value ∧
      ∀ {W : Type} (key' : ClientStateKey I A W), key'.typeId ≠ key.typeId →
        s'.get key' = s.get key' := by
  constructor
  · rw [get_eq, h, Function.update_self, Option.bind_some, key.downcast_box]
  · intro W key' hne
    rw [get_eq, h, Function.update_of_ne hne, ← get_eq]

theorem get_insert (key : ClientStateKey I A V) (value : V) (s : ClientState I A) :
    (s.insert key value).get key = some value ∧
      ∀ {W : Type} (key' : ClientStateKey I A W), key'.typeId ≠ key.typeId →
        (s.insert key value).get key' = s.get key' := by
  have hrep := EditGuard.represents_edit s.sorted
  have hnot : ¬ s.state.edit.Hidden Prod.fst key.typeId := EditGuard.not_hidden_edit _ _
  exact get_of_lookup_eq (hrep.insert (e := (key.typeId, key.box value)) hnot).drop.2

theorem get_write {key : ClientStateKey I A V} {old : V} {s : ClientState I A}
    (h : s.get key = some old) (value : V) :
    (s.write key value).get key = some value ∧
      ∀ {W : Type} (key' : ClientStateKey I A W), key'.typeId ≠ key.typeId →
        (s.write key value).get key' = s.get key' := by
  have hrep := EditGuard.represents_edit s.sorted
  have hnot : ¬ s.state.edit.Hidden Prod.fst key.typeId := EditGuard.not_hidden_edit _ _
  refine get_of_lookup_eq ?_
  cases hidx : s.state.edit.getIdx Prod.fst key.typeId with
  | none =>
    rw [get_eq, (hrep.getIdx_eq_none_iff hnot).mp hidx] at h
    exact absurd h (by simp)
  | some idx =>
    have hwritten : s.written (key.typeId, key.box value) =
        (s.state.edit.replace idx (key.typeId, key.box value)).slots := by
      unfold written
      rw [show getImpl Prod.fst s.state.vec s.state.vec.length key.typeId = some idx from hidx]
      rfl
    exact (congrArg (lookup Prod.fst) hwritten).trans
      (hrep.replace (e := (key.typeId, key.box value)) hidx).lookup_eq

variable [TypeId I] [ISupport.StdSearch]

/-! ## The assumed length -/

/-- `calc_source_len`. -/
def calcSourceLen (cs : ClientState I A) (source : Option Source) (trustNotilde : Bool) : ℕ+ :=
  let ln := source.map fun v => v.nick.bytes.length
  let userhost := source.bind Source.userhost
  let lu := userhost.bind fun uh => uh.user.map fun u =>
    if trustNotilde then u.bytes.length else u.lenWithTilde
  let lh := userhost.map fun uh => uh.host.bytes.length
  match ln, lu, lh with
  | some ln, some lu, some lh =>
    ⟨saturatingAdd (saturatingAdd (saturatingAdd ln lu) lh) 2, saturatingAdd_two_pos _⟩
  | ln, lu, lh =>
    match cs.get .iSupport with
    | some isupport =>
      let len := (ln.or (ISupport.limit isupport ISupport.nickLen)).getD 9
      let len := saturatingAdd len ((lu.or (ISupport.limit isupport ISupport.userLen)).getD 10)
      let len := saturatingAdd len ((lh.or (ISupport.limit isupport ISupport.hostLen)).getD 64)
      ⟨saturatingAdd len 2, saturatingAdd_two_pos _⟩
    | none => defaultSourceLen

/-- `update_source_len_from`, which returns the new value. -/
def updateSourceLenFrom (source : Option Source) (addTilde : Bool) (s : ClientState I A) :
    ClientState I A :=
  { s with sourceLen := calcSourceLen s source (!addTilde) }

/-- `update_source_len`. -/
def updateSourceLen (s : ClientState I A) : ClientState I A :=
  { s with sourceLen := calcSourceLen s (s.get .clientSource) false }

/-- The length that is assumed for a source without a user, where the limits of the server may be
known. -/
def assumedLen (nick : Nick) (host : Option Word) (limits : Option (NameMap Unit)) : ℕ :=
  match limits with
  | some isupport =>
    let user := (ISupport.limit isupport ISupport.userLen).getD 10
    let host := ((host.map fun host => host.bytes.length).or
      (ISupport.limit isupport ISupport.hostLen)).getD 64
    saturatingAdd (saturatingAdd (saturatingAdd nick.bytes.length user) host) 2
  | none => 85

/-- Where the user is known the limits do not matter, nor does anything else that is stored. -/
theorem calcSourceLen_of_user {source : Source} (h : (source.userhost.bind UserHost.user).isSome)
    (cs cs' : ClientState I A) (trustNotilde : Bool) :
    calcSourceLen cs (some source) trustNotilde = calcSourceLen cs' (some source) trustNotilde := by
  obtain ⟨user, huser⟩ := Option.isSome_iff_exists.mp h
  obtain ⟨uh, huh, hu⟩ := Option.bind_eq_some_iff.mp huser
  simp only [calcSourceLen, Option.map_some, Option.bind_some, huh, hu]
  rfl

theorem calcSourceLen_of_noUser {source : Source} (h : source.userhost.bind UserHost.user = none)
    (cs : ClientState I A) (trustNotilde : Bool) :
    (calcSourceLen cs (some source) trustNotilde : ℕ) =
      assumedLen source.nick (source.userhost.map UserHost.host) (cs.get .iSupport) := by
  have hlu : (source.userhost.bind fun uh => uh.user.map fun u =>
      if trustNotilde then u.bytes.length else u.lenWithTilde) = none := by
    cases huh : source.userhost with
    | none => rfl
    | some uh =>
      have hu : uh.user = none := by simpa [huh] using h
      rw [Option.bind_some, hu, Option.map_none]
  simp only [calcSourceLen, Option.map_some, Option.bind_some, hlu]
  cases hget : cs.get .iSupport with
  | none => rfl
  | some isupport =>
    simp only [assumedLen, Option.map_map, Option.some_or, Option.none_or, Option.getD_some]
    rfl

/-- The assumed length is the one that would be computed. -/
def SourceLenCurrent (s : ClientState I A) : Prop := s.updateSourceLen.sourceLen = s.sourceLen

/-- Computing the length again makes it current, whatever it was. -/
theorem sourceLenCurrent_updateSourceLen (s : ClientState I A) :
    s.updateSourceLen.SourceLenCurrent :=
  rfl

end ClientState

end Vinezombie
