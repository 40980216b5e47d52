import Vinezombie.Client.NickGens

/-!
# Invalid nicks

When the server says that a nick is invalid, the generator of the nicks that are left is told so with
`handle_invalid`, and each of its parts goes on or is dropped.  A suffix generator is dropped where
its prefix is a prefix of the nick.  A single nick goes on where it *is* the nick.

* `DynNickGen.surviving`: what is yielded after that, and `DynNickGen.goodNicks`, what should be.
* `DynNickGen.invalidCorrect_iff`: it is right for the generators without single nicks.
-/

namespace Vinezombie

open Library.Generator

namespace DynNickGen

/-- The generators that are built from nicks, suffix generators and chains. -/
inductive Plain : DynNickGen → Prop
  | single (nick : Nick) : Plain (.single nick)
  | suffixGen (g : SuffixGen) : Plain (.suffixGen g)
  | chain {a b : DynNickGen} : Plain a → Plain b → Plain (.chain (some a) (some b))
  | chainNone {b : DynNickGen} : Plain b → Plain (.chain none (some b))

/-- The nicks of the single-nick components. -/
def singles : DynNickGen → List Nick
  | .single nick => [nick]
  | .fromIter _ _ => []
  | .suffixGen _ => []
  | .chain (some a) (some b) => a.singles ++ b.singles
  | .chain none (some b) => b.singles
  | .chain _ none => []

/-- The nicks that are still to be yielded when a nick is invalid: those of single nicks that are not
it, and those of suffix generators whose prefix is not a prefix of it. -/
def goodNicks (n : Nick) : DynNickGen → List Nick
  | .single nick => if nick = n then [] else [nick]
  | .fromIter _ _ => []
  | .suffixGen g => if g.prefixNick.bytes <+: n.bytes then [] else g.nicks
  | .chain (some a) (some b) => a.goodNicks n ++ b.goodNicks n
  | .chain none (some b) => b.goodNicks n
  | .chain _ none => []

/-- The nicks of the parts that go on when a nick is invalid. -/
def surviving (n : Nick) : DynNickGen → List Nick
  | .single nick => if n = nick then [nick] else []
  | .fromIter nick iter => nick :: iter
  | .suffixGen g => if g.prefixNick.bytes <+: n.bytes then [] else g.nicks
  | .chain (some a) (some b) => a.surviving n ++ b.surviving n
  | .chain none (some b) => b.surviving n
  | .chain _ none => []

/-- **What telling a generator of an invalid nick should do**: what is left does not yield the nick
again, and yields the nicks that are still to be yielded, in the same order. -/
def InvalidCorrect (g : DynNickGen) (n : Nick) : Prop :=
  ∃ left nicks, g.handleInvalid n = .ok left ∧ Yields nextNick left nicks ∧
    n ∉ nicks ∧ (g.goodNicks n).Sublist nicks

variable {g : DynNickGen}

/-- **What is yielded after an invalid nick.** -/
theorem yields_handleInvalid (h : Plain g) (n : Nick) :
    ∃ left, g.handleInvalid n = .ok left ∧ Yields nextNick left (g.surviving n) := by
  induction h with
  | single nick =>
    refine ⟨if n = nick then some (.single nick) else none, rfl, ?_⟩
    rw [surviving]
    split
    · exact yields_single nick
    · exact .done
  | suffixGen g =>
    refine ⟨(g.handleInvalid n).map .suffixGen, rfl, ?_⟩
    rw [surviving, SuffixGen.handleInvalid]
    split
    · exact .done
    · exact yields_suffixGen g
  | @chain a b _ _ iha ihb =>
    obtain ⟨lefta, ha, hya⟩ := iha
    obtain ⟨leftb, hb, hyb⟩ := ihb
    rw [handleInvalid, ha, surviving, hb]
    cases lefta with
    | none =>
      have hnil : a.surviving n = [] := hya.unique .done
      rw [hnil]
      exact ⟨leftb, rfl, hyb⟩
    | some a' =>
      cases leftb with
      | none =>
        have hnil : b.surviving n = [] := hyb.unique .done
        rw [hnil, List.append_nil]
        exact ⟨some a', rfl, hya⟩
      | some b' => exact ⟨some (.chain (some a') (some b')), rfl, yields_chain hya hyb⟩
  | @chainNone b _ ihb =>
    obtain ⟨left, hb, hyb⟩ := ihb
    exact ⟨left, by rw [handleInvalid, hb], by rw [surviving]; exact hyb⟩

/-- Where the nick is not yielded again, what is missing are the single nicks. -/
theorem length_goodNicks (h : Plain g) {n : Nick} (hn : n ∉ g.surviving n) :
    (g.goodNicks n).length = (g.surviving n).length + g.singles.length := by
  induction h with
  | single nick =>
    rw [surviving] at hn
    have hne : n ≠ nick := by
      rintro rfl
      rw [if_pos rfl] at hn
      exact hn List.mem_cons_self
    rw [goodNicks, surviving, singles, if_neg hne, if_neg hne.symm]
    rfl
  | suffixGen g => rw [goodNicks, surviving, singles, List.length_nil, Nat.add_zero]
  | chain _ _ iha ihb =>
    rw [surviving, List.mem_append, not_or] at hn
    rw [goodNicks, surviving, singles, List.length_append, List.length_append, List.length_append,
      iha hn.1, ihb hn.2]
    omega
  | chainNone _ ihb =>
    rw [surviving] at hn
    rw [goodNicks, surviving, singles, ihb hn]

/-- Without single nicks, what goes on is what should be, and the nick is not among it. -/
theorem goodNicks_eq_surviving (h : Plain g) (hsingles : g.singles = []) (n : Nick) :
    g.goodNicks n = g.surviving n ∧ n ∉ g.surviving n := by
  induction h with
  | single nick => exact absurd hsingles (List.cons_ne_nil _ _)
  | suffixGen g =>
    rw [goodNicks, surviving]
    refine ⟨rfl, ?_⟩
    split
    · exact List.not_mem_nil
    · rename_i hbegins
      exact fun hmem => hbegins (SuffixGen.isPrefix_of_mem_nicks hmem)
  | chain _ _ iha ihb =>
    rw [singles] at hsingles
    obtain ⟨hsa, hsb⟩ := List.append_eq_nil_iff.mp hsingles
    obtain ⟨hga, hna⟩ := iha hsa
    obtain ⟨hgb, hnb⟩ := ihb hsb
    rw [goodNicks, surviving, hga, hgb]
    exact ⟨rfl, fun hmem => (List.mem_append.mp hmem).elim hna hnb⟩
  | chainNone _ ihb =>
    rw [singles] at hsingles
    rw [goodNicks, surviving]
    exact ihb hsingles

/-- **When an invalid nick is treated as it should be**: exactly if there is no single nick among the
components. -/
theorem invalidCorrect_iff (h : Plain g) (n : Nick) :
    g.InvalidCorrect n ↔ g.singles = [] := by
  obtain ⟨left, hleft, hyields⟩ := yields_handleInvalid h n
  constructor
  · rintro ⟨left', nicks, hleft', hyields', hn, hsublist⟩
    obtain rfl := Except.ok.inj (hleft.symm.trans hleft')
    obtain rfl := hyields.unique hyields'
    have hlength := length_goodNicks h hn
    have hle := hsublist.length_le
    exact List.length_eq_zero_iff.mp (by omega)
  · intro hsingles
    obtain ⟨hgood, hn⟩ := goodNicks_eq_surviving h hsingles n
    refine ⟨left, g.surviving n, hleft, hyields, hn, ?_⟩
    rw [hgood]

/-- A chain with a single nick in front of a count. -/
theorem invalidCorrect_iff_chain :
    (append (.single fooNick) (.suffixGen
        (Suffix.transform ⟨.seq, [.char '_']⟩ fooNick 0))).InvalidCorrect fooNick ↔
      (append (.single fooNick) (.suffixGen
        (Suffix.transform ⟨.seq, [.char '_']⟩ fooNick 0))).singles = [] :=
  invalidCorrect_iff (.chain (.single fooNick) (.suffixGen _)) fooNick

/-- A single nick that is invalid is yielded again. -/
theorem not_invalidCorrect_single :
    (DynNickGen.single fooNick).handleInvalid fooNick = .ok (some (.single fooNick)) ∧
      ¬ (DynNickGen.single fooNick).InvalidCorrect fooNick := by
  have hself : (DynNickGen.single fooNick).handleInvalid fooNick =
      .ok (some (.single fooNick)) := by
    rw [handleInvalid, if_pos rfl]
  refine ⟨hself, ?_⟩
  rintro ⟨left, nicks, hleft, hyields, hn, -⟩
  obtain rfl := Except.ok.inj (hself.symm.trans hleft)
  obtain rfl := hyields.unique (yields_single fooNick)
  exact hn List.mem_cons_self

end DynNickGen

end Vinezombie
