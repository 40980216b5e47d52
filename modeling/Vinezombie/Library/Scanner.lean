import Mathlib.Data.List.Basic

/-!
# Cutting a stream that arrives in chunks

A scanner looks at a buffer and either cuts something off its front or waits for more.  Either way
it may change the buffer, also while it waits.  The laws of `Scanner` are what makes the cuts
independent of the chunks: a cut does not depend on what arrives later, and what the scanner does to
a buffer while it waits it would have done as well with more in the buffer.

* `Scanner.drain`, `Scanner.run`: all the cuts of a buffer, and of a stream in chunks.
* `Scanner.drain_append`: a buffer that is drained before the rest arrives.
* `Scanner.run_eq_drain`: the chunks do not matter.
* `Scanner.forall_run`: what all cuts of a run satisfy.
-/

namespace Library

/-- A scanner: what it cuts off a buffer, if it does, and what is left in the buffer. -/
structure Scanner (α : Type*) where
  scan : List α → Option (List α) × List α
  scan_nil : scan [] = (none, [])
  /-- A cut makes the buffer smaller. -/
  shrinks : ∀ {buf cut rest}, scan buf = (some cut, rest) → rest.length < buf.length
  /-- A cut does not depend on what follows. -/
  cut_append : ∀ {buf cut rest} (more), scan buf = (some cut, rest) →
    scan (buf ++ more) = (some cut, rest ++ more)
  /-- What is done while waiting does not matter. -/
  wait_append : ∀ {buf rest} (more), scan buf = (none, rest) →
    scan (rest ++ more) = scan (buf ++ more)

namespace Scanner

variable {α : Type*} (s : Scanner α)

/-- Scan until there is nothing to cut: the cuts, and what is left in the buffer. -/
def drain (buf : List α) : List (List α) × List α :=
  match _h : s.scan buf with
  | (none, rest) => ([], rest)
  | (some cut, rest) => (cut :: (drain rest).1, (drain rest).2)
termination_by buf.length
decreasing_by all_goals exact s.shrinks _h

/-- The cuts of a stream that arrives in chunks, with scanning after each chunk, and what is left in
the buffer. -/
def run : List (List α) → List α → List (List α) × List α
  | [], buf => ([], buf)
  | chunk :: chunks, buf =>
    ((s.drain (buf ++ chunk)).1 ++ (run chunks (s.drain (buf ++ chunk)).2).1,
      (run chunks (s.drain (buf ++ chunk)).2).2)

variable {s}

theorem drain_of_wait {buf rest : List α} (h : s.scan buf = (none, rest)) :
    s.drain buf = ([], rest) := by
  rw [drain]
  split
  · rename_i rest' h'
    rw [h] at h'
    rw [(Prod.mk.inj h').2]
  · rename_i cut rest' h'
    rw [h] at h'
    exact absurd (Prod.mk.inj h').1 (by simp)

theorem drain_of_cut {buf cut rest : List α} (h : s.scan buf = (some cut, rest)) :
    s.drain buf = (cut :: (s.drain rest).1, (s.drain rest).2) := by
  rw [drain]
  split
  · rename_i rest' h'
    rw [h] at h'
    exact absurd (Prod.mk.inj h').1 (by simp)
  · rename_i cut' rest' h'
    obtain ⟨hcut, hrest⟩ := Prod.mk.inj (h.symm.trans h')
    rw [Option.some.inj hcut, hrest]

/-- Draining depends on the first scan only. -/
theorem drain_congr {buf buf' : List α} (h : s.scan buf = s.scan buf') :
    s.drain buf = s.drain buf' := by
  rcases hscan : s.scan buf' with ⟨cut, rest⟩
  rw [hscan] at h
  cases cut with
  | none => rw [drain_of_wait h, drain_of_wait hscan]
  | some cut => rw [drain_of_cut h, drain_of_cut hscan]

/-- **A buffer that is drained before the rest arrives** is cut as if it had all been there. -/
theorem drain_append (buf more : List α) :
    s.drain (buf ++ more) =
      ((s.drain buf).1 ++ (s.drain ((s.drain buf).2 ++ more)).1,
        (s.drain ((s.drain buf).2 ++ more)).2) := by
  induction hn : buf.length using Nat.strongRecOn generalizing buf with
  | ind n ih =>
    rcases hscan : s.scan buf with ⟨cut, rest⟩
    cases cut with
    | none =>
      rw [drain_of_wait hscan, List.nil_append, drain_congr (s.wait_append more hscan)]
    | some cut =>
      have hrest := ih rest.length (hn ▸ s.shrinks hscan) rest rfl
      rw [drain_of_cut hscan, drain_of_cut (s.cut_append more hscan), hrest]
      rfl

/-- **The chunks do not matter**: a stream is cut as if all of it had arrived at once. -/
theorem run_eq_drain (chunks : List (List α)) : s.run chunks [] = s.drain chunks.flatten := by
  have hgeneral : ∀ (chunk : List α) (chunks : List (List α)) (buf : List α),
      s.run (chunk :: chunks) buf = s.drain (buf ++ (chunk :: chunks).flatten) := by
    intro chunk chunks buf
    induction chunks generalizing chunk buf with
    | nil =>
      rw [List.flatten_cons, List.flatten_nil, List.append_nil, run]
      simp only [run, List.append_nil]
    | cons chunk' chunks ih =>
      rw [run, ih, @List.flatten_cons _ chunk, ← List.append_assoc, drain_append (buf ++ chunk)]
  cases chunks with
  | nil => rw [List.flatten_nil, drain_of_wait s.scan_nil, run]
  | cons chunk chunks => rw [hgeneral, List.nil_append]

/-- **What all cuts satisfy**, if each of them does where it is made. -/
theorem forall_run {P : List α → Prop}
    (hcut : ∀ buf cut rest, s.scan buf = (some cut, rest) → P cut)
    (chunks : List (List α)) : ∀ cut ∈ (s.run chunks []).1, P cut := by
  have hdrain : ∀ buf : List α, ∀ cut ∈ (s.drain buf).1, P cut := by
    intro buf
    induction hn : buf.length using Nat.strongRecOn generalizing buf with
    | ind n ih =>
      rcases hscan : s.scan buf with ⟨first, rest⟩
      cases first with
      | none =>
        rw [drain_of_wait hscan]
        exact fun cut hmem => absurd hmem List.not_mem_nil
      | some first =>
        rw [drain_of_cut hscan]
        rintro cut (_ | ⟨_, hmem⟩)
        · exact hcut buf first rest hscan
        · exact ih rest.length (hn ▸ s.shrinks hscan) rest rfl cut hmem
  rw [run_eq_drain]
  exact hdrain _

end Scanner

end Library
