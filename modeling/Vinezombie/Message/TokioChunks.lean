import Vinezombie.Library.Scanner
import Vinezombie.Message.TokioLines

/-!
# Streams in chunks

`scroll_buf` removes leading whitespace from its buffer also when it finds nothing to cut, so that
the buffer changes between the calls.  The cuts do not depend on that, nor on where the chunks end
in which a stream arrives.

* `scrollBuf_eq_trim`: what `scroll_buf` does, in terms of what is behind the whitespace.
* `scroller`: `scroll_buf` and the removal of what it cuts, as a scanner.
* `cuts_eq_of_flatten_eq`: the cuts of a stream.
-/

namespace Vinezombie.TokioCodec

open Library Library.Scan

/-! ## Cuts -/

/-- Where a cut is made does not depend on how much whitespace was removed. -/
theorem scrollLoop_snd (limit : ℕ) (l : List UInt8) (leadingWs : Bool) (trimmedWs endIdx : ℕ) :
    (scrollLoop limit l leadingWs trimmedWs endIdx).2 =
      (scrollLoop limit l leadingWs 0 endIdx).2 := by
  have hany : ∀ t, (scrollLoop limit l leadingWs t endIdx).2 =
      (scrollLoop limit l leadingWs trimmedWs endIdx).2 := by
    induction l generalizing leadingWs trimmedWs endIdx with
    | nil => exact fun _ => rfl
    | cons b l ih =>
      intro t
      rw [scrollLoop, scrollLoop]
      split
      · exact ih _ (trimmedWs + 1) _ (t + 1)
      · split
        · rfl
        · exact ih _ trimmedWs _ t
  exact (hany 0).symm

/-- The loop does not go on where nothing is cut, whatever the limit. -/
theorem scrollLoop_fst (limit : ℕ) (l : List UInt8) (trimmedWs endIdx : ℕ) :
    (scrollLoop limit l false trimmedWs endIdx).1 = trimmedWs := by
  induction l generalizing endIdx with
  | nil => rfl
  | cons b l ih =>
    rw [scrollLoop, Bool.false_and, if_neg (by simp)]
    split
    · rfl
    · exact ih _

/-- **What `scroll_buf` does**: it removes the leading whitespace, and cuts what is left. -/
theorem scrollBuf_eq_trim (buf : List UInt8) (limit : ℕ) :
    scrollBuf buf limit = ((scrollLoop limit (buf.dropWhile isAsciiWhitespace) false 0 0).2,
      buf.dropWhile isAsciiWhitespace) := by
  rw [scrollBuf, scrollLoop_blank, scrollLoop_snd, scrollLoop_fst, Nat.zero_add]
  exact congrArg _ (drop_length_takeWhile isAsciiWhitespace buf)

/-- **A cut** ends with the first byte that is an LF, a NUL or the last one of the limit. -/
theorem scrollLoop_eq_some {limit : ℕ} {l : List UInt8} {trimmedWs endIdx n : ℕ}
    (h : (scrollLoop limit l false trimmedWs endIdx).2 = some n) :
    ∃ init b rest, l = init ++ b :: rest ∧ n = endIdx + init.length + 1 ∧
      (∀ c ∈ init, c ≠ byte '\n' ∧ c ≠ 0) ∧ (init ≠ [] → endIdx + init.length < limit) := by
  induction l generalizing endIdx with
  | nil => exact absurd h (by simp [scrollLoop])
  | cons b l ih =>
    rw [scrollLoop, Bool.false_and, if_neg (by simp)] at h
    by_cases hstop : limit ≤ endIdx + 1 ∨ b = byte '\n' ∨ b = 0
    · rw [if_pos hstop] at h
      exact ⟨[], b, l, rfl, (Option.some.inj h).symm, fun c hc => absurd hc List.not_mem_nil,
        fun hne => absurd rfl hne⟩
    · rw [if_neg hstop] at h
      obtain ⟨hlimit, hlf, hnul⟩ := by simpa only [not_or] using hstop
      obtain ⟨init, c, rest, rfl, hlen, hinit, hbound⟩ := ih h
      refine ⟨b :: init, c, rest, rfl, by rw [List.length_cons]; omega, ?_, fun _ => ?_⟩
      · rintro d (_ | ⟨_, hd⟩)
        · exact ⟨hlf, hnul⟩
        · exact hinit d hd
      · rw [List.length_cons]
        by_cases hnil : init = []
        · rw [hnil, List.length_nil]
          omega
        · have := hbound hnil
          omega

/-- A cut does not depend on what follows. -/
theorem scrollLoop_append_of_some {limit : ℕ} {l : List UInt8} {trimmedWs endIdx n : ℕ}
    (h : (scrollLoop limit l false trimmedWs endIdx).2 = some n) (more : List UInt8) :
    (scrollLoop limit (l ++ more) false trimmedWs endIdx).2 = some n := by
  induction l generalizing endIdx with
  | nil => exact absurd h (by simp [scrollLoop])
  | cons b l ih =>
    rw [List.cons_append, scrollLoop, Bool.false_and, if_neg (by simp)]
    rw [scrollLoop, Bool.false_and, if_neg (by simp)] at h
    by_cases hstop : limit ≤ endIdx + 1 ∨ b = byte '\n' ∨ b = 0
    · rw [if_pos hstop]
      rwa [if_pos hstop] at h
    · rw [if_neg hstop]
      rw [if_neg hstop] at h
      exact ih h

/-! ## Streams -/

/-- `scroll_buf`, and the removal of what it cuts. -/
def scrollCut (limit : ℕ) (buf : List UInt8) : Option (List UInt8) × List UInt8 :=
  match scrollBuf buf limit with
  | (none, buf) => (none, buf)
  | (some n, buf) => (some (buf.take n), buf.drop n)

/-- Nothing is cut. -/
theorem scrollCut_of_none {limit : ℕ} {buf : List UInt8}
    (h : (scrollLoop limit (buf.dropWhile isAsciiWhitespace) false 0 0).2 = none) :
    scrollCut limit buf = (none, buf.dropWhile isAsciiWhitespace) := by
  rw [scrollCut, scrollBuf_eq_trim, h]

/-- The front of the buffer is cut off behind the whitespace. -/
theorem scrollCut_of_some {limit : ℕ} {buf : List UInt8} {n : ℕ}
    (h : (scrollLoop limit (buf.dropWhile isAsciiWhitespace) false 0 0).2 = some n) :
    scrollCut limit buf = (some ((buf.dropWhile isAsciiWhitespace).take n),
      (buf.dropWhile isAsciiWhitespace).drop n) := by
  rw [scrollCut, scrollBuf_eq_trim, h]

/-- What a cut says of the buffer. -/
theorem scrollCut_eq_some {limit : ℕ} {buf cut rest : List UInt8}
    (h : scrollCut limit buf = (some cut, rest)) :
    ∃ n, (scrollLoop limit (buf.dropWhile isAsciiWhitespace) false 0 0).2 = some n ∧
      cut ++ rest = buf.dropWhile isAsciiWhitespace ∧ cut.length = n := by
  cases hloop : (scrollLoop limit (buf.dropWhile isAsciiWhitespace) false 0 0).2 with
  | none =>
    rw [scrollCut_of_none hloop] at h
    exact absurd (Prod.mk.inj h).1 (by simp)
  | some n =>
    rw [scrollCut_of_some hloop] at h
    obtain ⟨hcut, hrest⟩ := Prod.mk.inj h
    obtain ⟨init, b, more, hl, hlen, -, -⟩ := scrollLoop_eq_some hloop
    refine ⟨n, rfl, ?_, ?_⟩
    · rw [← Option.some.inj hcut, ← hrest, List.take_append_drop]
    · -- `split_to` finds as many bytes as it is asked for
      rw [← Option.some.inj hcut, List.length_take, hl, List.length_append, List.length_cons]
      omega

/-- What is behind the whitespace, where more follows. -/
theorem dropWhile_append_of_ne_nil {buf : List UInt8} (more : List UInt8)
    (h : buf.dropWhile isAsciiWhitespace ≠ []) :
    (buf ++ more).dropWhile isAsciiWhitespace = buf.dropWhile isAsciiWhitespace ++ more := by
  rw [List.dropWhile_append, if_neg (by simpa using h)]

/-- Whitespace that is removed before more follows is not missed. -/
theorem dropWhile_dropWhile_append (buf more : List UInt8) :
    (buf.dropWhile isAsciiWhitespace ++ more).dropWhile isAsciiWhitespace =
      (buf ++ more).dropWhile isAsciiWhitespace := by
  have htwice : (buf.dropWhile isAsciiWhitespace).dropWhile isAsciiWhitespace =
      buf.dropWhile isAsciiWhitespace := List.dropWhile_idempotent isAsciiWhitespace buf
  rw [List.dropWhile_append, List.dropWhile_append, htwice]

/-- **`scroll_buf` is a scanner.** -/
def scroller (limit : ℕ) : Scanner UInt8 where
  scan := scrollCut limit
  scan_nil := rfl
  shrinks := by
    intro buf cut rest h
    obtain ⟨n, hloop, happend, hlen⟩ := scrollCut_eq_some h
    obtain ⟨init, b, more, -, hn, -, -⟩ := scrollLoop_eq_some hloop
    have hle : (buf.dropWhile isAsciiWhitespace).length ≤ buf.length :=
      (List.dropWhile_suffix isAsciiWhitespace).length_le
    rw [← happend, List.length_append] at hle
    omega
  cut_append := by
    intro buf cut rest more h
    obtain ⟨n, hloop, happend, rfl⟩ := scrollCut_eq_some h
    have hne : buf.dropWhile isAsciiWhitespace ≠ [] := by
      intro hnil
      rw [hnil] at hloop
      exact absurd hloop (by simp [scrollLoop])
    have htrim := dropWhile_append_of_ne_nil more hne
    have hmore := scrollLoop_append_of_some hloop more
    rw [← htrim] at hmore
    rw [scrollCut_of_some hmore, htrim, ← happend, List.append_assoc, List.take_left,
      List.drop_left]
  wait_append := by
    intro buf rest more h
    have hrest : rest = buf.dropWhile isAsciiWhitespace := by
      cases hloop : (scrollLoop limit (buf.dropWhile isAsciiWhitespace) false 0 0).2 with
      | none =>
        rw [scrollCut_of_none hloop] at h
        exact (Prod.mk.inj h).2.symm
      | some n =>
        rw [scrollCut_of_some hloop] at h
        exact absurd (Prod.mk.inj h).1 (by simp)
    rw [scrollCut, scrollCut, scrollBuf_eq_trim, scrollBuf_eq_trim, hrest,
      dropWhile_dropWhile_append]

/-- **One cut**: it is not longer than the limit, does not begin with whitespace, and ends at the
first LF or NUL. -/
theorem sound_of_scrollCut {limit : ℕ} (hlimit : 1 ≤ limit) {buf cut rest : List UInt8}
    (h : scrollCut limit buf = (some cut, rest)) :
    cut ≠ [] ∧ cut.length ≤ limit ∧ (∀ b ∈ cut.head?, isAsciiWhitespace b = false) ∧
      ∀ b ∈ cut.dropLast, b ≠ byte '\n' ∧ b ≠ 0 := by
  obtain ⟨n, hloop, happend, rfl⟩ := scrollCut_eq_some h
  obtain ⟨init, b, more, hl, hlen, hinit, hbound⟩ := scrollLoop_eq_some hloop
  have hcut : cut = init ++ [b] := by
    have hsplit : cut ++ rest = (init ++ [b]) ++ more := by
      rw [happend, hl, List.append_assoc]
      rfl
    refine (List.append_inj hsplit ?_).1
    rw [List.length_append, List.length_singleton]
    omega
  refine ⟨by simp [hcut], ?_, fun c hc => ?_, fun c hc => ?_⟩
  · by_cases hnil : init = []
    · rw [hnil, List.length_nil] at hlen
      omega
    · have hlt := hbound hnil
      omega
  · refine head?_dropWhile_eq_false (l := buf) ?_
    rw [← happend]
    exact List.mem_head?_append_of_mem_head? hc
  · rw [hcut, List.dropLast_concat] at hc
    exact hinit c hc

/-- **Framing does not depend on the chunks**: a stream is cut alike however it is split into
chunks, with a drained buffer after each chunk; and each cut has at most `limit` bytes, does not
begin with whitespace, and has an LF or a NUL in its last byte only. -/
theorem cuts_eq_of_flatten_eq {limit : ℕ} (hlimit : 1 ≤ limit) {chunks chunks' : List (List UInt8)}
    (h : chunks.flatten = chunks'.flatten) :
    (scroller limit).run chunks [] = (scroller limit).run chunks' [] ∧
      ∀ cut ∈ ((scroller limit).run chunks []).1, cut ≠ [] ∧ cut.length ≤ limit ∧
        (∀ b ∈ cut.head?, isAsciiWhitespace b = false) ∧
        ∀ b ∈ cut.dropLast, b ≠ byte '\n' ∧ b ≠ 0 := by
  refine ⟨?_, Scanner.forall_run (fun buf cut rest hcut => sound_of_scrollCut hlimit hcut) chunks⟩
  rw [Scanner.run_eq_drain, Scanner.run_eq_drain, h]

/-- A message in two chunks, with whitespace in front of it, and the CR and the LF apart. -/
theorem cuts_eq_two_chunks :
    1 ≤ 16 ∧ [text " foo\r", text "\nb"].flatten = [text " foo\r\nb"].flatten ∧
      (scroller 16).run [text " foo\r", text "\nb"] [] =
        (scroller 16).run [text " foo\r\nb"] [] ∧
      ∀ cut ∈ ((scroller 16).run [text " foo\r", text "\nb"] []).1, cut ≠ [] ∧ cut.length ≤ 16 ∧
        (∀ b ∈ cut.head?, isAsciiWhitespace b = false) ∧
        ∀ b ∈ cut.dropLast, b ≠ byte '\n' ∧ b ≠ 0 :=
  ⟨by decide, by decide +kernel,
    cuts_eq_of_flatten_eq (by decide) (show [text " foo\r", text "\nb"].flatten =
      [text " foo\r\nb"].flatten by decide +kernel)⟩

end Vinezombie.TokioCodec
