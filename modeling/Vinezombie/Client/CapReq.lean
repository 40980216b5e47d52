import Vinezombie.Client.Cap

/-!
# Requesting capabilities

`req` of `client/cap.rs` packs capabilities into as few `CAP REQ` messages as it can, so that the
server's answer to each fits into a line.  A capability goes into the current line if it fits, else
it begins a new one.

* `reqLoop_groups`: the lines are the capabilities in groups, and each group of more than one fits.
* `length_echo_le`: what fits leaves room for the rest of the answer.
* `req_packs`: nothing is lost, and answers that are too long are about single capabilities.
-/

namespace Vinezombie

open Library Library.Scan

namespace Cap

/-! ## Lines of capabilities -/

theorem key_ne_nil (cap : Key) : cap.bytes ≠ [] := by
  intro h
  have hvalid := cap.valid
  rw [h] at hvalid
  exact absurd hvalid (by decide)

theorem space_not_mem_key (cap : Key) : byte ' ' ∉ cap.bytes := fun h =>
  absurd (cap.isInvalid_eq_false h) (by decide)

/-- The capabilities of a line, with spaces between them. -/
def joined (caps : List Key) : List UInt8 := [byte ' '].intercalate (caps.map Str.bytes)

theorem joined_singleton (cap : Key) : joined [cap] = cap.bytes := by
  rw [joined, List.map_singleton, List.intercalate_singleton]

theorem joined_concat {caps : List Key} (hne : caps ≠ []) (cap : Key) :
    joined (caps ++ [cap]) = joined caps ++ byte ' ' :: cap.bytes := by
  unfold joined
  induction caps with
  | nil => exact absurd rfl hne
  | cons c caps ih =>
    cases caps with
    | nil => simp [List.intercalate_cons_cons]
    | cons d caps =>
      have hrec := ih (List.cons_ne_nil d caps)
      simp only [List.cons_append, List.map_cons, List.intercalate_cons_cons] at hrec ⊢
      rw [hrec]
      simp

theorem joined_eq_nil_iff (caps : List Key) : joined caps = [] ↔ caps = [] := by
  refine ⟨fun h => ?_, fun h => by rw [h]; rfl⟩
  rcases List.eq_nil_or_concat' caps with hnil | ⟨front, last, rfl⟩
  · exact hnil
  · cases front with
    | nil =>
      rw [List.nil_append, joined_singleton] at h
      exact absurd h (key_ne_nil last)
    | cons c front =>
      rw [joined_concat (List.cons_ne_nil c front)] at h
      simp at h

/-- **A line is split at its spaces** into the capabilities. -/
theorem splitOn_joined (caps : List Key) :
    (joined caps).splitOn (byte ' ') = if caps = [] then [[]] else caps.map Str.bytes := by
  by_cases hnil : caps = []
  · rw [if_pos hnil, hnil]
    rfl
  · rw [if_neg hnil, joined, List.splitOn_intercalate]
    · intro l hl
      obtain ⟨cap, -, rfl⟩ := List.mem_map.mp hl
      exact space_not_mem_key cap
    · simpa using hnil

/-! ## The loop -/

/-- Capabilities that may be in one line: one, or as many as fit. -/
def Fits (baseLen : ℕ) (caps : List Key) : Prop :=
  caps.length ≤ 1 ∨ (joined caps).length ≤ baseLen

/-- A capability is appended to the line. -/
theorem bytes_append_cap {pending : List Key} {capString : Line}
    (hline : capString.bytes = joined pending) (cap : Key) :
    ((if capString.bytes.isEmpty then capString else capString.append (.fromStr " ")).append
      cap.toLine).bytes = joined (pending ++ [cap]) := by
  by_cases hnil : pending = []
  · have hempty : capString.bytes = [] := by rw [hline, hnil]; rfl
    rw [if_pos (List.isEmpty_iff.mpr hempty), hnil, List.nil_append, joined_singleton]
    show capString.bytes ++ cap.bytes = cap.bytes
    rw [hempty, List.nil_append]
  · have hempty : ¬ capString.bytes.isEmpty = true := by
      rwa [List.isEmpty_iff, hline, joined_eq_nil_iff]
    rw [if_neg hempty, joined_concat hnil, ← hline]
    exact List.append_assoc capString.bytes [byte ' '] cap.bytes

/-- **The lines that are sent** are the capabilities in groups.  `pending` are those of the current
line. -/
theorem reqLoop_groups (baseLen : ℕ) (caps pending : List Key) (capString : Line)
    (hline : capString.bytes = joined pending) (hfits : Fits baseLen pending) :
    ∃ groups : List (List Key),
      (reqLoop baseLen caps capString).map Str.bytes = groups.map joined ∧
      groups.flatten = pending ++ caps ∧ (∀ g ∈ groups, Fits baseLen g) ∧
      ([] ∈ groups → pending ++ caps = []) := by
  induction caps generalizing pending capString with
  | nil =>
    refine ⟨[pending], ?_, by simp, by simpa using hfits, by simp⟩
    rw [reqLoop, List.map_singleton, List.map_singleton, hline]
  | cons cap caps ih =>
    rw [reqLoop]
    split
    · next hlt =>
      have hpush := bytes_append_cap hline cap
      have hroom : Fits baseLen (pending ++ [cap]) := by
        refine .inr ?_
        rw [← hpush]
        -- the strict comparison leaves room for the space
        have hle : (if capString.bytes.isEmpty then capString
            else capString.append (.fromStr " ")).bytes.length ≤ capString.bytes.length + 1 := by
          split
          · omega
          · exact (List.length_append).le
        have hlen : ∀ line : Line, (line.append cap.toLine).bytes.length =
            line.bytes.length + cap.bytes.length := fun line => List.length_append
        rw [hlen]
        omega
      obtain ⟨groups, hlines, hflat, hall, hnil⟩ := ih (pending ++ [cap]) _ hpush hroom
      rw [List.append_cons pending cap caps]
      exact ⟨groups, hlines, hflat, hall, hnil⟩
    · obtain ⟨groups, hlines, hflat, hall, hnil⟩ := ih [cap] cap.toLine
        (joined_singleton cap).symm (.inl (Nat.le_refl _))
      by_cases hempty : pending = []
      · have hbytes : capString.bytes.isEmpty = true := by
          rw [List.isEmpty_iff, hline, hempty]
          rfl
        refine ⟨groups, ?_, ?_, hall, fun h => absurd (hnil h) (by simp)⟩
        · rw [if_pos hbytes, List.nil_append, hlines]
        · rw [hflat, hempty]
          rfl
      · have hbytes : ¬ capString.bytes.isEmpty = true := by
          rwa [List.isEmpty_iff, hline, joined_eq_nil_iff]
        refine ⟨pending :: groups, ?_, ?_, List.forall_mem_cons.mpr ⟨hfits, hall⟩, ?_⟩
        · rw [if_neg hbytes, List.singleton_append, List.map_cons, List.map_cons, hline, hlines]
        · rw [List.flatten_cons, hflat]
          rfl
        · intro h
          rcases List.mem_cons.mp h with h | h
          · exact absurd h.symm hempty
          · exact absurd (hnil h) (by simp)

/-! ## Messages -/

end Cap

/-- What is added last is the last argument, and the words before it stay. -/
theorem Args.splitLast_add (args : Args) (s : Line) :
    (args.add s).2.splitLast.2.map Str.bytes = some s.bytes ∧
      ∃ more, (args.add s).2.words = args.words ++ more := by
  unfold Args.add
  split
  · exact ⟨rfl, [], (List.append_nil _).symm⟩
  · refine ⟨?_, _, rfl⟩
    simp [Args.splitLast, Args.ofWords, Args.toLine]

namespace Cap

/-- The last argument of a message. -/
def lastArg (m : ClientMsg) : List UInt8 := (m.args.splitLast.2.map Str.bytes).getD []

/-- The words of a line, which is split at spaces. -/
def words (line : List UInt8) : List (List UInt8) :=
  (line.splitOn (byte ' ')).filter (!·.isEmpty)

/-- The capabilities that a message names. -/
def named (m : ClientMsg) : List (List UInt8) := words (lastArg m)

/-- The server's answer to a request, with CRLF.  A client that has no name yet is called `*`. -/
def echo (client : Option Arg) (server : Source) (caps : List UInt8) : List UInt8 :=
  text ":" ++ server.writeTo ++ text " CAP " ++ (client.map Str.bytes).getD (text "*") ++
    text " ACK :" ++ caps ++ text "\r\n"

theorem lastArg_add (msg : ClientMsg) (line : Line) : lastArg (msg.add line) = line.bytes := by
  have hadd := (Args.splitLast_add msg.args line).1
  show ((msg.args.add line).2.splitLast.2.map Str.bytes).getD [] = line.bytes
  rw [hadd]
  rfl

/-- The words of a line of capabilities. -/
theorem words_joined (caps : List Key) : words (joined caps) = caps.map Str.bytes := by
  rw [words, splitOn_joined]
  split
  · next hnil => rw [hnil]; rfl
  · rw [List.filter_eq_self]
    intro l hl
    obtain ⟨cap, -, rfl⟩ := List.mem_map.mp hl
    simpa using key_ne_nil cap

/-- What fits into a line of the request leaves room for the rest of the answer. -/
theorem length_echo_le {msg : ClientMsg} {client : Option Arg} {server : Source}
    {caps : List UInt8} (hcmd : msg.cmd.bytes.length = 3) (hargs : msg.args.isEmpty = false)
    (hreq : msg.args.lenBytes = 4) (hne : caps ≠ [])
    (hlen : caps.length ≤ (msg.bytesLeft (some server) -
      (4 + ((client.map fun c => c.bytes.length).getD 1 : ℕ))).toNat) :
    (echo client server caps).length ≤ 512 := by
  have hclient : ((client.map Str.bytes).getD (text "*")).length =
      (client.map fun c => c.bytes.length).getD 1 := by
    cases client with
    | none => rfl
    | some c => rfl
  have hlength : (echo client server caps).length =
      1 + server.len + 5 + (client.map fun c => c.bytes.length).getD 1 + 6 + caps.length + 2 := by
    simp only [echo, List.length_append, server.length_writeTo, hclient]
    rfl
  have hleft : msg.bytesLeft (some server) =
      510 - ((min (3 + (2 + server.len) + (4 + 1)) Codec.isizeMax : ℕ) : ℤ) := by
    simp only [ClientMsg.bytesLeft, Codec.bytesLeft, Option.map_some, hcmd, hargs, hreq]
    rfl
  have hpos : 0 < caps.length := List.length_pos_iff.mpr hne
  have hmax : 512 < Codec.isizeMax := by decide
  rw [hleft] at hlen
  rw [hlength]
  omega

/-- The capabilities that are named in a message of `req` are among those to be requested. -/
theorem exists_joined_of_mem_req {caps : List Key} {client : Option Arg} {server : Option Source}
    {m : ClientMsg} (hm : m ∈ req caps client server) :
    ∃ group, lastArg m = joined group ∧ ∀ cap ∈ group, cap ∈ caps := by
  unfold req at hm
  dsimp only at hm
  obtain ⟨line, hline, rfl⟩ := List.mem_map.mp hm
  obtain ⟨groups, hlines, hflat, -, -⟩ := reqLoop_groups _ caps [] .empty rfl (.inl (Nat.zero_le _))
  have hmem := List.mem_map_of_mem (f := Str.bytes) hline
  rw [hlines] at hmem
  obtain ⟨group, hgroup, hbytes⟩ := List.mem_map.mp hmem
  refine ⟨group, by rw [lastArg_add, hbytes], fun cap hcap => ?_⟩
  rw [List.nil_append] at hflat
  rw [← hflat]
  exact List.mem_flatten_of_mem hgroup hcap

/-- **What `req` sends.**  The messages are `CAP REQ`s that name the given capabilities in order,
each once.  A message names a single capability or the server's answer to it is at most 512 bytes
long, unless there was no capability to be requested. -/
theorem req_packs (caps : List Key) (client : Option Arg) (server : Source) :
    (req caps client (some server)).flatMap named = caps.map Str.bytes ∧
    ∀ m ∈ req caps client (some server),
      m.cmd = cap ∧ m.args.words.head?.map Str.bytes = some (text "REQ") ∧
      ((named m).length = 1 ∨ (echo client server (lastArg m)).length ≤ 512 ∨ caps = []) := by
  unfold req
  dsimp only
  generalize hbase : Int.toNat _ = baseLen
  obtain ⟨groups, hlines, hflat, hfits, hnil⟩ :=
    reqLoop_groups baseLen caps [] .empty rfl (.inl (Nat.zero_le _))
  rw [List.nil_append] at hflat hnil
  have hcaps : caps.map Str.bytes = groups.flatMap (List.map Str.bytes) := by
    rw [← hflat, List.map_flatten]
    rfl
  constructor
  · rw [List.flatMap_map, hcaps]
    simp only [named, lastArg_add]
    calc (reqLoop baseLen caps .empty).flatMap (fun line => words line.bytes)
        = ((reqLoop baseLen caps .empty).map Str.bytes).flatMap words := by rw [List.flatMap_map]
      _ = groups.flatMap (fun g => words (joined g)) := by rw [hlines, List.flatMap_map]
      _ = groups.flatMap (List.map Str.bytes) :=
          List.flatMap_congr fun g _ => words_joined g
  · intro m hm
    obtain ⟨line, hline, rfl⟩ := List.mem_map.mp hm
    obtain ⟨g, hg, hbytes⟩ : ∃ g ∈ groups, joined g = line.bytes := by
      have hmem := List.mem_map_of_mem (f := Str.bytes) hline
      rw [hlines] at hmem
      exact List.mem_map.mp hmem
    refine ⟨rfl, ?_, ?_⟩
    · obtain ⟨more, hwords⟩ := (Args.splitLast_add ((ClientMsg.new cap).add (.fromStr "REQ")).args
        line).2
      show (((ClientMsg.new cap).add (.fromStr "REQ")).args.add line).2.words.head?.map Str.bytes =
        some (text "REQ")
      rw [hwords]
      rfl
    · rw [named, lastArg_add, ← hbytes, words_joined, List.length_map]
      rcases hfits g hg with hone | hroom
      · cases g with
        | nil => exact .inr (.inr (hnil hg))
        | cons c g =>
          refine .inl ?_
          rw [List.length_cons] at hone ⊢
          omega
      · by_cases hempty : g = []
        · exact .inr (.inr (hnil (hempty ▸ hg)))
        · refine .inr (.inl (length_echo_le rfl rfl rfl ?_ (hbase ▸ hroom)))
          rwa [Ne, joined_eq_nil_iff]

/-- The name of a server with 600 bytes. -/
def longNick : Nick := ⟨List.replicate 600 (byte 'a'), by decide +kernel⟩

/-- With nothing to request, a message without a capability is sent, however long the answer is. -/
theorem req_nothing_long :
    ∃ m ∈ req [] (some ⟨text "a", by decide⟩) (some ⟨longNick, none⟩),
      (named m).length ≠ 1 ∧
      ¬ (echo (some ⟨text "a", by decide⟩) ⟨longNick, none⟩ (lastArg m)).length ≤ 512 := by
  refine ⟨_, List.mem_singleton.mpr rfl, ?_, ?_⟩
  · rw [named, lastArg_add]
    decide
  · rw [lastArg_add]
    decide +kernel

end Cap

end Vinezombie
