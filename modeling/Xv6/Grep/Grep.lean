import Xv6.Cstr
import Xv6.Grep.Match

/-!
# Searching a stream of lines (`grep` of `user/grep.c`)

`read` returns what it likes of the bytes that are left, but at least one and no more than requested;
how much it returns is `cuts`, call by call. What `grep` writes is the list of its calls of `write`.
-/

namespace Xv6.Grep

open Bytes

/-- `sizeof(buf)` -/
abbrev BUFSIZE : Nat := 1024

/-- `'\n'` -/
abbrev newline : UInt8 := 10

abbrev Buf : Type := Buffer BUFSIZE

/-! ## The code -/

/-- The bytes that a call of `read` for `k` bytes returns, and those that are left. -/
def read (cut k : Nat) (input : List UInt8) : List UInt8 × List UInt8 := input.splitAt (min (cut + 1) k)

theorem read_lt {cut k : Nat} {input piece rest : List UInt8} (h : read cut k input = (piece, rest))
    (some : 0 < piece.length) : rest.length < input.length := by
  rw [read, List.splitAt_eq, Prod.mk.injEq] at h
  obtain ⟨rfl, rfl⟩ := h
  rw [List.length_take] at some
  rw [List.length_drop]
  omega

/-- The loop over the lines in the buffer from `p` on: the buffer and `p` at its end, and what it has
written. Every round finds another newline. -/
def grepLines (pattern : List UInt8) : Nat → Buf → Nat → Buf × Nat × List (List UInt8)
  | 0, buf, p => (buf, p, [])
  | k + 1, buf, p =>
    match strchr buf.get newline BUFSIZE p with
    | none => (buf, p, [])
    | some q =>
      let buf := buf.put q [0]
      if matchText pattern (cstr buf.get BUFSIZE p) then
        let buf := buf.put q [newline]
        let (buf', p', writes) := grepLines pattern k buf (q + 1)
        (buf', p', buf.slice p (q + 1 - p) :: writes)
      else grepLines pattern k buf (q + 1)

/-- One round of the outer loop with `m` bytes in the buffer, after `read` has returned a piece: the
buffer and `m` at its end, and what it has written. -/
def grepPiece (pattern : List UInt8) (buf : Buf) (m : Nat) (piece : List UInt8) : Buf × Nat × List (List UInt8) :=
  let buf := buf.put m piece
  let m := m + piece.length
  let buf := buf.put m [0]
  let (buf, p, writes) := grepLines pattern BUFSIZE buf 0
  if 0 < m then (buf.put 0 (buf.slice p (m - p)), m - p, writes)
  else (buf, m, writes)

/-- The outer loop. -/
def grepFrom (pattern : List UInt8) (cuts : Nat → Nat) (buf : Buf) (m : Nat) (input : List UInt8) :
    List (List UInt8) :=
  match _reads : read (cuts 0) (BUFSIZE - m - 1) input with
  | (piece, rest) =>
    if _more : 0 < piece.length then
      let (buf, m, writes) := grepPiece pattern buf m piece
      writes ++ grepFrom pattern (cuts ∘ Nat.succ) buf m rest
    else []
termination_by input.length
decreasing_by
  all_goals exact read_lt _reads _more

def grep (pattern : List UInt8) (cuts : Nat → Nat) (buf : Buf) (input : List UInt8) : List (List UInt8) :=
  grepFrom pattern cuts buf 0 input

/-! ## Lines -/

/-- The bytes of some lines. -/
def flat (lines : List (List UInt8)) : List UInt8 := lines.flatMap (· ++ [newline])

/-- The lines that match, as they are written. -/
def matching (pattern : List UInt8) (lines : List (List UInt8)) : List (List UInt8) :=
  (lines.filter (matchText pattern)).map (· ++ [newline])

/-- A line without its newline. -/
structure Line (l : List UInt8) : Prop where
  nonzero : 0 ∉ l
  oneLine : newline ∉ l

section Lines

variable {x y l : List UInt8} {lines : List (List UInt8)}

theorem flat_cons : flat (l :: lines) = l ++ newline :: flat lines := by simp [flat]

theorem flat_eq_nil (h : newline ∉ flat lines) : lines = [] := by
  cases lines with
  | nil => rfl
  | cons l lines => simp [flat_cons] at h

theorem length_le_flat (lines : List (List UInt8)) : lines.length ≤ (flat lines).length := by
  induction lines with
  | nil => exact Nat.zero_le _
  | cons l lines ih =>
    rw [flat_cons, List.length_append, List.length_cons, List.length_cons]
    omega

/-- Part of a stream ends within the first line, or goes on behind it. -/
theorem flat_cons_split (h : x ++ y = flat (l :: lines)) :
    (∃ a, l = x ++ a ∧ y = a ++ newline :: flat lines) ∨ ∃ c, x = l ++ newline :: c ∧ c ++ y = flat lines := by
  rw [flat_cons, List.append_eq_append_iff] at h
  rcases h with ⟨a, line, rest⟩ | ⟨c, front, rest⟩
  · exact Or.inl ⟨a, line, rest⟩
  · cases c with
    | nil => exact Or.inl ⟨[], by simpa using front.symm, by simpa using rest.symm⟩
    | cons b c =>
      rw [List.cons_append, List.cons.injEq] at rest
      obtain ⟨rfl, rest⟩ := rest
      exact Or.inr ⟨c, front, rest.symm⟩

/-- The lines that are complete in a part of the stream, and the beginning of the next one. -/
theorem complete_lines (h : x ++ y = flat lines) (oneLine : ∀ l ∈ lines, newline ∉ l) :
    ∃ done todo rest, lines = done ++ todo ∧ x = flat done ++ rest ∧ newline ∉ rest ∧ rest ++ y = flat todo := by
  induction lines generalizing x with
  | nil =>
    obtain ⟨rfl, rfl⟩ := List.append_eq_nil_iff.mp h
    exact ⟨[], [], [], rfl, rfl, List.not_mem_nil, rfl⟩
  | cons l lines ih =>
    rcases flat_cons_split h with ⟨a, rfl, -⟩ | ⟨c, rfl, rest⟩
    · refine ⟨[], (x ++ a) :: lines, x, rfl, rfl, ?_, h⟩
      exact fun mem => oneLine _ List.mem_cons_self (List.mem_append_left _ mem)
    · obtain ⟨done, todo, c, rfl, rfl, none, left⟩ := ih rest fun l hl => oneLine l (List.mem_cons_of_mem _ hl)
      refine ⟨l :: done, todo, c, rfl, ?_, none, left⟩
      rw [flat_cons, List.append_assoc, List.cons_append]

/-- What is carried over is the beginning of a line. -/
theorem carry_le {k : Nat} (h : x ++ y = flat lines) (oneLine : newline ∉ x) (short : ∀ l ∈ lines, l.length ≤ k) :
    x.length ≤ k := by
  cases lines with
  | nil =>
    obtain ⟨rfl, -⟩ := List.append_eq_nil_iff.mp h
    exact Nat.zero_le k
  | cons l lines =>
    rcases flat_cons_split h with ⟨a, rfl, -⟩ | ⟨c, rfl, -⟩
    · have := short _ List.mem_cons_self
      rw [List.length_append] at this
      omega
    · simp at oneLine

end Lines

/-! ## One call of `read` -/

section Step

variable (pattern : List UInt8) {buf : Buf} {p k : Nat} {rest : List UInt8}

/-- While its newline is replaced by NUL, a line is a string. -/
theorem cstr_line {l : List UInt8} (line : Line l) (here : Run buf.get p (l ++ [newline]))
    (fits : p + l.length < BUFSIZE) : cstr (buf.put (p + l.length) [0]).get BUFSIZE p = l := by
  refine cstr_of_run ?_ line.nonzero (by omega)
  rw [Run.append] at here ⊢
  refine ⟨Buffer.run_put_disjoint here.1 (by omega), Buffer.run_put ?_⟩
  rw [List.length_singleton]
  omega

/-- Then its newline is put back. -/
theorem slice_line {l : List UInt8} (here : Run buf.get p (l ++ [newline])) (fits : p + l.length < BUFSIZE) :
    ((buf.put (p + l.length) [0]).put (p + l.length) [newline]).slice p (p + l.length + 1 - p) =
      l ++ [newline] := by
  have length : p + l.length + 1 - p = (l ++ [newline]).length := by
    rw [List.length_append, List.length_singleton]
    omega
  rw [length]
  refine Buffer.slice_of_run ?_
  rw [Run.append] at here ⊢
  refine ⟨Buffer.run_put_disjoint (Buffer.run_put_disjoint here.1 (by omega)) (by omega), Buffer.run_put ?_⟩
  rw [List.length_singleton]
  omega

/-- The lines in the buffer are matched one after the other. -/
theorem grepLines_run {lines : List (List UInt8)} (all : ∀ l ∈ lines, Line l) (none : newline ∉ rest)
    (run : Run buf.get p (flat lines ++ (rest ++ [0]))) (fits : p + (flat lines ++ rest).length < BUFSIZE)
    (enough : lines.length < k) :
    ∃ buf', Run buf'.get (p + (flat lines).length) (rest ++ [0]) ∧
      grepLines pattern k buf p = (buf', p + (flat lines).length, matching pattern lines) := by
  induction lines generalizing buf p k with
  | nil =>
    refine ⟨buf, run, ?_⟩
    obtain ⟨k, rfl⟩ : ∃ k', k = k' + 1 := ⟨k - 1, by simp only [List.length_nil] at enough; omega⟩
    rw [grepLines, strchr_none run none]
    rfl
  | cons l lines ih =>
    obtain ⟨k, rfl⟩ : ∃ k', k = k' + 1 := ⟨k - 1, by simp only [List.length_cons] at enough; omega⟩
    have line := all l List.mem_cons_self
    obtain ⟨here, later⟩ : Run buf.get p (l ++ [newline]) ∧
        Run buf.get (p + l.length + 1) (flat lines ++ (rest ++ [0])) := by
      rw [flat_cons, List.append_assoc, List.cons_append, List.append_cons, Run.append, List.length_append] at run
      exact run
    have size : (flat (l :: lines)).length = l.length + 1 + (flat lines).length := by
      rw [flat_cons, List.length_append, List.length_cons]
      omega
    rw [List.length_append, size] at fits
    have found : strchr buf.get newline BUFSIZE p = some (p + l.length) :=
      strchr_of_run here line.nonzero line.oneLine (by decide) (by omega)
    have next : ∀ buf' : Buf, Run buf'.get (p + l.length + 1) (flat lines ++ (rest ++ [0])) →
        ∃ buf'', Run buf''.get (p + (flat (l :: lines)).length) (rest ++ [0]) ∧
          grepLines pattern k buf' (p + l.length + 1) =
            (buf'', p + (flat (l :: lines)).length, matching pattern lines) := by
      intro buf' run'
      have target : p + (flat (l :: lines)).length = p + l.length + 1 + (flat lines).length := by omega
      rw [target]
      refine ih (fun l hl => all l (List.mem_cons_of_mem _ hl)) run' ?_ (Nat.lt_of_succ_lt_succ enough)
      rw [List.length_append]
      omega
    have cleared : Run (buf.put (p + l.length) [0]).get (p + l.length + 1) (flat lines ++ (rest ++ [0])) :=
      Buffer.run_put_disjoint later (Or.inr le_rfl)
    rw [grepLines, found]
    dsimp only
    rw [cstr_line line here (by omega)]
    split
    · rename_i matched
      obtain ⟨buf', run', e⟩ := next ((buf.put (p + l.length) [0]).put (p + l.length) [newline])
        (Buffer.run_put_disjoint cleared (Or.inr le_rfl))
      refine ⟨buf', run', ?_⟩
      rw [e, slice_line here (by omega), matching, matching, List.filter_cons_of_pos matched, List.map_cons]
    · rename_i unmatched
      obtain ⟨buf', run', e⟩ := next _ cleared
      refine ⟨buf', run', ?_⟩
      rw [e, matching, matching, List.filter_cons_of_neg unmatched]

/-- The bytes of a call of `read` are put behind those in the buffer; the lines that are complete are
matched and the rest is moved to the front. -/
theorem grepFrom_read (cuts : Nat → Nat) {input piece left carry : List UInt8} {done : List (List UInt8)}
    (run : Run buf.get 0 carry) (reads : read (cuts 0) (BUFSIZE - carry.length - 1) input = (piece, left))
    (some : 0 < piece.length) (all : ∀ l ∈ done, Line l) (none : newline ∉ rest)
    (split : carry ++ piece = flat done ++ rest) :
    ∃ buf', Run buf'.get 0 rest ∧ grepFrom pattern cuts buf carry.length input =
      matching pattern done ++ grepFrom pattern (cuts ∘ Nat.succ) buf' rest.length left := by
  have room : carry.length + piece.length < BUFSIZE := by
    rw [read, List.splitAt_eq, Prod.mk.injEq] at reads
    rw [← reads.1, List.length_take] at some ⊢
    omega
  have size : carry.length + piece.length = (flat done).length + rest.length := by
    rw [← List.length_append, split, List.length_append]
  have filled : Run ((buf.put carry.length piece).put (carry.length + piece.length) [0]).get 0
      (flat done ++ (rest ++ [0])) := by
    rw [← List.append_assoc, ← split, Run.append, Run.append, List.length_append, Nat.zero_add, Nat.zero_add]
    refine ⟨⟨?_, ?_⟩, Buffer.run_put room⟩
    · exact Buffer.run_put_disjoint (Buffer.run_put_disjoint run (by omega)) (by omega)
    · exact Buffer.run_put_disjoint (Buffer.run_put (Nat.le_of_lt room)) (by omega)
  have few : done.length < BUFSIZE := by
    have := length_le_flat done
    omega
  obtain ⟨buf', moved, e⟩ := grepLines_run pattern all none filled
    (by rw [List.length_append]; omega) few
  rw [Nat.zero_add] at moved e
  refine ⟨buf'.put 0 rest, Buffer.run_put (by omega), ?_⟩
  rw [Run.append] at moved
  have left' : carry.length + piece.length - (flat done).length = rest.length := by omega
  have round : grepPiece pattern buf carry.length piece = (buf'.put 0 rest, rest.length, matching pattern done) := by
    rw [grepPiece, e]
    dsimp only
    rw [if_pos (by omega), left', Buffer.slice_of_run moved.1]
  rw [grepFrom, reads]
  dsimp only
  rw [dif_pos some, round]

/-- At the end of the input, or when the buffer is full, `read` returns 0. -/
theorem grepFrom_stop {cuts : Nat → Nat} {input : List UInt8} {m : Nat} (h : input = [] ∨ BUFSIZE ≤ m + 1) :
    grepFrom pattern cuts buf m input = [] := by
  rw [grepFrom, read, List.splitAt_eq]
  dsimp only
  rw [dif_neg]
  rw [List.length_take]
  rcases h with rfl | full
  · simp
  · omega

end Step

/-! ## Whole streams -/

/-- What has been read so far has been dealt with, in whatever way it was cut. By induction on what is
left; `carry` is the beginning of a line. -/
theorem grepFrom_matching {pattern : List UInt8} {cuts : Nat → Nat} {buf : Buf} {carry input : List UInt8}
    {todo : List (List UInt8)} (all : ∀ l ∈ todo, Line l) (short : ∀ l ∈ todo, l.length + 1 < BUFSIZE)
    (run : Run buf.get 0 carry) (none : newline ∉ carry) (stream : carry ++ input = flat todo) :
    grepFrom pattern cuts buf carry.length input = matching pattern todo := by
  induction len : input.length using Nat.strongRecOn generalizing cuts buf carry input todo with
  | ind n ih =>
    subst len
    cases input with
    | nil =>
      rw [List.append_nil] at stream
      obtain rfl : todo = [] := flat_eq_nil (by rwa [← stream])
      exact grepFrom_stop pattern (Or.inl rfl)
    | cons c input =>
      have room : carry.length ≤ BUFSIZE - 2 := carry_le stream none fun l hl => by
        have := short l hl
        omega
      obtain ⟨piece, left, reads⟩ : ∃ piece left,
        read (cuts 0) (BUFSIZE - carry.length - 1) (c :: input) = (piece, left) := ⟨_, _, rfl⟩
      have both : c :: input = piece ++ left ∧ 0 < piece.length := by
        rw [read, List.splitAt_eq, Prod.mk.injEq] at reads
        obtain ⟨rfl, rfl⟩ := reads
        refine ⟨(List.take_append_drop ..).symm, ?_⟩
        rw [List.length_take, List.length_cons]
        simp only [BUFSIZE] at room ⊢
        omega
      rw [both.1, ← List.append_assoc] at stream
      obtain ⟨done, later, rest, rfl, split, none', stream'⟩ := complete_lines stream fun l hl => (all l hl).oneLine
      obtain ⟨buf', run', e⟩ := grepFrom_read pattern cuts run reads both.2
        (fun l hl => all l (List.mem_append_left _ hl)) none' split
      rw [e, ih left.length (read_lt reads both.2) (fun l hl => all l (List.mem_append_right _ hl))
        (fun l hl => short l (List.mem_append_right _ hl)) run' none' stream' rfl]
      simp [matching]

/-- `n` times the letter a. -/
def as (n : Nat) : List UInt8 := List.replicate n 97

theorem as_line (n : Nat) : Line (as n) := by
  constructor
  · intro mem
    exact absurd (List.eq_of_mem_replicate mem) (by decide)
  · intro mem
    exact absurd (List.eq_of_mem_replicate mem) (by decide)

theorem match_as (n : Nat) : matchText [97] (as (n + 1)) = true := by
  have here : matchhere [97] (97 :: as n) = true := by
    rw [matchhere, if_neg (by decide), if_neg (by decide), if_pos (Or.inr rfl), matchhere]
  rw [matchText, if_neg (by decide), as, List.replicate_succ, matchFrom, ← as, if_pos here]

/-- A line that fills the buffer leaves nothing to read for: `grep` stops without having written it. -/
theorem grep_full {pattern l rest : List UInt8} {buf : Buf} (line : Line l) (full : l.length = BUFSIZE - 1) :
    grep pattern (fun _ => BUFSIZE) buf (l ++ rest) = [] := by
  have reads : read BUFSIZE (BUFSIZE - ([] : List UInt8).length - 1) (l ++ rest) = (l, rest) := by
    have size : min (BUFSIZE + 1) (BUFSIZE - ([] : List UInt8).length - 1) = l.length := by
      rw [full]
      decide
    rw [read, List.splitAt_eq, size, List.take_left, List.drop_left]
  have start : Run buf.get 0 [] := trivial
  have some : 0 < l.length := by
    rw [full]
    decide
  have none : ∀ l ∈ ([] : List (List UInt8)), Line l := nofun
  obtain ⟨buf', -, e⟩ := grepFrom_read pattern (fun _ => BUFSIZE) start reads some none line.oneLine rfl
  refine e.trans (grepFrom_stop _ (Or.inr ?_))
  rw [full]
  decide

end Xv6.Grep
