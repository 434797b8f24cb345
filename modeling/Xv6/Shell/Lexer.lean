import Mathlib

/-!
# Tokens of a command line (`gettoken` and `peek` of `user/sh.c`)

A pointer into the line is what is left of the line from it on; `es` is the empty rest, at which `*s`
is NUL.
-/

namespace Xv6.Shell

/-- A pointer into the line. -/
abbrev Input : Type := List UInt8

/-- The bytes of a string literal. -/
def chars (s : String) : List UInt8 := s.toList.map Char.toUInt8

def whitespace : List UInt8 := chars " \t\r\n\x0b"
def symbols : List UInt8 := chars "<|>&;()"

/-- The symbols that are a token in themselves. -/
def singles : List UInt8 := chars "|();&<"

def ch (c : Char) : UInt8 := c.toUInt8

/-- `while(s < es && strchr(whitespace, *s)) s++;` -/
def skip (s : Input) : Input := s.dropWhile (· ∈ whitespace)

/-- `!strchr(whitespace, *s) && !strchr(symbols, *s)` -/
def wordChar (c : UInt8) : Bool := c ∉ whitespace ∧ c ∉ symbols

/-- What `gettoken` returns: its value, `*q`, `*eq` and `*ps`. -/
structure Token where
  ret : UInt8
  q : Input
  eq : Input
  rest : Input

/-- The `switch` of `gettoken`. -/
def scan (s : Input) : UInt8 × Input :=
  match s with
  | [] => (0, [])
  | c :: cs =>
    if c = 0 then (0, c :: cs)
    else if c ∈ singles then (c, cs)
    else if c = ch '>' then
      match cs with
      | [] => (c, [])
      | d :: ds => if d = ch '>' then (ch '+', ds) else (c, d :: ds)
    else (ch 'a', (c :: cs).dropWhile wordChar)

def gettoken (ps : Input) : Token :=
  let s := skip ps
  let (ret, t) := scan s
  { ret, q := s, eq := t, rest := skip t }

/-- Whether the next character is one of `toks`, and the pointer moved to it. -/
def peek (ps : Input) (toks : List UInt8) : Bool × Input :=
  let s := skip ps
  (s.headD 0 ≠ 0 ∧ s.headD 0 ∈ toks, s)

/-! ## Scanning -/

theorem skip_skip (s : Input) : skip (skip s) = skip s := List.dropWhile_idempotent _ _

theorem skip_suffix (s : Input) : skip s <:+ s := List.dropWhile_suffix _

theorem skip_head {s : Input} {c : UInt8} {cs : Input} (h : skip s = c :: cs) : c ∉ whitespace := by
  have first := List.head?_dropWhile_not (fun c => decide (c ∈ whitespace)) s
  rw [show s.dropWhile _ = c :: cs from h, List.head?_cons] at first
  simpa using first

/-- What `scan` finds at the head of its input. -/
inductive Scans : Input → UInt8 → Input → Prop where
  | stop {s : Input} (none : s.headD 0 = 0) : Scans s 0 s
  | single {c : UInt8} {cs : Input} (single : c ∈ singles) : Scans (c :: cs) c cs
  | app {cs : Input} : Scans (ch '>' :: ch '>' :: cs) (ch '+') cs
  | gt {cs : Input} : Scans (ch '>' :: cs) (ch '>') cs
  | word {c : UInt8} {cs : Input} (nonzero : c ≠ 0) (other : c ∉ symbols) :
      Scans (c :: cs) (ch 'a') ((c :: cs).dropWhile wordChar)

theorem symbol_cases {c : UInt8} (h : c ∈ symbols) : c ∈ singles ∨ c = ch '>' := by
  have all : (symbols.all fun c => c ∈ singles ∨ c = ch '>') = true := by decide
  exact of_decide_eq_true (List.all_eq_true.1 all c h)

theorem scan_scans (s : Input) : Scans s (scan s).1 (scan s).2 := by
  fun_cases scan s with
  | case1 => exact .stop rfl
  | case2 => exact .stop rfl
  | case3 c cs nonzero single => exact .single single
  | case4 => exact .gt
  | case5 => exact .app
  | case6 => exact .gt
  | case7 c cs nonzero single gt =>
    refine .word nonzero fun symbol => ?_
    rcases symbol_cases symbol with h | h
    · exact single h
    · exact gt h

theorem Scans.suffix {s t : Input} {ret : UInt8} (h : Scans s ret t) : t <:+ s := by
  cases h with
  | stop none => exact List.suffix_rfl
  | single single => exact List.suffix_cons _ _
  | app => exact (List.suffix_cons _ _).trans (List.suffix_cons _ _)
  | gt => exact List.suffix_cons _ _
  | word nonzero other => exact List.dropWhile_suffix _

theorem gettoken_scans (s : Input) : Scans (skip s) (gettoken s).ret (gettoken s).eq := scan_scans (skip s)

theorem gettoken_suffix (s : Input) : (gettoken s).rest <:+ s :=
  ((skip_suffix _).trans (gettoken_scans s).suffix).trans (skip_suffix s)

theorem gettoken_skip (s : Input) : gettoken (skip s) = gettoken s := by
  rw [gettoken, gettoken, skip_skip]

theorem peek_suffix (s : Input) (toks : List UInt8) : (peek s toks).2 <:+ s := skip_suffix s

theorem ret_ne_zero {s t : Input} {ret : UInt8} (h : Scans s ret t) (some : s.headD 0 ≠ 0) : ret ≠ 0 := by
  cases h with
  | stop none => exact absurd none some
  | single single => exact some
  | app | gt | word => decide

/-- A token is taken from the line. -/
theorem gettoken_lt {s : Input} (h : (gettoken s).ret ≠ 0) : (gettoken s).rest.length < s.length := by
  have rest := (skip_suffix (gettoken s).eq).length_le
  have start := (skip_suffix s).length_le
  have scans := gettoken_scans s
  have less : (gettoken s).eq.length < (skip s).length := by
    generalize (gettoken s).ret = ret at h scans
    generalize (gettoken s).eq = t at scans
    generalize hs : skip s = u at scans
    cases scans with
    | stop none => exact absurd rfl h
    | single | gt => exact Nat.lt_succ_self _
    | app => exact (Nat.lt_succ_self _).trans (Nat.lt_succ_self _)
    | @word c cs nonzero other =>
      have word : wordChar c = true := by
        rw [wordChar, decide_eq_true_eq]
        exact ⟨skip_head hs, other⟩
      rw [List.dropWhile_cons_of_pos word]
      exact Nat.lt_succ_of_le (List.dropWhile_suffix _).length_le
  exact lt_of_le_of_lt rest (lt_of_lt_of_le less start)

/-- `peek` finds something only before a token. -/
theorem peek_gettoken_lt {s : Input} {toks : List UInt8} (h : (peek s toks).1 = true) :
    (gettoken (peek s toks).2).rest.length < s.length := by
  have some : (skip s).headD 0 ≠ 0 := (of_decide_eq_true h).1
  have lt := gettoken_lt (s := s) (ret_ne_zero (gettoken_scans s) some)
  rwa [← gettoken_skip] at lt

/-! ## Tokens -/

inductive Tok where
  /-- One character. -/
  | sym (c : UInt8)
  /-- `>>` -/
  | app
  | word (w : List UInt8)
deriving DecidableEq

/-- The text between two pointers. -/
def text (q eq : Input) : List UInt8 := q.take (q.length - eq.length)

def Token.tok (t : Token) : Tok :=
  if t.ret = ch 'a' then .word (text t.q t.eq) else if t.ret = ch '+' then .app else .sym t.ret

/-- All the tokens that `gettoken` finds. -/
def tokens (s : Input) : List Tok :=
  if _h : (gettoken s).ret = 0 then [] else (gettoken s).tok :: tokens (gettoken s).rest
termination_by s.length
decreasing_by exact gettoken_lt (by assumption)

theorem tokens_skip (s : Input) : tokens (skip s) = tokens s := by
  rw [tokens.eq_def (skip s), tokens.eq_def s, gettoken_skip]

theorem tokens_stop {s : Input} (h : (gettoken s).ret = 0) : tokens s = [] := by
  rw [tokens, dif_pos h]

theorem tokens_cons {s : Input} (h : (gettoken s).ret ≠ 0) :
    tokens s = (gettoken s).tok :: tokens (gettoken s).rest := by
  rw [tokens, dif_neg h]

/-- The token begins with one of `toks`. -/
def Tok.isIn (toks : List UInt8) : Tok → Bool
  | .sym c => c ∈ toks
  | .app => ch '>' ∈ toks
  | .word _ => false

/-- The first token begins with one of `toks`. -/
def starts (toks : List UInt8) : List Tok → Bool
  | [] => false
  | t :: _ => t.isIn toks

theorem single_ret {c : UInt8} (h : c ∈ singles) : c ≠ 0 ∧ c ≠ ch 'a' ∧ c ≠ ch '+' := by
  have all : (singles.all fun c => c ≠ 0 ∧ c ≠ ch 'a' ∧ c ≠ ch '+') = true := by decide
  exact of_decide_eq_true (List.all_eq_true.1 all c h)

/-- `peek` looks at the first token. -/
theorem peek_eq {s : Input} {toks : List UInt8} (sub : toks ⊆ symbols) :
    peek s toks = (starts toks (tokens s), skip s) := by
  have scans := gettoken_scans s
  rw [peek, Prod.mk.injEq]
  refine ⟨?_, rfl⟩
  rw [Bool.eq_iff_iff, decide_eq_true_eq]
  have ret : (gettoken s).ret = 0 → starts toks (tokens s) = false := by
    intro h
    rw [tokens_stop h]
    rfl
  have first : (gettoken s).ret ≠ 0 → starts toks (tokens s) = (gettoken s).tok.isIn toks := by
    intro h
    rw [tokens_cons h]
    rfl
  rw [Token.tok] at first
  generalize (gettoken s).ret = r at scans ret first
  generalize (gettoken s).eq = t at scans first
  generalize skip s = u at scans
  cases scans with
  | stop none =>
    rw [ret rfl]
    exact iff_of_false (fun h => h.1 none) Bool.false_ne_true
  | @single c cs single =>
    obtain ⟨nonzero, word, app⟩ := single_ret single
    rw [first nonzero, if_neg word, if_neg app]
    simp [Tok.isIn, nonzero]
  | app =>
    rw [first (by decide), if_neg (by decide), if_pos rfl]
    simp only [List.headD_cons, Tok.isIn, decide_eq_true_eq, and_iff_right_iff_imp]
    exact fun _ => by decide
  | gt =>
    rw [first (by decide), if_neg (by decide), if_neg (by decide)]
    simp only [List.headD_cons, Tok.isIn, decide_eq_true_eq, and_iff_right_iff_imp]
    exact fun _ => by decide
  | @word c cs nonzero other =>
    rw [first (by decide), if_pos rfl]
    simp only [List.headD_cons, Tok.isIn, Bool.false_eq_true, iff_false]
    exact fun h => other (sub h.2)

end Xv6.Shell
