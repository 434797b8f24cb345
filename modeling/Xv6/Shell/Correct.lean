import Xv6.Shell.Grammar

/-!
# The parser accepts its grammar

Soundness goes along the recursion of the parser, by the length of what is left; completeness along
the derivation, for any tokens behind it that may follow the nonterminal.
-/

namespace Xv6.Shell

theorem bind_ok_iff {ε α β : Type} {x : Except ε α} {f : α → Except ε β} {b : β} :
    (x >>= f) = .ok b ↔ ∃ a, x = .ok a ∧ f a = .ok b := by
  cases x with
  | error e => exact iff_of_false nofun nofun
  | ok a =>
    constructor
    · exact fun h => ⟨a, rfl, h⟩
    · rintro ⟨a', same, h⟩
      cases same
      exact h

/-! ## Results without their proofs -/

/-- The command and what is left. -/
def run {s : Input} (r : Except String (Parsed s)) : Except String (Cmd Span × Input) := r.map fun p => (p.cmd, p.rest)

section Run

variable {s t : Input}

theorem run_ok_iff {r : Except String (Parsed s)} {c : Cmd Span} {u : Input} :
    run r = .ok (c, u) ↔ ∃ p, r = .ok p ∧ p.cmd = c ∧ p.rest = u := by
  cases r with
  | error e => exact iff_of_false nofun nofun
  | ok p =>
    constructor
    · intro h
      cases h
      exact ⟨p, rfl, rfl, rfl⟩
    · rintro ⟨_, same, rfl, rfl⟩
      cases same
      rfl

theorem run_suffix {r : Except String (Parsed s)} {c : Cmd Span} {u : Input} (h : run r = .ok (c, u)) : u <:+ s := by
  obtain ⟨p, -, -, rfl⟩ := run_ok_iff.mp h
  exact p.suffix

theorem run_bind {x : Except String (Parsed t)} {f : Parsed t → Except String (Parsed s)}
    {g : Cmd Span × Input → Except String (Cmd Span × Input)} (h : ∀ p, run (f p) = g (p.cmd, p.rest)) :
    run (x >>= f) = run x >>= g := by
  cases x with
  | error e => rfl
  | ok p => exact h p

theorem run_weaken {x : Except String (Parsed t)} (h : t <:+ s) :
    run (x >>= fun p => (pure (p.weaken h) : Except String (Parsed s))) = run x := by
  cases x <;> rfl

end Run

/-! ## Tokens as the parser meets them -/

section Tokens

variable {s : Input} {toks : List UInt8}

theorem gettoken_peek (s : Input) (toks : List UInt8) : gettoken (peek s toks).2 = gettoken s := gettoken_skip s

theorem tokens_peek : tokens (peek s toks).2 = tokens s := tokens_skip s

theorem peek_starts (sub : toks ⊆ symbols) : (peek s toks).1 = starts toks (tokens s) := by
  rw [peek_eq sub]

/-- The first token, as `gettoken` returns it. -/
theorem gettoken_of_cons {t : Tok} {ts : List Tok} (h : tokens s = t :: ts) :
    (gettoken s).ret ≠ 0 ∧ (gettoken s).tok = t ∧ tokens (gettoken s).rest = ts := by
  by_cases none : (gettoken s).ret = 0
  · rw [tokens_stop none] at h
    cases h
  · rw [tokens_cons none] at h
    exact ⟨none, List.cons.inj h⟩

/-- At the end `gettoken` stays where it is. -/
theorem rest_of_stop (h : (gettoken s).ret = 0) : (gettoken s).rest = skip s := by
  have scans := gettoken_scans s
  have eq : (gettoken s).eq = skip s := by
    generalize (gettoken s).ret = ret at h scans
    generalize (gettoken s).eq = t at scans
    generalize skip s = u at scans
    cases scans with
    | stop none => rfl
    | single single => exact absurd h (single_ret single).1
    | app | gt | word => exact absurd h (by decide)
  show skip (gettoken s).eq = skip s
  rw [eq, skip_skip]

theorem ret_zero_iff : (gettoken s).ret = 0 ↔ tokens s = [] := by
  constructor
  · exact tokens_stop
  · intro h
    by_contra some
    rw [tokens_cons some] at h
    cases h

/-- A word. -/
theorem tok_word {t : Token} (h : t.ret = ch 'a') : t.tok = .word t.span.text := if_pos h

theorem ret_word {t : Token} {w : Word} (h : t.tok = .word w) : t.ret = ch 'a' ∧ t.span.text = w := by
  rw [Token.tok] at h
  split at h
  · rename_i word
    exact ⟨word, Tok.word.inj h⟩
  · split at h <;> cases h

theorem ret_sym {t : Token} {c : UInt8} (h : t.tok = .sym c) : t.ret = c := by
  rw [Token.tok] at h
  split at h
  · cases h
  · split at h <;> cases h
    rfl

theorem ret_app {t : Token} (h : t.tok = .app) : t.ret = ch '+' := by
  rw [Token.tok] at h
  split at h
  · cases h
  · split at h
    · assumption
    · cases h

/-- The first token, if `peek` finds one character. -/
theorem starts_one {c : UInt8} (other : c ≠ ch '>') {ts : List Tok} :
    starts [c] ts = true ↔ ∃ us, ts = .sym c :: us := by
  cases ts with
  | nil => simp [starts]
  | cons t us =>
    cases t with
    | sym d => simp [starts, Tok.isIn]
    | app => simp [starts, Tok.isIn, other.symm]
    | word w => simp [starts, Tok.isIn]

theorem starts_redir {ts : List Tok} :
    starts (chars "<>") ts = true ↔ ∃ (op : Op) (us : List Tok), ts = op.tok :: us := by
  constructor
  · intro h
    cases ts with
    | nil => cases h
    | cons t us =>
      cases t with
      | sym c =>
        have cases : c = ch '<' ∨ c = ch '>' := by
          simpa [starts, Tok.isIn, chars, ch] using h
        rcases cases with rfl | rfl
        · exact ⟨.lt, us, rfl⟩
        · exact ⟨.gt, us, rfl⟩
      | app => exact ⟨.app, us, rfl⟩
      | word w => cases h
  · rintro ⟨op, us, rfl⟩
    cases op <;> rfl

theorem redirect_op {t : Token} {op : Op} (h : t.tok = op.tok) (c : Cmd Word) (w : Word) :
    redirect t.ret c w = Redir.wrap c ⟨op, w⟩ := by
  cases op with
  | lt =>
    rw [ret_sym h]
    rfl
  | gt =>
    rw [ret_sym h]
    rfl
  | app =>
    rw [ret_app h]
    rfl

end Tokens

/-! ## Strings in the line -/

/-- A string of the tree is a word of the line: a maximal run of word characters. -/
structure Good (line : Input) (a : Span) : Prop where
  inside : a.q <:+ line
  split : a.q = a.text ++ a.eq
  word : ∀ c ∈ a.text, wordChar c = true
  ends : ∀ c cs, a.eq = c :: cs → wordChar c = false

theorem gettoken_good {line s : Input} (inside : s <:+ line) (word : (gettoken s).ret = ch 'a') :
    Good line (gettoken s).span := by
  have scans := gettoken_scans s
  have eq : (gettoken s).eq = (skip s).dropWhile wordChar := by
    generalize (gettoken s).ret = ret at word scans
    generalize (gettoken s).eq = t at scans
    generalize skip s = u at scans
    cases scans with
    | stop none => exact absurd word (by decide)
    | single single => exact absurd word (single_ret single).2.1
    | app => exact absurd word (by decide)
    | gt => exact absurd word (by decide)
    | word nonzero other => rfl
  have text : (gettoken s).span.text = (skip s).takeWhile wordChar := by
    have whole := congrArg List.length (List.takeWhile_append_dropWhile (p := wordChar) (l := skip s))
    rw [List.length_append] at whole
    have number : (skip s).length - ((skip s).dropWhile wordChar).length = ((skip s).takeWhile wordChar).length := by
      omega
    show (skip s).take ((skip s).length - (gettoken s).eq.length) = _
    rw [eq, number]
    exact (List.prefix_iff_eq_take.mp (List.takeWhile_prefix _)).symm
  refine ⟨(skip_suffix s).trans inside, ?_, ?_, ?_⟩
  · rw [text]
    show skip s = _ ++ (gettoken s).eq
    rw [eq, List.takeWhile_append_dropWhile]
  · rw [text]
    exact fun c hc => List.mem_takeWhile_imp hc
  · intro c cs first
    have stop := List.head?_dropWhile_not wordChar (skip s)
    rw [show (skip s).dropWhile wordChar = c :: cs from eq.symm.trans first] at stop
    simpa using stop

/-! ## Redirections -/

section Redirs

variable {s : Input} {cmd : Cmd Span}

theorem run_parseredirs : run (parseredirs cmd s) =
    if starts (chars "<>") (tokens s) then
      if (gettoken (gettoken s).rest).ret ≠ ch 'a' then .error "missing file for redirection"
      else run (parseredirs (redirect (gettoken s).ret cmd (gettoken (gettoken s).rest).span) (gettoken (gettoken s).rest).rest)
    else .ok (cmd, skip s) := by
  rw [parseredirs, ← peek_starts (by decide)]
  split
  · dsimp only
    rw [← gettoken_peek s (chars "<>")]
    split
    · rfl
    · exact run_weaken _
  · rfl

theorem parseredirs_sound {c : Cmd Span} {u : Input} (h : run (parseredirs cmd s) = .ok (c, u)) :
    (∃ rs : List Redir, tokens s = rs.flatMap Redir.toks ++ tokens u ∧
      c.map Span.text = rs.foldl Redir.wrap (cmd.map Span.text)) ∧
    ∀ line, s <:+ line → cmd.All (Good line) → c.All (Good line) := by
  induction hk : s.length using Nat.strong_induction_on generalizing s cmd with
  | _ k ih =>
    subst hk
    rw [run_parseredirs] at h
    split at h
    · rename_i more
      split at h
      · cases h
      · rename_i word
        have isWord := not_not.mp word
        obtain ⟨op, us, first⟩ := starts_redir.mp more
        obtain ⟨some, tok, rest⟩ := gettoken_of_cons first
        have less := lt_of_le_of_lt (gettoken_suffix (gettoken s).rest).length_le (gettoken_lt some)
        obtain ⟨⟨rs, split, tree⟩, good⟩ := ih _ less h rfl
        constructor
        · refine ⟨⟨op, (gettoken (gettoken s).rest).span.text⟩ :: rs, ?_, ?_⟩
          · have second : us = .word (gettoken (gettoken s).rest).span.text :: tokens (gettoken (gettoken s).rest).rest := by
              rw [← rest, tokens_cons (by rw [isWord]; decide), tok_word isWord]
            rw [first, second, split]
            rfl
          · rw [tree, map_redirect, redirect_op tok]
            rfl
        · intro line inside all
          have inner := (gettoken_suffix s).trans inside
          exact good line ((gettoken_suffix _).trans inner) (all.redirect (gettoken_good inner isWord))
    · cases h
      exact ⟨⟨[], (tokens_skip s).symm, rfl⟩, fun _ _ all => all⟩

theorem parseredirs_complete (cmd : Cmd Span) {rs : List Redir} {us : List Tok} (h : tokens s = rs.flatMap Redir.toks ++ us)
    (stop : starts (chars "<>") us = false) :
    ∃ c u, run (parseredirs cmd s) = .ok (c, u) ∧ tokens u = us ∧
      c.map Span.text = rs.foldl Redir.wrap (cmd.map Span.text) := by
  induction rs generalizing s cmd with
  | nil =>
    rw [List.flatMap_nil, List.nil_append] at h
    refine ⟨cmd, skip s, ?_, (tokens_skip s).trans h, rfl⟩
    rw [run_parseredirs, h, stop]
    rfl
  | cons r rs ih =>
    obtain ⟨op, file⟩ := r
    have first : tokens s = op.tok :: (.word file :: (rs.flatMap Redir.toks ++ us)) := h
    obtain ⟨-, tok, rest⟩ := gettoken_of_cons first
    obtain ⟨-, word, rest'⟩ := gettoken_of_cons rest
    obtain ⟨ret, text⟩ := ret_word word
    obtain ⟨c, u, parsed, left, tree⟩ := ih (redirect (gettoken s).ret cmd (gettoken (gettoken s).rest).span) rest'
    refine ⟨c, u, ?_, left, ?_⟩
    · rw [run_parseredirs, if_pos (starts_redir.mpr ⟨op, _, first⟩), if_neg (not_not.mpr ret), parsed]
    · rw [tree, map_redirect, redirect_op tok, text]
      rfl

end Redirs

/-! ## Arguments -/

section Args

variable {s : Input} {ret : Cmd Span} {argc : Nat}

theorem run_parseargs : run (parseargs ret argc s) =
    if starts (chars "|)&;") (tokens s) then .ok (ret, skip s)
    else if (gettoken s).ret = 0 then .ok (ret, (gettoken s).rest)
    else if (gettoken s).ret ≠ ch 'a' then .error "syntax"
    else if argc + 1 ≥ MAXARGS then .error "too many args"
    else run (parseredirs (ret.pushArg (gettoken s).span) (gettoken s).rest) >>= fun p =>
      run (parseargs p.1 (argc + 1) p.2) := by
  rw [parseargs, ← peek_starts (by decide)]
  split
  · rfl
  · dsimp only
    rw [← gettoken_peek s (chars "|)&;")]
    split
    · rfl
    · split
      · rfl
      · split
        · rfl
        · exact run_bind fun p => run_weaken _

theorem parseargs_sound {c : Cmd Span} {u : Input} (h : run (parseargs ret argc s) = .ok (c, u)) (few : argc < MAXARGS) :
    (∃ args : List Arg, tokens s = args.flatMap Arg.toks ++ tokens u ∧ argc + args.length < MAXARGS ∧
      c.map Span.text = args.foldl Arg.add (ret.map Span.text)) ∧
    ∀ line, s <:+ line → ret.All (Good line) → c.All (Good line) := by
  induction hk : s.length using Nat.strong_induction_on generalizing s ret argc with
  | _ k ih =>
    subst hk
    rw [run_parseargs] at h
    split at h
    · cases h
      exact ⟨⟨[], (tokens_skip s).symm, few, rfl⟩, fun _ _ all => all⟩
    split at h
    · rename_i none
      cases h
      refine ⟨⟨[], ?_, few, rfl⟩, fun _ _ all => all⟩
      rw [rest_of_stop none, tokens_skip]
      rfl
    split at h
    · cases h
    split at h
    · cases h
    · rename_i some word room
      have isWord := not_not.mp word
      obtain ⟨⟨c', u'⟩, redirs, rest⟩ := bind_ok_iff.mp h
      obtain ⟨⟨rs, split, tree⟩, good⟩ := parseredirs_sound redirs
      have less := lt_of_le_of_lt (run_suffix redirs).length_le (gettoken_lt some)
      obtain ⟨⟨args, split', number, tree'⟩, good'⟩ := ih _ less rest (not_le.mp room) rfl
      constructor
      · refine ⟨⟨(gettoken s).span.text, rs⟩ :: args, ?_, ?_, ?_⟩
        · rw [tokens_cons some, tok_word isWord, split, split', List.flatMap_cons, Arg.toks, List.cons_append, List.cons_append,
            List.append_assoc]
        · rw [List.length_cons]
          omega
        · rw [tree', tree, Cmd.map_pushArg]
          rfl
      · intro line inside all
        have inner := (gettoken_suffix s).trans inside
        exact good' line ((run_suffix redirs).trans inner) (good line inner (all.pushArg (gettoken_good inside isWord)))

theorem starts_args {args : List Arg} {us : List Tok} (stop : starts (chars "<>") us = false) :
    starts (chars "<>") (args.flatMap Arg.toks ++ us) = false := by
  cases args with
  | nil => exact stop
  | cons a args => rfl

/-- A simple command does not begin with a parenthesis. -/
theorem starts_simple {rs : List Redir} {args : List Arg} {us : List Tok} (h : starts (chars "(") us = false) :
    starts (chars "(") (rs.flatMap Redir.toks ++ (args.flatMap Arg.toks ++ us)) = false := by
  cases rs with
  | nil =>
    cases args with
    | nil => exact h
    | cons a args => rfl
  | cons r rs =>
    obtain ⟨op, file⟩ := r
    cases op <;> rfl

theorem parseargs_complete (ret : Cmd Span) (argc : Nat) {args : List Arg} {us : List Tok} (h : tokens s = args.flatMap Arg.toks ++ us)
    (few : argc + args.length < MAXARGS) (stop : starts (chars "<>") us = false)
    (follow : us = [] ∨ starts (chars "|)&;") us = true) :
    ∃ c u, run (parseargs ret argc s) = .ok (c, u) ∧ tokens u = us ∧
      c.map Span.text = args.foldl Arg.add (ret.map Span.text) := by
  induction args generalizing s ret argc with
  | nil =>
    rw [List.flatMap_nil, List.nil_append] at h
    rcases follow with rfl | follow
    · have none := ret_zero_iff.mpr h
      refine ⟨ret, (gettoken s).rest, ?_, ?_, rfl⟩
      · rw [run_parseargs, h, if_neg (by decide), if_pos none]
      · rw [rest_of_stop none, tokens_skip, h]
    · refine ⟨ret, skip s, ?_, (tokens_skip s).trans h, rfl⟩
      rw [run_parseargs, h, if_pos follow]
  | cons a args ih =>
    have first : tokens s = .word a.word :: (a.redirs.flatMap Redir.toks ++ (args.flatMap Arg.toks ++ us)) := by
      rw [h, List.flatMap_cons, Arg.toks, List.cons_append, List.cons_append, List.append_assoc]
    rw [List.length_cons] at few
    obtain ⟨some, word, rest⟩ := gettoken_of_cons first
    obtain ⟨isWord, text⟩ := ret_word word
    obtain ⟨c, u, redirs, left, tree⟩ :=
      parseredirs_complete (ret.pushArg (gettoken s).span) rest (starts_args stop)
    obtain ⟨c', u', parsed, left', tree'⟩ := ih c (argc + 1) left (by omega)
    refine ⟨c', u', ?_, left', ?_⟩
    · rw [run_parseargs, first, if_neg (by simp [starts, Tok.isIn]), if_neg some, if_neg (not_not.mpr isWord),
        if_neg (by omega)]
      exact bind_ok_iff.mpr ⟨(c, u), redirs, parsed⟩
    · rw [tree', tree, Cmd.map_pushArg, text]
      rfl

end Args

/-! ## Commands -/

section Back

variable {s : Input} (cmd : Cmd Span)

theorem parseback_more {us : List Tok} (h : tokens s = .sym (ch '&') :: us) :
    (parseback cmd s).cmd = (parseback cmd.back (gettoken s).rest).cmd ∧
    (parseback cmd s).rest = (parseback cmd.back (gettoken s).rest).rest := by
  have more : (peek s (chars "&")).1 = true := by
    rw [peek_starts (by decide)]
    exact (starts_one (c := ch '&') (by decide)).mpr ⟨us, h⟩
  rw [← gettoken_peek s (chars "&"), parseback, dif_pos more]
  exact ⟨rfl, rfl⟩

theorem parseback_stop (h : starts (chars "&") (tokens s) = false) :
    (parseback cmd s).cmd = cmd ∧ (parseback cmd s).rest = skip s := by
  have stop : ¬(peek s (chars "&")).1 = true := by
    rw [peek_starts (by decide), h]
    exact Bool.false_ne_true
  rw [parseback, dif_neg stop]
  exact ⟨rfl, rfl⟩

theorem parseback_sound : ∃ k, tokens s = List.replicate k (.sym (ch '&')) ++ tokens (parseback cmd s).rest ∧
    (parseback cmd s).cmd = Cmd.back^[k] cmd := by
  induction hk : s.length using Nat.strong_induction_on generalizing s cmd with
  | _ k ih =>
    subst hk
    by_cases more : starts (chars "&") (tokens s) = true
    · obtain ⟨us, first⟩ := (starts_one (c := ch '&') (by decide)).mp more
      obtain ⟨some, -, rest⟩ := gettoken_of_cons first
      obtain ⟨k, split, tree⟩ := ih _ (gettoken_lt some) cmd.back rfl
      obtain ⟨hcmd, hrest⟩ := parseback_more cmd first
      refine ⟨k + 1, ?_, ?_⟩
      · rw [first, hrest, ← rest, split, List.replicate_succ, List.cons_append]
      · rw [hcmd, tree, Function.iterate_succ_apply]
    · obtain ⟨hcmd, hrest⟩ := parseback_stop cmd (Bool.eq_false_iff.mpr more)
      exact ⟨0, by rw [hrest, tokens_skip]; rfl, hcmd⟩

theorem parseback_complete {k : Nat} {us : List Tok} (h : tokens s = List.replicate k (.sym (ch '&')) ++ us)
    (stop : starts (chars "&") us = false) :
    tokens (parseback cmd s).rest = us ∧ (parseback cmd s).cmd = Cmd.back^[k] cmd := by
  induction k generalizing s cmd with
  | zero =>
    rw [List.replicate_zero, List.nil_append] at h
    obtain ⟨hcmd, hrest⟩ := parseback_stop cmd (h ▸ stop)
    exact ⟨by rw [hrest, tokens_skip, h], hcmd⟩
  | succ k ih =>
    rw [List.replicate_succ, List.cons_append] at h
    obtain ⟨hcmd, hrest⟩ := parseback_more cmd h
    obtain ⟨left, tree⟩ := ih cmd.back (gettoken_of_cons h).2.2
    exact ⟨by rw [hrest, left], by rw [hcmd, tree, Function.iterate_succ_apply]⟩

theorem map_back {σ τ : Type} (f : σ → τ) (k : Nat) (c : Cmd σ) : (Cmd.back^[k] c).map f = Cmd.back^[k] (c.map f) := by
  induction k generalizing c with
  | zero => rfl
  | succ k ih => exact ih c.back

theorem Cmd.All.backs {σ : Type} {P : σ → Prop} {c : Cmd σ} (h : c.All P) (k : Nat) : (Cmd.back^[k] c).All P := by
  induction k generalizing c with
  | zero => exact h
  | succ k ih => exact ih (c := c.back) h

end Back

section Commands

variable {s : Input}

theorem run_parseline : run (parseline s) = run (parsepipe s) >>= fun p =>
    if starts (chars ";") (tokens (parseback p.1 p.2).rest) then
      run (parseline (gettoken (parseback p.1 p.2).rest).rest) >>= fun r => .ok (.list (parseback p.1 p.2).cmd r.1, r.2)
    else .ok ((parseback p.1 p.2).cmd, skip (parseback p.1 p.2).rest) := by
  rw [parseline]
  refine run_bind fun p => ?_
  dsimp only
  rw [← peek_starts (by decide)]
  split
  · rw [← gettoken_peek ((parseback p.cmd p.rest).rest) (chars ";")]
    exact run_bind fun r => rfl
  · rfl

theorem run_parsepipe : run (parsepipe s) = run (parseexec s) >>= fun p =>
    if starts (chars "|") (tokens p.2) then
      run (parsepipe (gettoken p.2).rest) >>= fun r => .ok (.pipe p.1 r.1, r.2)
    else .ok (p.1, skip p.2) := by
  rw [parsepipe]
  refine run_bind fun p => ?_
  dsimp only
  rw [← peek_starts (by decide)]
  split
  · rw [← gettoken_peek p.rest (chars "|")]
    exact run_bind fun r => rfl
  · rfl

/-- `parseexec`, with `parseblock` in its place. -/
theorem run_parseexec : run (parseexec s) =
    if starts (chars "(") (tokens s) then
      run (parseline (gettoken s).rest) >>= fun p =>
        if starts (chars ")") (tokens p.2) then run (parseredirs p.1 (gettoken p.2).rest)
        else .error "syntax - missing )"
    else run (parseredirs (.exec []) (skip s)) >>= fun p => run (parseargs p.1 0 p.2) := by
  rw [parseexec, ← peek_starts (by decide)]
  split
  · rename_i more
    refine (run_weaken _).trans ?_
    have again : (peek (peek s (chars "(")).2 (chars "(")).1 = true := by
      rw [peek_starts (by decide), tokens_peek, ← peek_starts (by decide)]
      exact more
    rw [parseblock, dif_pos again, ← gettoken_peek s (chars "("),
      ← gettoken_peek ((peek s (chars "(")).2) (chars "(")]
    refine run_bind fun p => ?_
    dsimp only
    rw [← peek_starts (by decide)]
    split
    · rw [← gettoken_peek p.rest (chars ")")]
      exact run_weaken _
    · rfl
  · exact run_bind fun p => run_weaken _

/-- `u` is left, and the tokens before it derive the command. -/
structure Reads (nt : Nonterminal) (s : Input) (c : Cmd Span) (u : Input) : Prop where
  derives : ∃ ts, tokens s = ts ++ tokens u ∧ Derives nt ts (c.map Span.text)
  good : ∀ line, s <:+ line → c.All (Good line)

def Sound (nt : Nonterminal) (s : Input) (r : Except String (Parsed s)) : Prop :=
  ∀ c u, run r = .ok (c, u) → Reads nt s c u

theorem parseexec_sound (line : ∀ t : Input, t.length < s.length → Sound .line t (parseline t)) :
    Sound .cmd s (parseexec s) := by
  intro c u h
  rw [run_parseexec] at h
  split at h
  · rename_i opens
    obtain ⟨us, first⟩ := (starts_one (c := ch '(') (by decide)).mp opens
    obtain ⟨some, -, rest⟩ := gettoken_of_cons first
    obtain ⟨⟨c', u'⟩, inner, h⟩ := bind_ok_iff.mp h
    obtain ⟨⟨ts, split, tree⟩, good⟩ := line _ (gettoken_lt some) c' u' inner
    dsimp only at h
    split at h
    · rename_i closes
      obtain ⟨us', first'⟩ := (starts_one (c := ch ')') (by decide)).mp closes
      obtain ⟨-, -, rest'⟩ := gettoken_of_cons first'
      obtain ⟨⟨rs, split', tree'⟩, good'⟩ := parseredirs_sound h
      refine ⟨⟨.sym (ch '(') :: ts ++ .sym (ch ')') :: rs.flatMap Redir.toks, ?_, ?_⟩, fun whole inside => ?_⟩
      · rw [first, ← rest, split, first', ← rest', split']
        simp
      · rw [tree']
        exact .block tree rs
      · have after := ((run_suffix inner).trans (gettoken_suffix s)).trans inside
        exact good' whole ((gettoken_suffix u').trans after) (good whole ((gettoken_suffix s).trans inside))
    · cases h
  · obtain ⟨⟨c', u'⟩, redirs, args⟩ := bind_ok_iff.mp h
    obtain ⟨⟨rs, split, tree⟩, good⟩ := parseredirs_sound redirs
    obtain ⟨⟨as, split', few, tree'⟩, good'⟩ := parseargs_sound args (by decide)
    refine ⟨⟨rs.flatMap Redir.toks ++ as.flatMap Arg.toks, ?_, ?_⟩, fun whole inside => ?_⟩
    · rw [← tokens_skip, split, split', List.append_assoc]
    · rw [tree', tree]
      refine (foldl_add rs [] as) ▸ ?_
      exact .simple rs as (by omega)
    · have inside' := (skip_suffix s).trans inside
      exact good' whole ((run_suffix redirs).trans inside') (good whole inside' nofun)

theorem parsepipe_sound (exec : Sound .cmd s (parseexec s))
    (pipe : ∀ t : Input, t.length < s.length → Sound .pipe t (parsepipe t)) : Sound .pipe s (parsepipe s) := by
  intro c u h
  rw [run_parsepipe] at h
  obtain ⟨⟨c', u'⟩, first, h⟩ := bind_ok_iff.mp h
  obtain ⟨⟨ts, split, tree⟩, good⟩ := exec c' u' first
  dsimp only at h
  split at h
  · rename_i bar
    obtain ⟨us, head⟩ := (starts_one (c := ch '|') (by decide)).mp bar
    obtain ⟨some, -, rest⟩ := gettoken_of_cons head
    obtain ⟨⟨c'', u''⟩, second, same⟩ := bind_ok_iff.mp h
    cases same
    have less := lt_of_lt_of_le (gettoken_lt some) (run_suffix first).length_le
    obtain ⟨⟨ts', split', tree'⟩, good'⟩ := pipe _ less c'' u'' second
    refine ⟨⟨_, ?_, .pipe tree tree'⟩, fun whole inside => ?_⟩
    · rw [split, head, ← rest, split', List.append_assoc, List.cons_append]
    · exact ⟨good whole inside, good' whole ((gettoken_suffix u').trans ((run_suffix first).trans inside))⟩
  · cases h
    exact ⟨⟨ts, by rw [tokens_skip]; exact split, .one tree⟩, good⟩

theorem parseline_sound (pipe : Sound .pipe s (parsepipe s))
    (line : ∀ t : Input, t.length < s.length → Sound .line t (parseline t)) : Sound .line s (parseline s) := by
  intro c u h
  rw [run_parseline] at h
  obtain ⟨⟨c', u'⟩, first, h⟩ := bind_ok_iff.mp h
  obtain ⟨⟨ts, split, tree⟩, good⟩ := pipe c' u' first
  obtain ⟨k, backs, back⟩ := parseback_sound (s := u') c'
  have inside' : (parseback c' u').rest <:+ s := (parseback c' u').suffix.trans (run_suffix first)
  dsimp only at h
  split at h
  · rename_i semi
    obtain ⟨us, head⟩ := (starts_one (c := ch ';') (by decide)).mp semi
    obtain ⟨some, -, rest⟩ := gettoken_of_cons head
    obtain ⟨⟨c'', u''⟩, second, same⟩ := bind_ok_iff.mp h
    cases same
    have less := lt_of_lt_of_le (gettoken_lt some) inside'.length_le
    obtain ⟨⟨ts', split', tree'⟩, good'⟩ := line _ less c'' u'' second
    refine ⟨⟨ts ++ List.replicate k (.sym (ch '&')) ++ .sym (ch ';') :: ts', ?_, ?_⟩, fun whole inside => ?_⟩
    · rw [split, backs, head, ← rest, split']
      simp
    · rw [Cmd.map, back, map_back]
      exact .seq tree k tree'
    · rw [back]
      exact ⟨(good whole inside).backs k, good' whole ((gettoken_suffix _).trans (inside'.trans inside))⟩
  · cases h
    refine ⟨⟨ts ++ List.replicate k (.sym (ch '&')), ?_, ?_⟩, fun whole inside => ?_⟩
    · rw [split, backs, tokens_skip, List.append_assoc]
    · rw [back, map_back]
      exact .line tree k
    · rw [back]
      exact (good whole inside).backs k

theorem parse_sound : Sound .cmd s (parseexec s) ∧ Sound .pipe s (parsepipe s) ∧ Sound .line s (parseline s) := by
  induction hk : s.length using Nat.strong_induction_on generalizing s with
  | _ k ih =>
    subst hk
    have exec := parseexec_sound fun t less => (ih _ less rfl).2.2
    have pipe := parsepipe_sound exec fun t less => (ih _ less rfl).2.1
    exact ⟨exec, pipe, parseline_sound pipe fun t less => (ih _ less rfl).2.2⟩

end Commands

/-! ## Completeness -/

/-- What may stand behind a nonterminal. -/
def Nonterminal.follow : Nonterminal → List UInt8
  | .line => chars ")"
  | .pipe => chars ")&;"
  | .cmd => chars "|)&;"

def parse (nt : Nonterminal) (s : Input) : Except String (Parsed s) :=
  match nt with
  | .line => parseline s
  | .pipe => parsepipe s
  | .cmd => parseexec s

def Follows (nt : Nonterminal) (us : List Tok) : Prop := us = [] ∨ starts nt.follow us = true

theorem starts_mono {toks toks' : List UInt8} (sub : toks ⊆ toks') {us : List Tok} (h : starts toks us = true) :
    starts toks' us = true := by
  cases us with
  | nil => cases h
  | cons t us =>
    cases t with
    | sym c => simpa [starts, Tok.isIn] using sub (by simpa [starts, Tok.isIn] using h)
    | app => simpa [starts, Tok.isIn] using sub (by simpa [starts, Tok.isIn] using h)
    | word w => cases h

theorem Follows.not_starts {nt : Nonterminal} {us : List Tok} (h : Follows nt us) (toks : List UInt8)
    (distinct : (toks.all fun c => c ∉ nt.follow) = true) : starts toks us = false := by
  have apart (c : UInt8) (mem : c ∈ toks) : c ∉ nt.follow := of_decide_eq_true (List.all_eq_true.1 distinct c mem)
  rcases h with rfl | h
  · rfl
  · cases us with
    | nil => rfl
    | cons t us =>
      cases t with
      | sym c =>
        have inside : c ∈ nt.follow := by simpa [starts, Tok.isIn] using h
        simpa [starts, Tok.isIn] using fun mem => apart c mem inside
      | app =>
        have inside : ch '>' ∈ nt.follow := by simpa [starts, Tok.isIn] using h
        simpa [starts, Tok.isIn] using fun mem => apart _ mem inside
      | word w => rfl

theorem Follows.mono {nt nt' : Nonterminal} (sub : (nt.follow.all fun c => c ∈ nt'.follow) = true) {us : List Tok}
    (h : Follows nt us) : Follows nt' us := by
  rcases h with none | h
  · exact Or.inl none
  · exact Or.inr (starts_mono (fun c mem => of_decide_eq_true (List.all_eq_true.1 sub c mem)) h)

theorem follows_backs (k : Nat) {us : List Tok} (h : Follows .pipe us) :
    Follows .pipe (List.replicate k (.sym (ch '&')) ++ us) := by
  cases k with
  | zero => exact h
  | succ k => exact Or.inr rfl

/-- The parser finds every derivation. -/
theorem parse_complete {nt : Nonterminal} {ts : List Tok} {c : Cmd Word} (d : Derives nt ts c) {s : Input} {us : List Tok}
    (h : tokens s = ts ++ us) (follows : Follows nt us) :
    ∃ c' u, run (parse nt s) = .ok (c', u) ∧ tokens u = us ∧ c'.map Span.text = c := by
  induction d generalizing s us with
  | line first k ih =>
    rw [List.append_assoc] at h
    obtain ⟨c', u, parsed, left, tree⟩ := ih h (follows_backs k (follows.mono (by decide)))
    obtain ⟨left', back⟩ := parseback_complete c' left (follows.not_starts _ (by decide))
    refine ⟨(parseback c' u).cmd, skip (parseback c' u).rest, ?_, ?_, ?_⟩
    · refine (run_parseline (s := s)).trans (bind_ok_iff.mpr ⟨(c', u), parsed, if_neg ?_⟩)
      rw [left', follows.not_starts _ (by decide)]
      exact Bool.false_ne_true
    · rw [tokens_skip, left']
    · rw [back, map_back, tree]
  | @seq ts us' c d first k second ih ih' =>
    rw [List.append_assoc, List.append_assoc, List.cons_append] at h
    obtain ⟨c', u, parsed, left, tree⟩ := ih h (follows_backs k (Or.inr rfl))
    obtain ⟨left', back⟩ := parseback_complete c' left rfl
    obtain ⟨-, -, rest⟩ := gettoken_of_cons left'
    obtain ⟨d', v, parsed', left'', tree'⟩ := ih' rest follows
    refine ⟨.list (parseback c' u).cmd d', v, ?_, left'', ?_⟩
    · refine (run_parseline (s := s)).trans (bind_ok_iff.mpr ⟨(c', u), parsed, (if_pos ?_).trans ?_⟩)
      · rw [left']
        rfl
      · exact bind_ok_iff.mpr ⟨(d', v), parsed', rfl⟩
    · rw [Cmd.map, back, map_back, tree, tree']
  | one only ih =>
    obtain ⟨c', u, parsed, left, tree⟩ := ih h (follows.mono (by decide))
    refine ⟨c', skip u, ?_, by rw [tokens_skip, left], tree⟩
    refine (run_parsepipe (s := s)).trans (bind_ok_iff.mpr ⟨(c', u), parsed, if_neg ?_⟩)
    rw [left, follows.not_starts _ (by decide)]
    exact Bool.false_ne_true
  | pipe first second ih ih' =>
    rw [List.append_assoc, List.cons_append] at h
    obtain ⟨c', u, parsed, left, tree⟩ := ih h (Or.inr rfl)
    obtain ⟨-, -, rest⟩ := gettoken_of_cons left
    obtain ⟨d', v, parsed', left', tree'⟩ := ih' rest follows
    refine ⟨.pipe c' d', v, ?_, left', ?_⟩
    · refine (run_parsepipe (s := s)).trans (bind_ok_iff.mpr ⟨(c', u), parsed, (if_pos ?_).trans ?_⟩)
      · rw [left]
        rfl
      · exact bind_ok_iff.mpr ⟨(d', v), parsed', rfl⟩
    · rw [Cmd.map, tree, tree']
  | @block ts c inner rs ih =>
    have first : tokens s = .sym (ch '(') :: (ts ++ .sym (ch ')') :: (rs.flatMap Redir.toks ++ us)) := by
      rw [h]
      simp
    obtain ⟨-, -, rest⟩ := gettoken_of_cons first
    obtain ⟨c', u, parsed, left, tree⟩ := ih rest (Or.inr rfl)
    obtain ⟨-, -, rest'⟩ := gettoken_of_cons left
    obtain ⟨d, v, redirs, left', tree'⟩ := parseredirs_complete c' rest' (follows.not_starts _ (by decide))
    refine ⟨d, v, ?_, left', by rw [tree', tree]⟩
    refine (run_parseexec (s := s)).trans ((if_pos ?_).trans ?_)
    · rw [first]
      rfl
    · refine bind_ok_iff.mpr ⟨(c', u), parsed, (if_pos ?_).trans redirs⟩
      rw [left]
      rfl
  | simple rs args few =>
    rw [List.append_assoc, ← tokens_skip] at h
    have stop := follows.not_starts (chars "<>") (by decide)
    obtain ⟨c', u, redirs, left, tree⟩ := parseredirs_complete (.exec []) h (starts_args stop)
    obtain ⟨d, v, parsed, left', tree'⟩ := parseargs_complete c' 0 left (by omega) stop follows
    refine ⟨d, v, ?_, left', ?_⟩
    · refine (run_parseexec (s := s)).trans ((if_neg ?_).trans ?_)
      · rw [← tokens_skip, h, starts_simple (follows.not_starts _ (by decide))]
        exact Bool.false_ne_true
      · exact bind_ok_iff.mpr ⟨(c', u), redirs, parsed⟩
    · rw [tree', tree]
      exact foldl_add rs [] args

end Xv6.Shell
