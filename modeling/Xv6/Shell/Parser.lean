import Xv6.Shell.Lexer

/-!
# The parser of `user/sh.c`

`panic` is an error with its message. The parse functions return how much of the line is left, a
suffix of what they were given; `malloc` does not fail and the stack is large enough.
-/

namespace Xv6.Shell

abbrev MAXARGS : Nat := 10

abbrev O_RDONLY : Nat := 0x000
abbrev O_WRONLY : Nat := 0x001
abbrev O_CREATE : Nat := 0x200
abbrev O_TRUNC : Nat := 0x400

/-- `struct cmd`, over the representation of strings. -/
inductive Cmd (σ : Type) where
  | exec (argv : List σ)
  | redir (cmd : Cmd σ) (file : σ) (mode : Nat) (fd : Nat)
  | pipe (left right : Cmd σ)
  | list (left right : Cmd σ)
  | back (cmd : Cmd σ)
deriving DecidableEq

/-- A string that is not terminated yet: `q` and `eq`. -/
structure Span where
  q : Input
  eq : Input
deriving DecidableEq

def Token.span (t : Token) : Span := ⟨t.q, t.eq⟩

/-- What a parse function makes of `s`. -/
structure Parsed (s : Input) where
  cmd : Cmd Span
  rest : Input
  suffix : rest <:+ s

def Parsed.weaken {s t : Input} (p : Parsed t) (h : t <:+ s) : Parsed s := ⟨p.cmd, p.rest, p.suffix.trans h⟩

/-- The `switch` of `parseredirs`. -/
def redirect {σ : Type} (tok : UInt8) (cmd : Cmd σ) (file : σ) : Cmd σ :=
  if tok = ch '<' then .redir cmd file O_RDONLY 0
  else if tok = ch '>' then .redir cmd file (O_WRONLY ||| O_CREATE ||| O_TRUNC) 1
  else if tok = ch '+' then .redir cmd file (O_WRONLY ||| O_CREATE) 1
  else cmd

def parseredirs (cmd : Cmd Span) (s : Input) : Except String (Parsed s) :=
  if _more : (peek s (chars "<>")).1 then
    let tok := gettoken (peek s (chars "<>")).2
    let file := gettoken tok.rest
    if file.ret ≠ ch 'a' then .error "missing file for redirection"
    else do
      let p ← parseredirs (redirect tok.ret cmd file.span) file.rest
      return p.weaken (((gettoken_suffix _).trans (gettoken_suffix _)).trans (peek_suffix _ _))
  else .ok ⟨cmd, (peek s (chars "<>")).2, peek_suffix _ _⟩
termination_by s.length
decreasing_by exact lt_of_le_of_lt (gettoken_suffix _).length_le (peek_gettoken_lt _more)

/-- `cmd->argv[argc] = q`, where `cmd` is the command under the redirections. -/
def Cmd.pushArg {σ : Type} (a : σ) : Cmd σ → Cmd σ
  | .exec argv => .exec (argv ++ [a])
  | .redir cmd file mode fd => .redir (cmd.pushArg a) file mode fd
  | cmd => cmd

/-- The loop of `parseexec`. -/
def parseargs (ret : Cmd Span) (argc : Nat) (s : Input) : Except String (Parsed s) :=
  if (peek s (chars "|)&;")).1 then .ok ⟨ret, (peek s (chars "|)&;")).2, peek_suffix _ _⟩
  else
    let tok := gettoken (peek s (chars "|)&;")).2
    if _none : tok.ret = 0 then .ok ⟨ret, tok.rest, (gettoken_suffix _).trans (peek_suffix _ _)⟩
    else if tok.ret ≠ ch 'a' then .error "syntax"
    else if argc + 1 ≥ MAXARGS then .error "too many args"
    else do
      let p ← parseredirs (ret.pushArg tok.span) tok.rest
      let r ← parseargs p.cmd (argc + 1) p.rest
      return r.weaken ((p.suffix.trans (gettoken_suffix _)).trans (peek_suffix _ _))
termination_by s.length
decreasing_by
  exact lt_of_le_of_lt p.suffix.length_le (lt_of_lt_of_le (gettoken_lt _none) (peek_suffix _ _).length_le)

/-- `while(peek(ps, es, "&"))` -/
def parseback (cmd : Cmd Span) (s : Input) : Parsed s :=
  if _more : (peek s (chars "&")).1 then
    let tok := gettoken (peek s (chars "&")).2
    (parseback (.back cmd) tok.rest).weaken ((gettoken_suffix _).trans (peek_suffix _ _))
  else ⟨cmd, (peek s (chars "&")).2, peek_suffix _ _⟩
termination_by s.length
decreasing_by exact peek_gettoken_lt _more

mutual

def parseline (s : Input) : Except String (Parsed s) := do
  let p ← parsepipe s
  let b := parseback p.cmd p.rest
  if _more : (peek b.rest (chars ";")).1 then
    let tok := gettoken (peek b.rest (chars ";")).2
    let r ← parseline tok.rest
    return ⟨.list b.cmd r.cmd, r.rest,
      (((r.suffix.trans (gettoken_suffix _)).trans (peek_suffix _ _)).trans b.suffix).trans p.suffix⟩
  else
    return ⟨b.cmd, (peek b.rest (chars ";")).2, ((peek_suffix _ _).trans b.suffix).trans p.suffix⟩
termination_by (s.length, 3)
decreasing_by
  · exact Prod.Lex.right _ (by decide)
  · exact Prod.Lex.left _ _ (lt_of_lt_of_le (peek_gettoken_lt _more) (b.suffix.trans p.suffix).length_le)

def parsepipe (s : Input) : Except String (Parsed s) := do
  let p ← parseexec s
  if _more : (peek p.rest (chars "|")).1 then
    let tok := gettoken (peek p.rest (chars "|")).2
    let r ← parsepipe tok.rest
    return ⟨.pipe p.cmd r.cmd, r.rest,
      ((r.suffix.trans (gettoken_suffix _)).trans (peek_suffix _ _)).trans p.suffix⟩
  else
    return ⟨p.cmd, (peek p.rest (chars "|")).2, (peek_suffix _ _).trans p.suffix⟩
termination_by (s.length, 2)
decreasing_by
  · exact Prod.Lex.right _ (by decide)
  · exact Prod.Lex.left _ _ (lt_of_lt_of_le (peek_gettoken_lt _more) p.suffix.length_le)

def parseexec (s : Input) : Except String (Parsed s) :=
  if (peek s (chars "(")).1 then do
    let p ← parseblock (peek s (chars "(")).2
    return p.weaken (peek_suffix _ _)
  else do
    let p ← parseredirs (.exec []) (peek s (chars "(")).2
    let r ← parseargs p.cmd 0 p.rest
    return r.weaken (p.suffix.trans (peek_suffix _ _))
termination_by (s.length, 1)
decreasing_by
  rcases (peek_suffix s (chars "(")).length_le.lt_or_eq with lt | same
  · exact Prod.Lex.left _ _ lt
  · rw [same]
    exact Prod.Lex.right _ (by decide)

def parseblock (s : Input) : Except String (Parsed s) :=
  if _more : (peek s (chars "(")).1 then do
    let tok := gettoken (peek s (chars "(")).2
    let p ← parseline tok.rest
    if (peek p.rest (chars ")")).1 then do
      let tok' := gettoken (peek p.rest (chars ")")).2
      let r ← parseredirs p.cmd tok'.rest
      return r.weaken (((((gettoken_suffix _).trans (peek_suffix _ _)).trans p.suffix).trans (gettoken_suffix _)).trans
        (peek_suffix _ _))
    else .error "syntax - missing )"
  else .error "parseblock"
termination_by (s.length, 0)
decreasing_by exact Prod.Lex.left _ _ (peek_gettoken_lt _more)

end

/-- Where a pointer into a line of length `len` points to. -/
def offset (len : Nat) (p : Input) : Nat := len - p.length

/-- `nulterminate`, on the line with its terminating NUL. -/
def nulterminate (len : Nat) : Cmd Span → List UInt8 → List UInt8
  | .exec argv, buf => argv.foldl (fun buf arg => buf.set (offset len arg.eq) 0) buf
  | .redir cmd file _ _, buf => (nulterminate len cmd buf).set (offset len file.eq) 0
  | .pipe left right, buf => nulterminate len right (nulterminate len left buf)
  | .list left right, buf => nulterminate len right (nulterminate len left buf)
  | .back cmd, buf => nulterminate len cmd buf

/-- The command, and the line when `parsecmd` returns. -/
def parsecmd (s : Input) : Except String (Cmd Span × List UInt8) := do
  let p ← parseline s
  let rest := (peek p.rest []).2
  if rest ≠ [] then .error "syntax"
  else return (p.cmd, nulterminate s.length p.cmd (s ++ [0]))

end Xv6.Shell
