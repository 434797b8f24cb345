import Xv6.Shell.Parser

/-!
# The grammar of command lines

    line  ::= pipe '&'* [';' line]
    pipe  ::= cmd ['|' pipe]
    cmd   ::= '(' line ')' redir* | redir* (word redir*)*
    redir ::= ('<' | '>' | '>>') word

with the tree that each derivation stands for.
-/

namespace Xv6.Shell

abbrev Word : Type := List UInt8

inductive Op where
  | lt
  | gt
  | app

def Op.tok : Op → Tok
  | .lt => .sym (ch '<')
  | .gt => .sym (ch '>')
  | .app => .app

structure Redir where
  op : Op
  file : Word

def Redir.toks (r : Redir) : List Tok := [r.op.tok, .word r.file]

/-- A command with a redirection. -/
def Redir.wrap (c : Cmd Word) (r : Redir) : Cmd Word :=
  match r.op with
  | .lt => .redir c r.file O_RDONLY 0
  | .gt => .redir c r.file (O_WRONLY ||| O_CREATE ||| O_TRUNC) 1
  | .app => .redir c r.file (O_WRONLY ||| O_CREATE) 1

/-- A word of a simple command, with the redirections behind it. -/
structure Arg where
  word : Word
  redirs : List Redir

def Arg.toks (a : Arg) : List Tok := .word a.word :: a.redirs.flatMap Redir.toks

inductive Nonterminal where
  | line
  | pipe
  | cmd

inductive Derives : Nonterminal → List Tok → Cmd Word → Prop where
  | line {ts : List Tok} {c : Cmd Word} (first : Derives .pipe ts c) (k : Nat) :
      Derives .line (ts ++ List.replicate k (.sym (ch '&'))) (Cmd.back^[k] c)
  | seq {ts us : List Tok} {c d : Cmd Word} (first : Derives .pipe ts c) (k : Nat) (second : Derives .line us d) :
      Derives .line (ts ++ List.replicate k (.sym (ch '&')) ++ .sym (ch ';') :: us) (.list (Cmd.back^[k] c) d)
  | one {ts : List Tok} {c : Cmd Word} (only : Derives .cmd ts c) : Derives .pipe ts c
  | pipe {ts us : List Tok} {c d : Cmd Word} (first : Derives .cmd ts c) (second : Derives .pipe us d) :
      Derives .pipe (ts ++ .sym (ch '|') :: us) (.pipe c d)
  | block {ts : List Tok} {c : Cmd Word} (inner : Derives .line ts c) (rs : List Redir) :
      Derives .cmd (.sym (ch '(') :: ts ++ .sym (ch ')') :: rs.flatMap Redir.toks) (rs.foldl Redir.wrap c)
  | simple (rs : List Redir) (args : List Arg) (few : args.length < MAXARGS) :
      Derives .cmd (rs.flatMap Redir.toks ++ args.flatMap Arg.toks)
        ((rs ++ args.flatMap Arg.redirs).foldl Redir.wrap (.exec (args.map Arg.word)))

/-! ## Strings of a tree -/

def Span.text (a : Span) : Word := Shell.text a.q a.eq

def Cmd.map {σ τ : Type} (f : σ → τ) : Cmd σ → Cmd τ
  | .exec argv => .exec (argv.map f)
  | .redir cmd file mode fd => .redir (cmd.map f) (f file) mode fd
  | .pipe left right => .pipe (left.map f) (right.map f)
  | .list left right => .list (left.map f) (right.map f)
  | .back cmd => .back (cmd.map f)

/-- All strings of a tree. -/
def Cmd.All {σ : Type} (P : σ → Prop) : Cmd σ → Prop
  | .exec argv => ∀ a ∈ argv, P a
  | .redir cmd file _ _ => cmd.All P ∧ P file
  | .pipe left right => left.All P ∧ right.All P
  | .list left right => left.All P ∧ right.All P
  | .back cmd => cmd.All P

section Trees

variable {σ τ : Type} {f g : σ → τ} {P Q : σ → Prop} {c : Cmd σ} {a : σ}

theorem Cmd.map_congr (h : c.All fun a => f a = g a) : c.map f = c.map g := by
  induction c with
  | exec argv => rw [map, map, List.map_congr_left h]
  | redir cmd file mode fd ih => rw [map, map, ih h.1, h.2]
  | pipe left right ihl ihr => rw [map, map, ihl h.1, ihr h.2]
  | list left right ihl ihr => rw [map, map, ihl h.1, ihr h.2]
  | back cmd ih => rw [map, map, ih h]

theorem Cmd.All.mono (h : c.All P) (weaker : ∀ a, P a → Q a) : c.All Q := by
  induction c with
  | exec argv => exact fun a ha => weaker a (h a ha)
  | redir cmd file mode fd ih => exact ⟨ih h.1, weaker file h.2⟩
  | pipe left right ihl ihr => exact ⟨ihl h.1, ihr h.2⟩
  | list left right ihl ihr => exact ⟨ihl h.1, ihr h.2⟩
  | back cmd ih => exact ih h

theorem Cmd.All.and (h : c.All P) (h' : c.All Q) : c.All fun a => P a ∧ Q a := by
  induction c with
  | exec argv => exact fun a ha => ⟨h a ha, h' a ha⟩
  | redir cmd file mode fd ih => exact ⟨ih h.1 h'.1, h.2, h'.2⟩
  | pipe left right ihl ihr => exact ⟨ihl h.1 h'.1, ihr h.2 h'.2⟩
  | list left right ihl ihr => exact ⟨ihl h.1 h'.1, ihr h.2 h'.2⟩
  | back cmd ih => exact ih h h'

theorem Cmd.map_pushArg : (c.pushArg a).map f = (c.map f).pushArg (f a) := by
  induction c with
  | exec argv => simp [pushArg, map]
  | redir cmd file mode fd ih => rw [pushArg, map, map, pushArg, ih]
  | pipe | list | back => rfl

theorem Cmd.All.pushArg (h : c.All P) (ha : P a) : (c.pushArg a).All P := by
  induction c with
  | exec argv =>
    intro b hb
    rcases List.mem_append.mp hb with old | new
    · exact h b old
    · rwa [List.mem_singleton.mp new]
  | redir cmd file mode fd ih => exact ⟨ih h.1, h.2⟩
  | pipe | list | back => exact h

theorem map_redirect {tok : UInt8} : (redirect tok c a).map f = redirect tok (c.map f) (f a) := by
  simp only [redirect]
  split_ifs <;> rfl

theorem Cmd.All.redirect {tok : UInt8} (h : c.All P) (ha : P a) : (redirect tok c a).All P := by
  simp only [Shell.redirect]
  split_ifs <;> first | exact ⟨h, ha⟩ | exact h

end Trees

/-! ## Building the tree of a simple command -/

theorem pushArg_wrap (c : Cmd Word) (r : Redir) (w : Word) : (r.wrap c).pushArg w = r.wrap (c.pushArg w) := by
  obtain ⟨op, file⟩ := r
  cases op <;> rfl

theorem pushArg_wraps (rs : List Redir) (c : Cmd Word) (w : Word) :
    (rs.foldl Redir.wrap c).pushArg w = rs.foldl Redir.wrap (c.pushArg w) := by
  induction rs generalizing c with
  | nil => rfl
  | cons r rs ih => rw [List.foldl_cons, List.foldl_cons, ih, pushArg_wrap]

/-- A command after one more word and the redirections behind it. -/
def Arg.add (c : Cmd Word) (a : Arg) : Cmd Word := a.redirs.foldl Redir.wrap (c.pushArg a.word)

theorem foldl_add (rs : List Redir) (words : List Word) (args : List Arg) :
    args.foldl Arg.add (rs.foldl Redir.wrap (.exec words)) =
      (rs ++ args.flatMap Arg.redirs).foldl Redir.wrap (.exec (words ++ args.map Arg.word)) := by
  induction args generalizing rs words with
  | nil => simp
  | cons a args ih =>
    have first : Arg.add (rs.foldl Redir.wrap (.exec words)) a =
        (rs ++ a.redirs).foldl Redir.wrap (.exec (words ++ [a.word])) := by
      rw [Arg.add, pushArg_wraps, List.foldl_append]
      rfl
    rw [List.foldl_cons, first, ih, List.flatMap_cons, List.map_cons, List.append_assoc, List.append_assoc]
    rfl

end Xv6.Shell
