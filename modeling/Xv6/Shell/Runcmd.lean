import Mathlib
import Xv6.Shell.Parser

/-!
# Running a command tree (`runcmd` of `user/sh.c`)

Every process of a command is in the `runcmd` of one node of the tree. `body` is that function,
statement by statement, and a process has the statements before it that are still to come. No call fails:
a process whose next call would fail takes no step. Descriptors are allocated as `fdalloc` does.

A program that was executed may do what it likes with its descriptors, but gets hold of open files
only by opening them or from its parent.
-/

namespace Xv6.Shell

variable {σ : Type}

/-- Which part of a command a subcommand is. -/
inductive Turn where
  /-- `rcmd->cmd` -/
  | redir
  /-- `lcmd->left` -/
  | first
  /-- `lcmd->right` -/
  | second
  /-- `pcmd->left` -/
  | left
  /-- `pcmd->right` -/
  | right
  /-- `bcmd->cmd` -/
  | back
deriving DecidableEq

/-- A node of the tree: the way from it up to the root. -/
abbrev Path : Type := List Turn

/-- A node, and the line of `sh.c` that its `runcmd` is at. -/
abbrev Label : Type := Path × Nat

/-! ## Descriptors -/

/-- An open file, with the node that opened it. -/
inductive Obj (σ : Type) where
  /-- open when the root was run -/
  | given (fd : Nat)
  | file (node : Path) (name : σ) (mode : Nat)
  | readEnd (node : Path)
  | writeEnd (node : Path)
  /-- opened by a program -/
  | foreign (n : Nat)

/-- `p->ofile` -/
abbrev Fds (σ : Type) : Type := List (Option (Obj σ))

abbrev NOFILE : Nat := 16

/-- The table with `f` at the lowest free descriptor, and this descriptor. -/
def fdalloc (fds : Fds σ) (f : Obj σ) : Option (Fds σ × Nat) :=
  (fds.findIdx? Option.isNone).map fun fd => (fds.set fd (some f), fd)

/-- A descriptor in an argument: a number, `p[0]` or `p[1]`. -/
inductive Fd where
  | lit (fd : Nat)
  | p0
  | p1

def Fd.val (p : Nat × Nat) : Fd → Nat
  | .lit fd => fd
  | .p0 => p.1
  | .p1 => p.2

/-! ## Statements -/

/-- What a child does that `fork1` starts. -/
inductive Branch (σ : Type) where
  /-- `runcmd(cmd)` -/
  | run (turn : Turn) (cmd : Cmd σ)
  /-- lines 105 to 109 -/
  | left (cmd : Cmd σ)
  /-- lines 112 to 116 -/
  | right (cmd : Cmd σ)

inductive Act (σ : Type) where
  | run (node : Path) (cmd : Cmd σ)
  | exec (argv : List σ)
  | close (fd : Fd)
  | «open» (file : σ) (mode : Nat)
  | pipe
  | dup (fd : Fd)
  | fork (child : Branch σ)
  | wait
  | exit

structure Stmt (σ : Type) where
  label : Label
  act : Act σ

/-- A call of `runcmd`, which never returns. -/
def call (node : Path) (cmd : Cmd σ) : Stmt σ := ⟨(node, 58), .run node cmd⟩

def Branch.code (node : Path) : Branch σ → List (Stmt σ)
  | .run turn cmd => [call (turn :: node) cmd]
  | .left cmd =>
    [⟨(node, 105), .close (.lit 1)⟩, ⟨(node, 106), .dup .p1⟩, ⟨(node, 107), .close .p0⟩,
      ⟨(node, 108), .close .p1⟩, call (.left :: node) cmd]
  | .right cmd =>
    [⟨(node, 112), .close (.lit 0)⟩, ⟨(node, 113), .dup .p0⟩, ⟨(node, 114), .close .p0⟩,
      ⟨(node, 115), .close .p1⟩, call (.right :: node) cmd]

/-- The statements of `runcmd(cmd)`. -/
def body (node : Path) : Cmd σ → List (Stmt σ)
  | .exec argv => if argv = [] then [⟨(node, 77), .exit⟩] else [⟨(node, 78), .exec argv⟩]
  | .redir cmd file mode fd =>
    [⟨(node, 84), .close (.lit fd)⟩, ⟨(node, 85), .open file mode⟩, call (.redir :: node) cmd]
  | .list left right =>
    [⟨(node, 94), .fork (.run .first left)⟩, ⟨(node, 96), .wait⟩, call (.second :: node) right]
  | .pipe left right =>
    [⟨(node, 102), .pipe⟩, ⟨(node, 104), .fork (.left left)⟩, ⟨(node, 111), .fork (.right right)⟩,
      ⟨(node, 118), .close .p0⟩, ⟨(node, 119), .close .p1⟩, ⟨(node, 120), .wait⟩, ⟨(node, 121), .wait⟩,
      ⟨(node, 130), .exit⟩]
  | .back cmd => [⟨(node, 126), .fork (.run .back cmd)⟩, ⟨(node, 130), .exit⟩]

/-! ## Processes -/

inductive Mode where
  | shell
  | program
  | zombie
deriving DecidableEq

/-- `node` is where the process is in the tree, and where it was when it executed a program. -/
structure Proc (σ : Type) where
  pid : Nat
  parent : Nat
  node : Path
  mode : Mode
  code : List (Stmt σ)
  /-- `int p[2]` -/
  p : Nat × Nat
  fds : Fds σ

/-- The next statement of a process, if it concerns this process alone. -/
def Proc.next (q : Proc σ) : Option (Proc σ) :=
  match q.code with
  | [] => none
  | ⟨label, act⟩ :: code =>
    match act with
    | .run node cmd => some { q with node := node, code := body node cmd }
    | .exec _ => some { q with mode := .program, code := [] }
    | .close fd =>
      match q.fds[fd.val q.p]? with
      | some (some _) => some { q with code := code, fds := q.fds.set (fd.val q.p) none }
      | _ => none
    | .open file mode =>
      (fdalloc q.fds (.file label.1 file mode)).map fun r => { q with code := code, fds := r.1 }
    | .pipe =>
      (fdalloc q.fds (.readEnd label.1)).bind fun a =>
        (fdalloc a.1 (.writeEnd label.1)).map fun b => { q with code := code, p := (a.2, b.2), fds := b.1 }
    | .dup fd =>
      match q.fds[fd.val q.p]? with
      | some (some f) => (fdalloc q.fds f).map fun r => { q with code := code, fds := r.1 }
      | _ => none
    | .fork _ | .wait | .exit => none

/-- `done` are the statements that have been executed. -/
structure Run (σ : Type) where
  procs : Multiset (Proc σ)
  nextpid : Nat
  done : Multiset Label

/-- The pid of `init`. -/
abbrev INIT : Nat := 1

/-- The children of an exiting process are given to `init`. -/
def reparent (pid : Nat) (q : Proc σ) : Proc σ := if q.parent = pid then { q with parent := INIT } else q

/-- `exit` closes all files. -/
def Proc.exited (q : Proc σ) : Proc σ := { q with mode := .zombie, code := [], fds := [] }

/-- The child that `fork` makes. -/
def Proc.child (q : Proc σ) (pid : Nat) (code : List (Stmt σ)) : Proc σ :=
  { q with pid := pid, parent := q.pid, code := code }

inductive Step : Run σ → Run σ → Prop where
  | next {rest : Multiset (Proc σ)} {n : Nat} {done : Multiset Label} {q q' : Proc σ} {s : Stmt σ}
      {code : List (Stmt σ)} (shell : q.mode = .shell) (head : q.code = s :: code) (next : q.next = some q') :
      Step ⟨q ::ₘ rest, n, done⟩ ⟨q' ::ₘ rest, n, s.label ::ₘ done⟩
  | fork {rest : Multiset (Proc σ)} {n : Nat} {done : Multiset Label} {q : Proc σ} {label : Label}
      {child : Branch σ} {code : List (Stmt σ)} (shell : q.mode = .shell)
      (head : q.code = ⟨label, .fork child⟩ :: code) :
      Step ⟨q ::ₘ rest, n, done⟩
        ⟨q.child n (child.code label.1) ::ₘ { q with code := code } ::ₘ rest, n + 1, label ::ₘ done⟩
  | wait {rest : Multiset (Proc σ)} {n : Nat} {done : Multiset Label} {q z : Proc σ} {label : Label}
      {code : List (Stmt σ)} (shell : q.mode = .shell) (head : q.code = ⟨label, .wait⟩ :: code)
      (zombie : z.mode = .zombie) (child : z.parent = q.pid) :
      Step ⟨q ::ₘ z ::ₘ rest, n, done⟩ ⟨{ q with code := code } ::ₘ rest, n, label ::ₘ done⟩
  | exit {rest : Multiset (Proc σ)} {n : Nat} {done : Multiset Label} {q : Proc σ} {label : Label}
      {code : List (Stmt σ)} (shell : q.mode = .shell) (head : q.code = ⟨label, .exit⟩ :: code) :
      Step ⟨q ::ₘ rest, n, done⟩ ⟨q.exited ::ₘ rest.map (reparent q.pid), n, label ::ₘ done⟩
  | program {rest : Multiset (Proc σ)} {n : Nat} {done : Multiset Label} {q : Proc σ} {fds : Fds σ}
      (program : q.mode = .program) (own : ∀ f, some f ∈ fds → some f ∈ q.fds ∨ ∃ k, f = .foreign k) :
      Step ⟨q ::ₘ rest, n, done⟩ ⟨{ q with fds := fds } ::ₘ rest, n, done⟩
  | programFork {rest : Multiset (Proc σ)} {n : Nat} {done : Multiset Label} {q : Proc σ}
      (program : q.mode = .program) :
      Step ⟨q ::ₘ rest, n, done⟩ ⟨q.child n q.code ::ₘ q ::ₘ rest, n + 1, done⟩
  /-- A zombie is taken by `init` or by a program that waits. -/
  | reap {rest : Multiset (Proc σ)} {n : Nat} {done : Multiset Label} {z : Proc σ} (zombie : z.mode = .zombie)
      (parent : z.parent = INIT ∨ ∃ q ∈ rest, q.mode = .program ∧ z.parent = q.pid) :
      Step ⟨z ::ₘ rest, n, done⟩ ⟨rest, n, done⟩
  | programExit {rest : Multiset (Proc σ)} {n : Nat} {done : Multiset Label} {q : Proc σ}
      (program : q.mode = .program) :
      Step ⟨q ::ₘ rest, n, done⟩ ⟨q.exited ::ₘ rest.map (reparent q.pid), n, done⟩

/-- Exactly the descriptors 0, 1 and 2. -/
def table (e : Nat → Obj σ) : Fds σ := [some (e 0), some (e 1), some (e 2)] ++ List.replicate (NOFILE - 3) none

/-- A process with the descriptors 0, 1 and 2 is about to run the tree. -/
def Run.start (pid parent nextpid : Nat) (tree : Cmd σ) : Run σ where
  procs := {⟨pid, parent, [], .shell, [call [] tree], (0, 0), table .given⟩}
  nextpid := nextpid
  done := 0

abbrev Reaches : Run σ → Run σ → Prop := Relation.ReflTransGen Step

end Xv6.Shell
