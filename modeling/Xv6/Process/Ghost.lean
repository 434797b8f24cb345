import Mathlib
import Xv6.Process.Model

/-!
# What a kernel thread knows

The ghost state of a thread: the locks it holds and how deep it has turned interrupts off, what it
made of its own `p->state`, which process it looks at under that process's lock, which child it is
making, and what it has found out about parents and children while it holds `wait_lock`.

`pre` is what the code must establish before an action, `tells` what the answer says about the
ghost state, `next` how the ghost state moves.
-/

namespace Xv6.Process

open Interleave

/-- A process's own state: it executes as `RUNNING`; it holds its lock and has chosen the state it
leaves; it has left for good. -/
inductive Own where
  | run
  | set (st : ProcState)
  | gone
deriving DecidableEq

/-- Another process, as read under its lock. -/
structure Seen (n : Nat) where
  slot : Fin n
  state : ProcState
  pid : Int
  xstate : Int

/-- What a process knows while it holds `wait_lock`: some of its children and some processes that
are none, processes that are not about to sleep or asleep in `wait`, processes that are no zombies
waiting for it, and its parent. `owe`: it gave children to init and has not yet woken init up.
`fall`: it released `wait_lock` to sleep in `wait`. -/
structure Fam (n : Nat) where
  kids : Set (Fin n)
  clear : Set (Fin n)
  awake : Set (Fin n)
  calm : Set (Fin n)
  parent : Option (Option (Fin n))
  owe : Prop
  fall : Prop

/-- Nothing is known. -/
def Fam.blank {n : Nat} : Fam n := ⟨∅, ∅, ∅, ∅, none, False, False⟩

/-- `slot` is `c->proc` as the scheduler of a CPU set it, `pick` the process that it has marked
`RUNNING` and not yet switched to. `child` is a process that `fork` has not yet let run, and
whether its context is set; `newpid` its pid. `reaped` are pid and status of the child that `wait`
has freed. `adopted`: `sys_getprocinfo` has found that the process has a parent. -/
structure Gh (n : Nat) (κ : Type) where
  me : Thread n κ
  held : List (Lock n)
  off : Nat
  own : Own
  slot : Option (Fin n)
  pick : Option (Fin n)
  seen : Option (Seen n)
  child : Option (Fin n × Bool)
  newpid : Option Int
  chan : Option (Chan n)
  pc : Label
  reaped : Option (Int × Int)
  fam : Fam n
  adopted : Bool

/-- The ghost state in which a new process is resumed for the first time. -/
def Gh.fresh {n : Nat} {κ : Type} (p : Fin n) : Gh n κ where
  me := .proc p
  held := [.proc p]
  off := 1
  own := .run
  slot := none
  pick := none
  seen := none
  child := none
  newpid := none
  chan := none
  pc := .user
  reaped := none
  fam := .blank
  adopted := false

section Rules

variable {n : Nat} {κ : Type} [DecidableEq κ] (initproc : Fin n)

open Classical in
/-- What reading `p` says about the family of process `q`. -/
noncomputable def Fam.learn (f : Fam n) (q p : Fin n) (x : Proc n) (locked : Prop) : Fam n :=
  { f with
    kids := if x.parent = some q then insert p f.kids else f.kids
    clear := if x.parent = some q then f.clear else insert p f.clear
    calm := if x.parent = some q ∧ ¬ (locked ∧ x.state ≠ .zombie) then f.calm else insert p f.calm
    parent := if p = q then some x.parent else f.parent }

/-- The ghost state after process `p` was read. -/
@[simps] noncomputable def Gh.learn (l : Gh n κ) (p : Fin n) (x : Proc n) : Gh n κ :=
  { l with
    seen := if .proc p ∈ l.held ∧ l.me ≠ .proc p then some ⟨p, x.state, x.pid, x.xstate⟩ else l.seen
    newpid := if l.child.map Prod.fst = some p ∧ l.me ≠ .proc p then some x.pid else l.newpid
    fam := match l.me with
      | .proc q => if .wait ∈ l.held then l.fam.learn q p x (.proc p ∈ l.held) else l.fam
      | .cpu _ => l.fam }

/-- The ghost state after a lock was taken. -/
@[simps] def Gh.locked (l : Gh n κ) (lk : Lock n) : Gh n κ :=
  { l with held := lk :: l.held, fam := if lk = .wait then .blank else l.fam }

/-- The ghost state after a lock was given up. Who releases `wait_lock` with its own lock held, and
none of whose children is a zombie, is about to sleep. -/
@[simps] def Gh.unlocked (l : Gh n κ) (lk : Lock n) : Gh n κ :=
  { l with
    held := l.held.erase lk
    seen := if l.seen.map (fun x => .proc x.slot) = some lk then none else l.seen
    fam := if lk = .wait then
        { Fam.blank with fall := (∀ q, q ∈ l.fam.calm) ∧ ∃ p, l.me = .proc p ∧ .proc p ∈ l.held }
      else l.fam }

/-- Whether the process is known to have a parent after a step of `sys_getprocinfo`. -/
def Info.adopts : (i : Info n) → Bool → i.Ans → Bool
  | .parent, b, q => b || q.isSome
  | .pid, b, _ | .ppid _, b, _ | .told _ _ _, b, _ => b

noncomputable def next : (a : Act n) → Gh n κ → Res a → Gh n κ
  | .pushOff, l, _ => { l with off := l.off + 1 }
  | .popOff, l, _ => { l with off := l.off - 1 }
  | .lock lk, l, _ => l.locked lk
  | .unlock lk, l, _ => l.unlocked lk
  | .setCpuProc p, l, _ => { l with slot := p }
  | .resume _, l, _ => { l with pick := none }
  | .suspend, l, _ => { l with own := if l.own = .set .zombie then .gone else .run
                               fam := { l.fam with fall := False } }
  | .read p, l, x => l.learn p x
  | .setState _ st, l, _ => { l with own := .set st, fam := { l.fam with fall := False } }
  | .setRunning p, l, _ => { l with pick := some p, seen := none }
  | .setRunnable _, l, _ => { l with child := none, seen := none }
  | .setChan _ chan, l, _ => { l with chan := chan }
  | .setParent p _, l, _ =>
    if l.child = none then
      { l with fam := { l.fam with kids := l.fam.kids \ {p}, clear := insert p l.fam.clear
                                   parent := none, owe := True } }
    else { l with fam := { l.fam with clear := l.fam.clear \ {p} } }
  | .wakeOne chan p, l, _ =>
    if chan = some (.proc p) then
      { l with fam := { l.fam with awake := insert p l.fam.awake
                                   owe := l.fam.owe ∧ p ≠ initproc } }
    else l
  | .claim p, l, _ => { l with child := some (p, false), seen := none }
  | .freeproc p, l, _ =>
    { l with
      child := none
      seen := none
      reaped := if l.child = none then l.seen.map fun x => (x.pid, x.xstate) else l.reaped
      fam := { l.fam with kids := l.fam.kids \ {p} } }
  | .setContext p, l, _ => { l with child := some (p, true) }
  | .waited _ _ _, l, _ => { l with reaped := none }
  | .info _ i, l, r => { l with adopted := i.adopts l.adopted r }
  | .goto _ lbl, l, _ => { l with pc := lbl }
  | _, l, _ => l

/-- The pointer that a step of `sys_getprocinfo` reads is not null. -/
def Info.NotNull : (i : Info n) → i.Ans → Prop
  | .parent, q => q ≠ none
  | .pid, _ | .ppid _, _ | .told _ _ _, _ => True

/-- What the answer of an action says. -/
def tells : (a : Act n) → Gh n κ → Res a → Prop
  | .holding lk, l, r => r = true ↔ lk ∈ l.held
  | .mycpu, l, c => c.noff = l.off ∧ (0 < l.off → c.intr = false) ∧
      c.proc = match l.me with
        | .proc p => some p
        | .cpu _ => l.slot
  | .read p, l, x =>
      (l.me = .proc p → x.state = match l.own with
        | .set st => st
        | _ => .running) ∧
      (.wait ∈ l.held → p ∈ l.fam.clear → ∀ q, l.me = .proc q → x.parent ≠ some q)
  | .info p i, l, r => l.me = .proc p → l.own = .run → l.adopted = true → i.NotNull r
  | _, _, _ => True

def post (a : Act n) (l : Gh n κ) (r : Res a) (l' : Gh n κ) : Prop :=
  tells a l r ∧ l' = next initproc a l r

/-- A process may become a zombie when it has no children and its parent is not asleep. -/
def Gh.MayExit (l : Gh n κ) (p : Fin n) : Prop :=
  p ≠ initproc ∧ .wait ∈ l.held ∧ l.child = none ∧ l.reaped = none ∧ (∀ q, q ∈ l.fam.clear) ∧ ¬ l.fam.owe ∧
    ∃ o, l.fam.parent = some o ∧ ∀ q, o = some q → q ∈ l.fam.awake

/-- What a thread must have done before it gives a lock up. -/
def Gh.Releases (l : Gh n κ) : Lock n → Prop
  | .wait => ¬ l.fam.owe
  | .proc p => (l.me = .proc p → l.own = .run ∧ ¬ l.fam.fall) ∧
      (l.me ≠ .proc p → l.child ≠ some (p, false))
  | .other _ => True

def pre : Act n → Gh n κ → Prop
  | .popOff, l => l.held.length < l.off
  | .lock lk, l => lk ∉ l.held ∧ l.held.length < l.off ∧ l.slot = none ∧ l.pick = none
  | .unlock lk, l => lk ∈ l.held ∧ l.slot = none ∧ l.pick = none ∧ l.Releases lk
  | .intrOn, l => l.off = 0
  | .setCpuProc p, l => (∃ c, l.me = .cpu c) ∧
      match p with
      | some p => l.held = [.proc p] ∧ l.off = 1 ∧ l.pick = some p
      | none => l.pick = none
  | .resume p, l => (∃ c, l.me = .cpu c) ∧ l.held = [.proc p] ∧ l.off = 1 ∧ l.slot = some p ∧
      l.pick = some p ∧ l.seen = none
  | .suspend, l => ∃ p st, l.me = .proc p ∧ l.held = [.proc p] ∧ l.off = 1 ∧ l.own = .set st ∧
      l.seen = none
  | .setState p st, l => l.me = .proc p ∧ .proc p ∈ l.held ∧ l.own = .run ∧
      (st = .runnable ∨ (st = .sleeping ∧ ∀ q, l.chan = some (.proc q) → l.fam.fall) ∨
        (st = .zombie ∧ l.MayExit initproc p))
  | .setRunning p, l => (∃ c, l.me = .cpu c) ∧ l.held = [.proc p] ∧ l.off = 1 ∧ l.slot = none ∧
      ∃ x, l.seen = some x ∧ x.slot = p ∧ x.state = .runnable
  | .setRunnable p, l => l.child = some (p, true) ∧ .proc p ∈ l.held
  | .setChan p chan, l => l.me = .proc p ∧ .proc p ∈ l.held ∧ l.own = .run ∧
      ∀ q, chan = some (.proc q) → q = p
  | .setKilled p, l => l.me = .proc p ∧ l.own = .run
  | .setXstate p _, l => l.me = .proc p ∧ .proc p ∈ l.held ∧ l.own = .run
  | .setParent p q, l => .wait ∈ l.held ∧ l.own = .run ∧
      ((l.child = some (p, true) ∧ ∃ m, q = some m ∧ l.me = .proc m) ∨
        (l.child = none ∧ q = some initproc ∧ p ∈ l.fam.kids ∧ ∃ m, m ≠ initproc ∧ l.me = .proc m))
  | .wakeOne _ p, l | .killOne _ p, l | .priorityOne _ _ p, l => .proc p ∉ l.held
  | .claim p, l => (∃ q, l.me = .proc q) ∧ .proc p ∈ l.held ∧ l.child = none ∧ l.own = .run ∧
      ∃ x, l.seen = some x ∧ x.slot = p ∧ x.state = .unused
  | .freeproc p, l => .proc p ∈ l.held ∧
      ((∃ b, l.child = some (p, b)) ∨ (l.child = none ∧ .wait ∈ l.held ∧ p ∈ l.fam.kids ∧
        l.reaped = none ∧ (∃ m, l.me = .proc m) ∧ ∃ x, l.seen = some x ∧ x.slot = p ∧ x.state = .zombie))
  | .setContext p, l => l.child = some (p, false) ∧ .proc p ∈ l.held
  | .waited p pid status, l => l.me = .proc p ∧ l.reaped = some (pid, status)
  | .forked _ pid, l => l.newpid = some pid
  | .goto p _, l | .info p _, l => l.me = .proc p
  | .panic msg, l => ((∃ p, l.me = .proc p) ∧ l.own = .gone) ∨ msg = "init exiting"
  | _, _ => True

/-- A thread that executes no kernel code. -/
def fin (l : Gh n κ) : Prop :=
  l.own = .run ∧ l.child = none ∧ l.reaped = none ∧ l.slot = none ∧ l.pick = none ∧ l.chan = none ∧
    l.seen = none ∧ ¬ l.fam.fall ∧
    match l.me, l.pc with
    | .proc _, .waitLoop _ => l.held = [.wait] ∧ l.off = 1 ∧ ¬ l.fam.owe
    | _, _ => l.held = [] ∧ l.off = 0

end Rules

section Equations

-- The proofs about `next` below are independent of each other: its equations are made here for all of them.
attribute [local simp] next

end Equations

end Xv6.Process
