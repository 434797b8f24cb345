import Mathlib
import Xv6.Interleave.Pool
import Xv6.Params

/-!
# Processes, CPUs and the code that switches between them

`kernel/proc.c`, the traps of `kernel/trap.c` and the spinlocks of `kernel/spinlock.c`, for a table
of `n` processes and any set `κ` of CPUs. A kernel thread is the kernel side of a process or the
scheduler of a CPU; it has its own stack, and it moves only while a CPU executes on that stack.
`swtch` changes what a CPU executes on. `p->lock` is taken by one thread and released by another
across it, so a lock is held by a CPU, as in the source.

Critical sections that contain no other lock and no `swtch` are one action: one round of the loops
of `wakeup`, `kill` and `sys_setpriority`, and `allocpid`. The other actions are single steps.
File-system and device code is any client that uses spinlocks, `sleep` and `wakeup` as `sched`
demands: it sleeps with the one lock it names and holds none when it is done.

A timer or device interrupt may come whenever interrupts are on. The memory of processes is not
modelled; where it decides (`kalloc`, `uvmcopy`, `copyout`), the answer is arbitrary.
-/

namespace Xv6.Process

open Interleave

/-! ## State -/

/-- What a process sleeps on: `wait` uses the process itself, other code other addresses. -/
inductive Chan (n : Nat) where
  | proc (p : Fin n)
  | other (k : Nat)
deriving DecidableEq

/-- `wait_lock`, the locks of processes and all others. -/
inductive Lock (n : Nat) where
  | wait
  | proc (p : Fin n)
  | other (k : Nat)
deriving DecidableEq

/-- `struct proc`, without what is private to the process. -/
structure Proc (n : Nat) where
  state : ProcState
  chan : Option (Chan n)
  killed : Bool
  xstate : Int
  pid : Int
  parent : Option (Fin n)
  priority : Int

/-- `struct cpu`; `intr` is the interrupt enable bit. -/
structure Cpu (n : Nat) where
  proc : Option (Fin n)
  noff : Nat
  intena : Bool
  intr : Bool

/-- A kernel thread. -/
inductive Thread (n : Nat) (κ : Type) where
  | proc (p : Fin n)
  | cpu (c : κ)
deriving DecidableEq

/-- Where a process goes on that has no kernel code left to execute: in user space, at the end of
`usertrap`, or in the loop of `wait`. -/
inductive Label where
  | user
  | trapEnd
  | waitLoop (addr : Nat)
deriving DecidableEq

/-- `running c` is the thread on whose stack CPU `c` executes, `pc p` where process `p` goes on. -/
structure St (n : Nat) (κ : Type) where
  proc : Fin n → Proc n
  cpu : κ → Cpu n
  lock : Lock n → Option κ
  running : κ → Thread n κ
  nextpid : Int
  pc : Fin n → Label

/-! ## Actions -/

/-- The steps of `sys_getprocinfo` on fields that other processes change: it reads `p->pid`, reads
`p->parent`, reads the pid of a process it has a pointer to, and tells what it found. -/
inductive Info (n : Nat) where
  | pid
  | parent
  | ppid (q : Fin n)
  | told (pid ppid : Int) (state : ProcState)

@[reducible] def Info.Ans {n : Nat} : Info n → Type
  | .pid | .ppid _ => Int
  | .parent => Option (Fin n)
  | .told _ _ _ => Unit

/-- What a step of `sys_getprocinfo` of process `p` reads. -/
def Info.answer {n : Nat} (proc : Fin n → Proc n) (p : Fin n) : (i : Info n) → i.Ans
  | .pid => (proc p).pid
  | .parent => (proc p).parent
  | .ppid q => (proc q).pid
  | .told _ _ _ => ()

inductive Act (n : Nat) where
  | pushOff
  /-- The end of `pop_off`, after its checks. -/
  | popOff
  | holding (lk : Lock n)
  | lock (lk : Lock n)
  | unlock (lk : Lock n)
  | intrOn
  | intrOff
  | mycpu
  | setIntena (intena : Bool)
  | setCpuProc (p : Option (Fin n))
  /-- `swtch(&c->context, &p->context)` -/
  | resume (p : Fin n)
  /-- `swtch(&p->context, &mycpu()->context)` -/
  | suspend
  | read (p : Fin n)
  /-- A process changes its own state. -/
  | setState (p : Fin n) (st : ProcState)
  /-- The scheduler takes a process. -/
  | setRunning (p : Fin n)
  /-- `fork` lets the child run. -/
  | setRunnable (p : Fin n)
  | setChan (p : Fin n) (chan : Option (Chan n))
  /-- `usertrap` gives up a process after a fault. -/
  | setKilled (p : Fin n)
  | setXstate (p : Fin n) (status : Int)
  | setParent (p : Fin n) (q : Option (Fin n))
  | setPriority (p : Fin n) (priority : Int)
  /-- One round of the loop of `wakeup`. -/
  | wakeOne (chan : Option (Chan n)) (p : Fin n)
  /-- One round of the loop of `kill`. -/
  | killOne (pid : Int) (p : Fin n)
  /-- One round of the loop of `sys_setpriority`. -/
  | priorityOne (pid priority : Int) (p : Fin n)
  /-- `p->pid = allocpid(); p->state = USED; p->priority = 5;` -/
  | claim (p : Fin n)
  | freeproc (p : Fin n)
  /-- The context of a new process starts at `forkret`. -/
  | setContext (p : Fin n)
  /-- Memory is or is not available; a copy does or does not succeed; client code branches. -/
  | choose
  /-- `wait` returns. -/
  | waited (p : Fin n) (pid status : Int)
  /-- `fork` returns in the parent. -/
  | forked (p : Fin n) (pid : Int)
  | info (p : Fin n) (i : Info n)
  | goto (p : Fin n) (l : Label)
  | panic (msg : String)

@[reducible] def Res {n : Nat} : Act n → Type
  | .holding _ | .killOne _ _ | .priorityOne _ _ _ => Bool
  | .mycpu => Cpu n
  | .read _ => Proc n
  | .claim _ => Int
  | .choose => Nat
  | .info _ i => i.Ans
  | .panic _ => Empty
  | _ => Unit

/-- What a run records: a process becomes a zombie, is freed by a thread while it has a parent,
`wait` and `fork` return, a process is created, killed by its pid, or given up after a fault. -/
inductive Ev (n : Nat) (κ : Type) where
  | exit (p : Fin n) (pid status : Int)
  | reap (reaper : Thread n κ) (p : Fin n) (parent : Option (Fin n)) (pid status : Int)
  | waited (p : Fin n) (pid status : Int)
  | forked (p : Fin n) (pid : Int)
  | alloc (p : Fin n) (pid : Int)
  | kill (pid : Int) (p : Fin n)
  | fault (p : Fin n)
deriving DecidableEq

section Step

variable {n : Nat} {κ : Type} [DecidableEq κ]

/-- Addition of two `int`s. -/
def addInt (a b : Int) : Int := Int.bmod (a + b) (2 ^ 32)

def Cpu.pushOff (c : Cpu n) : Cpu n :=
  { c with intr := false, intena := if c.noff = 0 then c.intr else c.intena, noff := c.noff + 1 }

def Cpu.popOff (c : Cpu n) : Cpu n :=
  { c with noff := c.noff - 1, intr := if c.noff - 1 = 0 ∧ c.intena = true then true else c.intr }

def Proc.freed : Proc n :=
  { state := .unused, chan := none, killed := false, xstate := 0, pid := 0, parent := none
    priority := 0 }

/-- The body of the `if` in `wakeup`. -/
def Proc.woken (p : Proc n) (chan : Option (Chan n)) : Proc n :=
  if p.state = .sleeping ∧ p.chan = chan then { p with state := .runnable } else p

/-- The body of the `if` in `kill`. -/
def Proc.kill (p : Proc n) : Proc n :=
  { p with killed := true, state := if p.state = .sleeping then .runnable else p.state }

def St.setProc (s : St n κ) (p : Fin n) (x : Proc n) : St n κ :=
  { s with proc := Function.update s.proc p x }

def St.setCpu (s : St n κ) (c : κ) (x : Cpu n) : St n κ :=
  { s with cpu := Function.update s.cpu c x }

def St.setLock (s : St n κ) (lk : Lock n) (o : Option κ) : St n κ :=
  { s with lock := Function.update s.lock lk o }

def St.setRunning (s : St n κ) (c : κ) (t : Thread n κ) : St n κ :=
  { s with running := Function.update s.running c t }

/-- One action of a thread that CPU `c` executes. -/
def cpuExec (c : κ) : (a : Act n) → St n κ → Res a → St n κ → Prop
  | .pushOff, s, _, s' => s' = s.setCpu c (s.cpu c).pushOff
  | .popOff, s, _, s' => s' = s.setCpu c (s.cpu c).popOff
  | .holding lk, s, r, s' => r = decide (s.lock lk = some c) ∧ s' = s
  | .lock lk, s, _, s' => s.lock lk = none ∧ s' = s.setLock lk (some c)
  | .unlock lk, s, _, s' => s' = s.setLock lk none
  | .intrOn, s, _, s' => s' = s.setCpu c { s.cpu c with intr := true }
  | .intrOff, s, _, s' => s' = s.setCpu c { s.cpu c with intr := false }
  | .mycpu, s, r, s' => r = s.cpu c ∧ s' = s
  | .setIntena intena, s, _, s' => s' = s.setCpu c { s.cpu c with intena := intena }
  | .setCpuProc p, s, _, s' => s' = s.setCpu c { s.cpu c with proc := p }
  | .resume p, s, _, s' => s' = s.setRunning c (.proc p)
  | .suspend, s, _, s' => s' = s.setRunning c (.cpu c)
  | .read p, s, r, s' => r = s.proc p ∧ s' = s
  | .setState p st, s, _, s' => s' = s.setProc p { s.proc p with state := st }
  | .setRunning p, s, _, s' => s' = s.setProc p { s.proc p with state := .running }
  | .setRunnable p, s, _, s' => s' = s.setProc p { s.proc p with state := .runnable }
  | .setChan p chan, s, _, s' => s' = s.setProc p { s.proc p with chan := chan }
  | .setKilled p, s, _, s' => s' = s.setProc p { s.proc p with killed := true }
  | .setXstate p status, s, _, s' => s' = s.setProc p { s.proc p with xstate := status }
  | .setParent p q, s, _, s' => s' = s.setProc p { s.proc p with parent := q }
  | .setPriority p priority, s, _, s' => s' = s.setProc p { s.proc p with priority := priority }
  | .wakeOne chan p, s, _, s' => s.lock (.proc p) = none ∧ s' = s.setProc p ((s.proc p).woken chan)
  | .killOne pid p, s, r, s' => s.lock (.proc p) = none ∧ r = decide ((s.proc p).pid = pid) ∧
      s' = if (s.proc p).pid = pid then s.setProc p (s.proc p).kill else s
  | .priorityOne pid priority p, s, r, s' => s.lock (.proc p) = none ∧
      r = decide ((s.proc p).pid = pid) ∧
      s' = if (s.proc p).pid = pid then s.setProc p { s.proc p with priority := priority } else s
  | .claim p, s, r, s' => r = s.nextpid ∧
      s' = { s.setProc p { s.proc p with pid := s.nextpid, state := .used, priority := 5 } with
        nextpid := addInt s.nextpid 1 }
  | .freeproc p, s, _, s' => s' = s.setProc p Proc.freed
  | .setContext _, _, _, _ => False
  | .choose, s, _, s' => s' = s
  | .waited _ _ _, s, _, s' => s' = s
  | .forked _ _, s, _, s' => s' = s
  | .info p i, s, r, s' => r = i.answer s.proc p ∧ s' = s
  | .goto p l, s, _, s' => s' = { s with pc := Function.update s.pc p l }
  | .panic _, _, _, _ => False

def exec (t : Thread n κ) (a : Act n) (s : St n κ) (r : Res a) (s' : St n κ) : Prop :=
  ∃ c, s.running c = t ∧ cpuExec c a s r s'

def obs (t : Thread n κ) : Act n → St n κ → List (Ev n κ)
  | .setState p st, s => if st = .zombie then [.exit p (s.proc p).pid (s.proc p).xstate] else []
  | .freeproc p, s =>
    if (s.proc p).state = .zombie then
      [.reap t p (s.proc p).parent (s.proc p).pid (s.proc p).xstate]
    else []
  | .waited p pid status, _ => [.waited p pid status]
  | .forked p pid, _ => [.forked p pid]
  | .claim p, s => [.alloc p s.nextpid]
  | .killOne pid p, s => if (s.proc p).pid = pid then [.kill pid p] else []
  | .setKilled p, _ => [.fault p]
  | _, _ => []

end Step

/-! ## Code -/

abbrev Code (n : Nat) (α : Type) : Type := Prog (Act n) Res α

section Code

variable {n : Nat} {α : Type}

def req (a : Act n) : Code n (Res a) := Prog.call a

def panic (msg : String) : Code n α := .act (.panic msg) (fun e => Empty.elim e)

def read (p : Fin n) : Code n (Proc n) := req (.read p)
def mycpu : Code n (Cpu n) := req .mycpu
def holding (lk : Lock n) : Code n Bool := req (.holding lk)
def choose : Code n Nat := req .choose
def killOne (pid : Int) (p : Fin n) : Code n Bool := req (.killOne pid p)
def priorityOne (pid priority : Int) (p : Fin n) : Code n Bool := req (.priorityOne pid priority p)
def claim (p : Fin n) : Code n Int := req (.claim p)
def infoPid (p : Fin n) : Code n Int := req (.info p .pid)
def infoParent (p : Fin n) : Code n (Option (Fin n)) := req (.info p .parent)
def infoPpid (p q : Fin n) : Code n Int := req (.info p (.ppid q))

/-- A question to a part of the kernel that is not modelled. -/
def succeeds : Code n Bool := do
  let k ← choose
  return decide (k ≠ 0)

/-- Acquire the lock. Loops (spins) until the lock is acquired. -/
def acquire (lk : Lock n) : Code n Unit := do
  req .pushOff
  if ← holding lk then panic "acquire" else req (.lock lk)

def popOff : Code n Unit := do
  let c ← mycpu
  if c.intr then panic "pop_off - interruptible"
  else if c.noff < 1 then panic "pop_off"
  else req .popOff

/-- Release the lock. -/
def release (lk : Lock n) : Code n Unit := do
  if ← holding lk then do
    req (.unlock lk)
    popOff
  else panic "release"

/-- A loop over the process table, or over what is left of it. -/
def forSlots (body : Fin n → Code n Unit) : List (Fin n) → Code n Unit
  | [] => pure ()
  | p :: ps => do
    body p
    forSlots body ps

/-- Switch to scheduler. Must hold only p->lock and have changed proc->state. -/
def sched (me : Fin n) : Code n Unit := do
  if ← holding (.proc me) then do
    let c ← mycpu
    if c.noff ≠ 1 then panic "sched locks"
    else do
      let p ← read me
      if p.state = .running then panic "sched running"
      else do
        let c ← mycpu
        if c.intr then panic "sched interruptible"
        else do
          let c ← mycpu
          req .suspend
          req (.setIntena c.intena)
  else panic "sched p->lock"

/-- Give up the CPU for one scheduling round. -/
def yield (me : Fin n) : Code n Unit := do
  acquire (.proc me)
  req (.setState me .runnable)
  sched me
  release (.proc me)

/-- Atomically release lock and sleep on chan. Reacquires lock when awakened. -/
def sleep (me : Fin n) (chan : Chan n) (lk : Lock n) : Code n Unit := do
  acquire (.proc me)
  release lk
  req (.setChan me (some chan))
  req (.setState me .sleeping)
  sched me
  req (.setChan me none)
  release (.proc me)
  acquire lk

/-- The body of the loop of `wakeup`. -/
def wakeupOne (me : Option (Fin n)) (chan : Option (Chan n)) (p : Fin n) : Code n Unit :=
  if some p ≠ me then req (.wakeOne chan p) else pure ()

/-- Wake up all processes sleeping on chan. -/
def wakeup (me : Option (Fin n)) (chan : Option (Chan n)) : Code n Unit :=
  forSlots (wakeupOne me chan) (List.finRange n)

/-- The loop of `kill`. -/
def killFrom (pid : Int) : List (Fin n) → Code n Int
  | [] => return -1
  | p :: ps => do
    if ← killOne pid p then return 0 else killFrom pid ps

/-- Kill the process with the given pid. -/
def kill (pid : Int) : Code n Int := killFrom pid (List.finRange n)

def setpriorityFrom (pid priority : Int) : List (Fin n) → Code n Int
  | [] => return -1
  | p :: ps => do
    if ← priorityOne pid priority p then return 0
    else setpriorityFrom pid priority ps

def sysSetpriority (pid priority : Int) : Code n Int :=
  if priority < 0 ∨ 10 < priority then return -1
  else setpriorityFrom pid priority (List.finRange n)

/-- `p->parent ? p->parent->pid : 0`. In the kernel's page table nothing is mapped where a null pointer
points to. -/
def parentPid (me : Fin n) : Code n Int := do
  match ← infoParent me with
  | none => return 0
  | some _ =>
    match ← infoParent me with
    | none => panic "kerneltrap"
    | some q => infoPpid me q

/-- `sys_getprocinfo` up to `p->sz`, which is private to the process as the rest is. Nothing is told
if `copyout` fails. -/
def sysGetprocinfo (me : Fin n) : Code n Unit := do
  let pid ← infoPid me
  let ppid ← parentPid me
  let p ← read me
  if ← succeeds then req (.info me (.told pid ppid p.state)) else pure ()

/-! ### Clients -/

/-- What the rest of the kernel does with locks and processes. -/
inductive ClientAct where
  | acquire (k : Nat)
  | release (k : Nat)
  | sleep (chan k : Nat)
  | wakeup (chan : Nat)
  | choose

@[reducible] def ClientRes : ClientAct → Type
  | .choose => Nat
  | _ => Unit

abbrev Client : Type := Prog ClientAct ClientRes Unit

/-- What a client may do: handlers do not sleep, and code that runs with a `p->lock` does not call
`wakeup` either. -/
inductive Leave where
  | sleep
  | wakeup
  | none
deriving DecidableEq

/-- `sleep` is called with no spinlock held but its own `lk`; `held` are the locks that the client
holds. -/
def clientPre (may : Leave) : ClientAct → List Nat → Prop
  | .acquire k, held => k ∉ held
  | .release k, held => k ∈ held
  | .sleep _ k, held => may = .sleep ∧ held = [k]
  | .wakeup _, _ => may ≠ .none
  | .choose, _ => True

def clientPost : (a : ClientAct) → List Nat → ClientRes a → List Nat → Prop
  | .acquire k, held, _, held' => held' = k :: held
  | .release k, held, _, held' => held' = held.erase k
  | _, held, _, held' => held' = held

/-- The client releases what it acquires. -/
def Client.Disciplined (may : Leave) (c : Client) : Prop :=
  c.wp (clientPre may) clientPost [] (fun _ held => held = [])

def clientImpl (me : Option (Fin n)) : (a : ClientAct) → Code n (ClientRes a)
  | .acquire k => acquire (.other k)
  | .release k => release (.other k)
  | .sleep chan k =>
    match me with
    | some p => sleep p (.other chan) (.other k)
    | none => pure ()
  | .wakeup chan => wakeup me (some (.other chan))
  | .choose => choose

def Client.code (me : Option (Fin n)) (c : Client) : Code n Unit := c.interp (clientImpl me)

/-! ### fork, exit, wait -/

/-- `allocproc` after `found:`. -/
def allocprocFound (p : Fin n) : Code n (Option (Fin n)) := do
  let _ ← claim p
  -- Allocate a trapframe page.
  if ← succeeds then do
    -- An empty user page table.
    if ← succeeds then do
      req (.setContext p)
      return some p
    else do
      req (.freeproc p)
      release (.proc p)
      return none
  else do
    req (.freeproc p)
    release (.proc p)
    return none

def allocprocFrom : List (Fin n) → Code n (Option (Fin n))
  | [] => return none
  | p :: ps => do
    acquire (.proc p)
    let x ← read p
    if x.state = .unused then allocprocFound p
    else do
      release (.proc p)
      allocprocFrom ps

/-- Look in the process table for an UNUSED proc. -/
def allocproc : Code n (Option (Fin n)) := allocprocFrom (List.finRange n)

/-- Create a new process, copying the parent. `dup` are `filedup` and `idup`. -/
def fork (me : Fin n) (dup : Client) : Code n Unit := do
  match ← allocproc with
  | none => pure ()
  | some np => do
    -- Copy user memory from parent to child.
    if ← succeeds then do
      dup.code (some me)
      let p ← read me
      req (.setPriority np p.priority)
      let x ← read np
      release (.proc np)
      acquire .wait
      req (.setParent np (some me))
      release .wait
      acquire (.proc np)
      req (.setRunnable np)
      release (.proc np)
      req (.forked me x.pid)
    else do
      req (.freeproc np)
      release (.proc np)

/-- The body of the loop of `reparent`. -/
def reparentOne (initproc me pp : Fin n) : Code n Unit := do
  let x ← read pp
  if x.parent = some me then do
    req (.setParent pp (some initproc))
    wakeup (some me) (some (.proc initproc))
  else pure ()

/-- Pass p's abandoned children to init. Caller must hold wait_lock. -/
def reparent (initproc me : Fin n) : Code n Unit :=
  forSlots (reparentOne initproc me) (List.finRange n)

/-- Exit the current process. Does not return. `close` closes the files and gives up the current
directory. -/
def exit (initproc me : Fin n) (close : Client) (status : Int) : Code n Unit :=
  if me = initproc then panic "init exiting"
  else do
    close.code (some me)
    acquire .wait
    -- Give any children to init.
    reparent initproc me
    -- Parent might be sleeping in wait().
    let p ← read me
    wakeup (some me) (p.parent.map .proc)
    acquire (.proc me)
    req (.setXstate me status)
    req (.setState me .zombie)
    release .wait
    -- Jump into the scheduler, never to return.
    sched me
    panic "zombie exit"

/-- Wait for a child process to exit and return its pid. -/
def wait (me : Fin n) (addr : Nat) : Code n Unit := do
  acquire .wait
  req (.goto me (.waitLoop addr))

/-- `wait` returns to the end of `usertrap`. -/
def waitReturn (me : Fin n) (pid status : Int) : Code n Unit := do
  release .wait
  req (.waited me pid status)
  req (.goto me .trapEnd)

/-- `wait` fails. -/
def waitFail (me : Fin n) : Code n Unit := do
  release .wait
  req (.goto me .trapEnd)

/-- Scan through table looking for exited children. -/
def waitFrom (me : Fin n) (addr : Nat) : List (Fin n) → Bool → Code n Unit
  | [], havekids => do
    let p ← read me
    -- No point waiting if we don't have any children.
    if havekids = false ∨ p.killed = true then waitFail me
    else do
      -- Wait for a child to exit.
      sleep me (.proc me) .wait
      req (.goto me (.waitLoop addr))
  | np :: ps, havekids => do
    let x ← read np
    if x.parent = some me then do
      -- make sure the child isn't still in exit() or swtch().
      acquire (.proc np)
      let x ← read np
      if x.state = .zombie then do
        if ← (if addr = 0 then pure true else succeeds) then do
          req (.freeproc np)
          release (.proc np)
          waitReturn me x.pid x.xstate
        else do
          release (.proc np)
          waitFail me
      else do
        release (.proc np)
        waitFrom me addr ps true
    else waitFrom me addr ps havekids

def waitRound (me : Fin n) (addr : Nat) : Code n Unit := waitFrom me addr (List.finRange n) false

/-! ### Scheduler and traps -/

/-- The body of the inner loop of `scheduler`. -/
def schedule (p : Fin n) : Code n Unit := do
  acquire (.proc p)
  let x ← read p
  if x.state = .runnable then do
    -- Switch to chosen process.
    req (.setRunning p)
    req (.setCpuProc (some p))
    req (.resume p)
    -- Process is done running for now.
    req (.setCpuProc none)
    release (.proc p)
  else release (.proc p)

/-- One round of `scheduler`. -/
def scheduler : Code n Unit := do
  -- Avoid deadlock by ensuring that devices can interrupt.
  req .intrOn
  forSlots schedule (List.finRange n)

/-- return to user space -/
def usertrapret (me : Fin n) : Code n Unit := do
  req .intrOff
  req .intrOn
  req (.goto me .user)

/-- A fork child's very first scheduling by scheduler() will swtch to forkret. `first` is `fsinit`
for the first process. -/
def forkret (me : Fin n) (first : Client) : Code n Unit := do
  release (.proc me)
  first.code (some me)
  usertrapret me

/-- `usertrap` after a system call. -/
def trapEnd (initproc me : Fin n) (close : Client) : Code n Unit := do
  let p ← read me
  if p.killed then exit initproc me close (-1) else usertrapret me

/-- System calls that concern processes; `other` stands for the rest of them. -/
inductive Syscall where
  | fork (dup : Client)
  | exit (close : Client) (status : Int)
  | wait (addr : Nat)
  | kill (pid : Int)
  | setpriority (pid priority : Int)
  | getprocinfo
  | other (c : Client)

def Syscall.code (initproc me : Fin n) : Syscall → Code n Unit
  | .fork dup => do
    Process.fork me dup
    req (.goto me .trapEnd)
  | .exit close status => Process.exit initproc me close status
  | .wait addr => Process.wait me addr
  | .kill pid => do
    let _ ← Process.kill pid
    req (.goto me .trapEnd)
  | .setpriority pid priority => do
    let _ ← sysSetpriority pid priority
    req (.goto me .trapEnd)
  | .getprocinfo => do
    sysGetprocinfo me
    req (.goto me .trapEnd)
  | .other c => do
    c.code (some me)
    req (.goto me .trapEnd)

/-- Why a process enters the kernel; `close` is what `exit` does if it has been killed, `handler`
the code of the device. -/
inductive Trap where
  | syscall (call : Syscall) (close : Client)
  | device (handler close : Client)
  | timer (handler close : Client)
  | fault (close : Client)

/-- handle an interrupt, exception, or system call from user space. -/
def usertrap (initproc me : Fin n) : Trap → Code n Unit
  | .syscall call close => do
    req .intrOff
    let p ← read me
    if p.killed then exit initproc me close (-1)
    else do
      req .intrOn
      call.code initproc me
  | .device handler close => do
    req .intrOff
    handler.code (some me)
    trapEnd initproc me close
  | .timer handler close => do
    req .intrOff
    handler.code (some me)
    let p ← read me
    if p.killed then exit initproc me close (-1)
    else do
      yield me
      usertrapret me
  | .fault close => do
    req .intrOff
    req (.setKilled me)
    trapEnd initproc me close

/-- interrupts and exceptions from kernel code go here via kernelvec, on whatever the current
kernel stack is. `me` is the process whose stack that is; the hardware has turned interrupts off. -/
def kerneltrap (me : Option (Fin n)) (handler : Client) (timer : Bool) : Code n Unit := do
  handler.code me
  -- give up the CPU if this is a timer interrupt.
  let c ← mycpu
  match timer, c.proc with
  | true, some p => do
    let x ← read p
    if x.state = .running then yield p else pure ()
  | _, _ => pure ()
  -- sret
  req .intrOn

end Code

/-! ## The system -/

section System

variable {n : Nat} {κ : Type} [DecidableEq κ]

/-- Clients of a trap are disciplined, and handlers do not sleep. -/
def Syscall.Ok : Syscall → Prop
  | .fork dup => dup.Disciplined .none
  | .exit close _ => close.Disciplined .sleep
  | .other c => c.Disciplined .sleep
  | _ => True

def Trap.Ok : Trap → Prop
  | .syscall call close => call.Ok ∧ close.Disciplined .sleep
  | .device handler close | .timer handler close =>
      handler.Disciplined .wakeup ∧ close.Disciplined .sleep
  | .fault close => close.Disciplined .sleep

/-- The process of a thread. -/
def Thread.slot : Thread n κ → Option (Fin n)
  | .proc p => some p
  | .cpu _ => none

/-- The code that a thread goes on with when it has none. -/
def calls (initproc : Fin n) : Thread n κ → St n κ → Code n Unit → Prop
  | .cpu c, s, p => s.running c = .cpu c ∧ p = scheduler
  | .proc me, s, p => (∃ c, s.running c = .proc me) ∧
    match s.pc me with
    | .user => ∃ trap : Trap, trap.Ok ∧ p = usertrap initproc me trap
    | .trapEnd => ∃ close : Client, close.Disciplined .sleep ∧ p = trapEnd initproc me close
    | .waitLoop addr => p = waitRound me addr

inductive Env : St n κ → (Thread n κ → Code n Unit) → List (Ev n κ) → St n κ →
    (Thread n κ → Code n Unit) → Prop where
  /-- An interrupt arrives while kernel code is executed; the hardware turns interrupts off. -/
  | interrupt {s : St n κ} {th : Thread n κ → Code n Unit} {c : κ} {t : Thread n κ} {a : Act n}
      {k : Res a → Code n Unit} {handler : Client} {timer : Bool} (running : s.running c = t)
      (on : (s.cpu c).intr = true) (code : th t = .act a k) (ok : handler.Disciplined .wakeup) :
      Env s th [] (s.setCpu c { s.cpu c with intr := false })
        (Function.update th t (kerneltrap t.slot handler timer >>= fun _ => th t))
  /-- `memset(&p->context, 0, sizeof(p->context)); p->context.ra = (uint64)forkret;` -/
  | setContext {s : St n κ} {th : Thread n κ → Code n Unit} {c : κ} {t : Thread n κ} {p : Fin n}
      {k : Unit → Code n Unit} (running : s.running c = t) (code : th t = .act (.setContext p) k) :
      Env s th [] { s with pc := Function.update s.pc p .user }
        (Function.update (Function.update th t (k ())) (.proc p) (forkret p (pure ())))

def sys (initproc : Fin n) : Sys (Thread n κ) (Act n) Res (St n κ) (Ev n κ) where
  exec := exec
  obs := obs
  env := Env
  calls := calls initproc

/-- The first process, before it runs. -/
def Proc.first : Proc n :=
  { state := .runnable, chan := none, killed := false, xstate := 0, pid := 1, parent := none
    priority := 5 }

/-- The machine when every CPU enters `scheduler`: `userinit` has made the first process. -/
def boot (initproc : Fin n) : St n κ where
  proc p := if p = initproc then Proc.first else Proc.freed
  cpu _ := { proc := none, noff := 0, intena := false, intr := false }
  lock _ := none
  running c := .cpu c
  nextpid := 2
  pc _ := .user

/-- `fsinit` is what the first process does before it goes to user space. -/
def bootPool (initproc : Fin n) (fsinit : Client) : Thread n κ → Code n Unit
  | .proc p => if p = initproc then forkret p fsinit else pure ()
  | .cpu _ => pure ()

end System

end Xv6.Process
