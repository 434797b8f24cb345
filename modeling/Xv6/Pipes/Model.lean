import Mathlib
import Xv6.Fifo
import Xv6.Fs.Memory
import Xv6.Interleave.Rules
import Xv6.Sleep

/-!
# One pipe, shared by processes

`kernel/pipe.c` for a table of `n` processes that call `pipewrite`, `piperead` and `pipeclose` on one
pipe, and `kill`. `pi->lock` is held from `acquire` to `release`, and every access to the pipe is an
action of its own. `kill` may set `killed` at any moment at which the `p->lock` of the process is
free.

`fresh` is history: a byte has been enqueued since `pi->lock` was taken.
-/

namespace Xv6.Pipes

open Interleave

abbrev PIPESIZE : Nat := 512

/-- `struct pipe`; `nread` and `nwrite` are the numbers of bytes read and written, as `uint`. -/
structure Pipe where
  data : Nat → UInt8
  nread : Nat
  nwrite : Nat
  /-- read fd is still open -/
  readopen : Bool
  /-- write fd is still open -/
  writeopen : Bool

/-- `&pi->nread` and `&pi->nwrite` -/
inductive Chan where
  | nread
  | nwrite
deriving DecidableEq

/-- Where a process goes on: in user space, or in a loop with `pi->lock` held. -/
inductive Label where
  | user
  | writing (addr : Nat) (n : Int) (todo : Nat)
  | reading (addr : Nat) (n : Int)
deriving DecidableEq

inductive Call where
  | write (addr : Nat) (n : Int)
  | read (addr : Nat) (n : Int)
deriving DecidableEq

structure St (n : Nat) where
  pipe : Pipe
  lock : Option (Fin n)
  fresh : Bool
  rest : Fin n → Rest Chan
  killed : Fin n → Bool
  mem : Fin n → Fs.UMem
  pc : Fin n → Label

inductive Act (n : Nat) where
  | acquire
  | release
  | pipe
  | killed
  /-- `sleep` up to the release of `pi->lock`. -/
  | sleep (chan : Chan)
  /-- One round of the loop of `wakeup`. -/
  | wakeOne (chan : Chan) (p : Fin n)
  | copyin (va : Nat)
  /-- `pi->data[pi->nwrite++ % PIPESIZE] = ch` -/
  | put (ch : UInt8)
  /-- `pi->data[pi->nread++ % PIPESIZE]` -/
  | get
  | copyout (va : Nat) (ch : UInt8)
  | close (writable : Bool)
  | kfree
  | kill (p : Fin n)
  /-- A call begins. -/
  | enter (call : Call)
  /-- The result of `pipewrite` is known. -/
  | wrote (r : Int)
  /-- The result of `piperead` is known. -/
  | took (r : Int)
  | goto (l : Label)

@[reducible] def Res {n : Nat} : Act n → Type
  | .pipe => Pipe
  | .killed => Bool
  | .copyin _ => List UInt8 × Bool
  | .get => UInt8
  | .copyout _ _ => Bool
  | _ => Unit

/-- What a run records: a call, with the bytes it is to write, or with whether all of its destination
is mapped; a byte put into the pipe, taken out of it, or stored for the caller; a result, for
`piperead` with whether the pipe was then empty and open for writing; the page is freed. -/
inductive Ev (n : Nat) where
  | write (p : Fin n) (bytes : List UInt8)
  | read (p : Fin n) (n : Int) (mapped : Bool)
  | enqueue (p : Fin n) (ch : UInt8)
  | dequeue (p : Fin n) (ch : UInt8)
  | deliver (p : Fin n) (va : Nat) (ch : UInt8)
  | wrote (p : Fin n) (r : Int)
  | took (p : Fin n) (r : Int) (empty writeopen : Bool)
  | freed
deriving DecidableEq

section Step

variable {n : Nat}

def Pipe.put (pi : Pipe) (ch : UInt8) : Pipe :=
  { pi with data := Function.update pi.data (pi.nwrite % PIPESIZE) ch, nwrite := (pi.nwrite + 1) % 2 ^ 32 }

def Pipe.get (pi : Pipe) : UInt8 := pi.data (pi.nread % PIPESIZE)

def Pipe.got (pi : Pipe) : Pipe := { pi with nread := (pi.nread + 1) % 2 ^ 32 }

def Pipe.close (pi : Pipe) (writable : Bool) : Pipe :=
  if writable then { pi with writeopen := false } else { pi with readopen := false }

def exec (i : Fin n) (a : Act n) (s : St n) (r : Res a) (s' : St n) : Prop :=
  s.rest i = .awake ∧
  match a, r with
  | .acquire, _ => s.lock = none ∧ s' = { s with lock := some i, fresh := false }
  | .release, _ => s' = { s with lock := none }
  | .pipe, r => r = s.pipe ∧ s' = s
  | .killed, r => r = s.killed i ∧ s' = s
  | .sleep chan, _ => s' = { s with lock := none, rest := Function.update s.rest i (.falling chan) }
  | .wakeOne chan p, _ => (s.rest p).Open ∧
      s' = { s with rest := Function.update s.rest p ((s.rest p).wake chan) }
  | .copyin va, r => r = Fs.copyin (s.mem i) va 1 ∧ s' = s
  | .put ch, _ => s' = { s with pipe := s.pipe.put ch, fresh := true }
  | .get, r => r = s.pipe.get ∧ s' = { s with pipe := s.pipe.got }
  | .copyout va ch, r => r = (Fs.copyout (s.mem i) (va % 2 ^ 64) [ch]).2 ∧
      s' = { s with mem := Function.update s.mem i (Fs.copyout (s.mem i) (va % 2 ^ 64) [ch]).1 }
  | .close writable, _ => s' = { s with pipe := s.pipe.close writable }
  | .kfree, _ => s' = s
  | .kill p, _ => (s.rest p).Open ∧
      s' = { s with killed := Function.update s.killed p true
                    rest := Function.update s.rest p (s.rest p).rouse }
  | .enter _, _ => s' = s
  | .wrote _, _ => s' = s
  | .took _, _ => s' = s
  | .goto l, _ => s' = { s with pc := Function.update s.pc i l }

def obs (i : Fin n) : Act n → St n → List (Ev n)
  | .enter (.write addr n), s => [.write i ((s.mem i).bytes addr n.toNat)]
  | .enter (.read addr n), s => [.read i n ((s.mem i).Covers addr n.toNat)]
  | .put ch, _ => [.enqueue i ch]
  | .get, s => [.dequeue i s.pipe.get]
  | .copyout va ch, s => if (Fs.copyout (s.mem i) (va % 2 ^ 64) [ch]).2 then [.deliver i va ch] else []
  | .wrote r, _ => [.wrote i r]
  | .took r, s => [.took i r (s.pipe.nread = s.pipe.nwrite) s.pipe.writeopen]
  | .kfree, _ => [.freed]
  | _, _ => []

end Step

/-! ## Code -/

abbrev Code (n : Nat) (α : Type) : Type := Prog (Act n) Res α

section Code

variable {n : Nat}

def req (a : Act n) : Code n (Res a) := Prog.call a

def pipe : Code n Pipe := req .pipe
def killed : Code n Bool := req .killed
def copyin (va : Nat) : Code n (List UInt8 × Bool) := req (.copyin va)
def get : Code n UInt8 := req .get
def copyout (va : Nat) (ch : UInt8) : Code n Bool := req (.copyout va ch)

/-- The body of the loop of `wakeup`. -/
def wakeupOne (me : Fin n) (chan : Chan) (p : Fin n) : Code n Unit :=
  if p ≠ me then req (.wakeOne chan p) else pure ()

def wakeup (me : Fin n) (chan : Chan) : Code n Unit := Prog.forEach (wakeupOne me chan) (List.finRange n)

def sleep (chan : Chan) : Code n Unit := do
  req (.sleep chan)
  req .acquire

/-- `pipewrite` after its loop. -/
def writeEnd (me : Fin n) (i : Nat) : Code n Unit := do
  req (.wrote i)
  wakeup me .nread
  req .release
  req (.goto .user)

/-- `pipewrite` fails. -/
def writeFail : Code n Unit := do
  req (.wrote (-1))
  req .release
  req (.goto .user)

/-- The loop of `pipewrite` with `todo` bytes to go. -/
def writeFrom (me : Fin n) (addr : Nat) (n' : Int) : Nat → Code n Unit
  | 0 => writeEnd me n'.toNat
  | todo + 1 => do
    let pi ← pipe
    if ← (if pi.readopen = false then pure true else killed) then writeFail
    else if pi.nwrite = (pi.nread + PIPESIZE) % 2 ^ 32 then do
      wakeup me .nread
      sleep .nwrite
      req (.goto (.writing addr n' (todo + 1)))
    else do
      let (ch, ok) ← copyin (addr + (n'.toNat - (todo + 1)))
      if ok = false then writeEnd me (n'.toNat - (todo + 1))
      else do
        req (.put (ch.headD 0))
        writeFrom me addr n' todo

def pipewrite (me : Fin n) (addr : Nat) (n' : Int) : Code n Unit := do
  req (.enter (.write addr n'))
  req .acquire
  writeFrom me addr n' n'.toNat

/-- `piperead` after its loops. -/
def readEnd (me : Fin n) (i : Nat) : Code n Unit := do
  req (.took i)
  wakeup me .nwrite
  req .release
  req (.goto .user)

/-- `piperead` fails. -/
def readFail : Code n Unit := do
  req (.took (-1))
  req .release
  req (.goto .user)

/-- The second loop of `piperead` with `todo` bytes to go. -/
def readFrom (me : Fin n) (addr : Nat) (n' : Int) : Nat → Code n Unit
  | 0 => readEnd me n'.toNat
  | todo + 1 => do
    let pi ← pipe
    if pi.nread = pi.nwrite then readEnd me (n'.toNat - (todo + 1))
    else do
      let ch ← get
      if ← copyout (addr + (n'.toNat - (todo + 1))) ch then readFrom me addr n' todo
      else readEnd me (n'.toNat - (todo + 1))

/-- One round of the first loop of `piperead`. -/
def readWait (me : Fin n) (addr : Nat) (n' : Int) : Code n Unit := do
  let pi ← pipe
  if pi.nread = pi.nwrite ∧ pi.writeopen = true then do
    if ← killed then readFail
    else do
      sleep .nread
      req (.goto (.reading addr n'))
  else readFrom me addr n' n'.toNat

def piperead (me : Fin n) (addr : Nat) (n' : Int) : Code n Unit := do
  req (.enter (.read addr n'))
  req .acquire
  readWait me addr n'

def pipeclose (me : Fin n) (writable : Bool) : Code n Unit := do
  req .acquire
  req (.close writable)
  wakeup me (if writable then .nread else .nwrite)
  let pi ← pipe
  if pi.readopen = false ∧ pi.writeopen = false then do
    req .release
    req .kfree
  else req .release

end Code

/-! ## The system -/

section System

variable {n : Nat}

/-- What a process starts when it has no code left; `valid` is what callers guarantee for the
addresses they pass. -/
def calls (valid : Fs.UMem → Nat → Nat → Prop) (i : Fin n) (s : St n) (p : Code n Unit) : Prop :=
  match s.pc i with
  | .user =>
    (∃ addr n', valid (s.mem i) addr n'.toNat ∧ (p = pipewrite i addr n' ∨ p = piperead i addr n')) ∨
      (∃ writable, p = pipeclose i writable) ∨ ∃ q, p = req (.kill q)
  | .writing addr n' todo => p = writeFrom i addr n' todo
  | .reading addr n' => p = readWait i addr n'

inductive Env : St n → (Fin n → Code n Unit) → List (Ev n) → St n → (Fin n → Code n Unit) → Prop where
  /-- A process marks itself `SLEEPING`. -/
  | slept {s : St n} {th : Fin n → Code n Unit} {i : Fin n} {chan : Chan} (falling : s.rest i = .falling chan) :
      Env s th [] { s with rest := Function.update s.rest i (.asleep chan) } th
  /-- A process in user space changes its memory. -/
  | user {s : St n} {th : Fin n → Code n Unit} {i : Fin n} {m : Fs.UMem} (idle : th i = .ret ())
      (place : s.pc i = .user) : Env s th [] { s with mem := Function.update s.mem i m } th

def sys (n : Nat) (valid : Fs.UMem → Nat → Nat → Prop) : Sys (Fin n) (Act n) Res (St n) (Ev n) where
  exec := exec
  obs := obs
  env := Env
  calls := calls valid

/-- `pipealloc` -/
def Pipe.new (data : Nat → UInt8) : Pipe := { data, nread := 0, nwrite := 0, readopen := true, writeopen := true }

/-- A new pipe; every process is in user space. -/
def start (data : Nat → UInt8) (killed : Fin n → Bool) (mem : Fin n → Fs.UMem) : St n where
  pipe := Pipe.new data
  lock := none
  fresh := false
  rest _ := .awake
  killed := killed
  mem := mem
  pc _ := .user

end System

end Xv6.Pipes
