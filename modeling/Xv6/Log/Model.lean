import Mathlib
import Xv6.Interleave.Pool
import Xv6.Params

/-!
# The log (`kernel/log.c`) over a block cache

`Act` is what the code of log.c performs atomically: a call into the block cache, a
critical section of `log.lock`, or an access to `log.lh` by the process that commits.
The cache is seen through its contents: `cache b` is what `bread` of block `b` returns,
`disk b` what is on the disk. A buffer that nobody has locked and nobody has pinned may be
recycled at any time, after which `bread` returns the disk contents again.

Clients are programs over `OpAct`, the interface log.c offers to the file system. Their
other actions are a parameter (`X`, with state `T`), so that the results below hold for
any file-system code. Waiting in `sleep` is an action that is not enabled.
-/

namespace Xv6.Log

open Interleave

/-- A pointer to a locked `struct buf`, as `bread` returns it. -/
abbrev Handle : Type := Fin NBUF

/-- `struct log` with `lh.block[0..lh.n)` as a list. -/
structure LogVar where
  start : Nat
  size : Nat
  outstanding : Int
  committing : Bool
  lh : List Nat

inductive Act (X : Type) : Type where
  | bread (b : Nat)
  | getData (h : Handle)
  | setData (h : Handle) (d : Block)
  | bwrite (h : Handle)
  | bunpin (h : Handle)
  | brelse (h : Handle)
  | beginOp
  | endOpDec
  | endOpDone
  | logWrite (h : Handle)
  | getLog
  | setLh (lh : List Nat)
  | ready
  | panic (msg : String)
  | aux (x : X)

section Interface

variable {X : Type} (RX : X → Type)

/-- Answers. `none` from `bread` is `bget` finding no buffer to recycle, which this layer
lets happen at any time; an error from a critical section is the panic it reaches. -/
def Res : Act X → Type
  | .bread _ => Option Handle
  | .getData _ => Block
  | .setData _ _ | .bwrite _ | .bunpin _ | .brelse _ => Unit
  | .beginOp | .endOpDone | .setLh _ | .ready => Unit
  | .endOpDec => Except String Bool
  | .logWrite _ => Except String Unit
  | .getLog => LogVar
  | .panic _ => Empty
  | .aux x => RX x

/-- Code of log.c. -/
abbrev Code (α : Type) : Type := Prog (Act X) (Res RX) α

end Interface

/-! ## The on-disk header -/

/-- `hb->n` and `hb->block[i]` as `write_head` stores them into the header buffer. -/
def putBlocks (d : Block) : Nat → List Nat → Block
  | _, [] => d
  | i, b :: bs => putBlocks (d.putNum 4 (4 * (i + 1)) b) (i + 1) bs

def putHead (d : Block) (lh : List Nat) : Block := putBlocks (d.putNum 4 0 lh.length) 0 lh

/-- `lh->n`, an `int`: a negative count makes every loop over it empty. -/
def headN (d : Block) : Nat := if d.num 4 0 < 2 ^ 31 then d.num 4 0 else 0

def getHead (d : Block) : List Nat := (List.range (headN d)).map fun i => d.num 4 (4 * (i + 1))

/-! ## Critical sections of `log.lock` -/

/-- The admission test of `begin_op`. -/
def LogVar.admits (log : LogVar) : Bool :=
  !log.committing && decide ((log.lh.length : Int) + (log.outstanding + 1) * MAXOPBLOCKS ≤ LOGSIZE)

def LogVar.beginOp (log : LogVar) : LogVar := { log with outstanding := log.outstanding + 1 }

/-- The first critical section of `end_op`; the answer is `do_commit`. -/
def LogVar.endOpDec (log : LogVar) : Except String Bool × LogVar :=
  let log := { log with outstanding := log.outstanding - 1 }
  if log.committing then (.error "log.committing", log)
  else if log.outstanding = 0 then (.ok true, { log with committing := true })
  else (.ok false, log)

def LogVar.endOpDone (log : LogVar) : LogVar := { log with committing := false }

/-- The critical section of `log_write` for block `b`. The flag says that the block is new
in the log and has been pinned. -/
def LogVar.logWrite (log : LogVar) (b : Nat) : Except String (LogVar × Bool) :=
  if log.lh.length ≥ LOGSIZE ∨ log.lh.length ≥ log.size - 1 then .error "too big a transaction"
  else if log.outstanding < 1 then .error "log_write outside of trans"
  else if b ∈ log.lh then .ok (log, false)   -- log absorption
  else .ok ({ log with lh := log.lh ++ [b] }, true)

/-! ## The code -/

section Functions

variable {X : Type} {RX : X → Type} {α : Type}

/-- Perform one action. -/
def req (a : Act X) : Code RX (Res RX a) := Prog.call a

def panic (msg : String) : Code RX α := .act (.panic msg) fun e => Empty.elim e

def bread (b : Nat) : Code RX Handle := do
  match ← (req (.bread b) : Code RX (Option Handle)) with
  | some h => return h
  | none => panic "bget: no buffers"

def getData (h : Handle) : Code RX Block := req (.getData h)
def setData (h : Handle) (d : Block) : Code RX Unit := req (.setData h d)
def bwrite (h : Handle) : Code RX Unit := req (.bwrite h)
def bunpin (h : Handle) : Code RX Unit := req (.bunpin h)
def brelse (h : Handle) : Code RX Unit := req (.brelse h)
def getLog : Code RX LogVar := req .getLog
def setLh (lh : List Nat) : Code RX Unit := req (.setLh lh)

/-- The loop of `write_log` from `tail = LOGSIZE - k` on. `lh.block` has `LOGSIZE` entries. -/
def writeLogFrom : Nat → Code RX Unit
  | 0 => return ()
  | k + 1 => do
    let log ← getLog
    let tail := LOGSIZE - (k + 1)
    match log.lh[tail]? with
    | none => return ()
    | some b => do
      let toBuf ← bread (log.start + tail + 1)  -- log block
      let fromBuf ← bread b                     -- cache block
      let d ← getData fromBuf
      setData toBuf d
      bwrite toBuf                              -- write the log
      brelse fromBuf
      brelse toBuf
      writeLogFrom k

def writeLog : Code RX Unit := writeLogFrom LOGSIZE

/-- The loop of `install_trans` from `tail = LOGSIZE - k` on. -/
def installTransFrom (recovering : Bool) : Nat → Code RX Unit
  | 0 => return ()
  | k + 1 => do
    let log ← getLog
    let tail := LOGSIZE - (k + 1)
    match log.lh[tail]? with
    | none => return ()
    | some b => do
      let lbuf ← bread (log.start + tail + 1)  -- read log block
      let dbuf ← bread b                       -- read dst
      let d ← getData lbuf
      setData dbuf d                           -- copy block to dst
      bwrite dbuf                              -- write dst to disk
      if recovering then pure () else bunpin dbuf
      brelse lbuf
      brelse dbuf
      installTransFrom recovering k

def installTrans (recovering : Bool) : Code RX Unit := installTransFrom recovering LOGSIZE

def readHead : Code RX Unit := do
  let log ← getLog
  let buf ← bread log.start
  let d ← getData buf
  setLh (getHead d)
  brelse buf

/-- This is the true point at which the current transaction commits. -/
def writeHead : Code RX Unit := do
  let log ← getLog
  let buf ← bread log.start
  let d ← getData buf
  setData buf (putHead d log.lh)
  bwrite buf
  brelse buf

def recoverFromLog : Code RX Unit := do
  readHead
  installTrans true
  setLh []
  writeHead

def commit : Code RX Unit := do
  let log ← getLog
  if 0 < log.lh.length then do
    writeLog
    writeHead
    installTrans false
    setLh []
    writeHead
  else return ()

def beginOp : Code RX Unit := req .beginOp

def endOp : Code RX Unit := do
  match ← (req .endOpDec : Code RX (Except String Bool)) with
  | .error msg => panic msg
  | .ok false => return ()
  | .ok true => do
    commit
    req .endOpDone

def logWrite (h : Handle) : Code RX Unit := do
  match ← (req (.logWrite h) : Code RX (Except String Unit)) with
  | .error msg => panic msg
  | .ok () => return ()

/-- What the first process does in `forkret` before any process enters user space
(`fsinit`, `initlog`). -/
def boot : Code RX Unit := do
  recoverFromLog
  req .ready

end Functions

/-! ## The interface to the file system -/

inductive OpAct (X : Type) : Type where
  | bread (b : Nat)
  | getData (h : Handle)
  | setData (h : Handle) (d : Block)
  | logWrite (h : Handle)
  | bwrite (h : Handle)
  | brelse (h : Handle)
  | beginOp
  | endOp
  | panic (msg : String)
  | aux (x : X)

def OpRes {X : Type} (RX : X → Type) : OpAct X → Type
  | .bread _ => Handle
  | .getData _ => Block
  | .setData _ _ | .logWrite _ | .bwrite _ | .brelse _ | .beginOp | .endOp => Unit
  | .panic _ => Empty
  | .aux x => RX x

/-- Client code: what a system call does between entering and leaving the kernel. -/
abbrev Client {X : Type} (RX : X → Type) : Type := Prog (OpAct X) (OpRes RX) Unit

def impl {X : Type} {RX : X → Type} : (a : OpAct X) → Code RX (OpRes RX a)
  | .bread b => bread b
  | .getData h => getData h
  | .setData h d => setData h d
  | .logWrite h => logWrite h
  | .bwrite h => bwrite h
  | .brelse h => brelse h
  | .beginOp => beginOp
  | .endOp => endOp
  | .panic msg => req (.panic msg)
  | .aux x => req (.aux x)

/-! ## The machine -/

/-- The shared state below the file system. `hold` is the sleep-lock of each buffer with
the block it carries, `pin` the pins of each block, `up` that recovery is over. -/
structure St (ι T : Type) where
  disk : Nat → Block
  cache : Nat → Block
  hold : Handle → Option (ι × Nat)
  pin : Nat → Nat
  log : LogVar
  up : Bool
  aux : T

section Machine

variable {ι X T : Type} {RX : X → Type} [DecidableEq ι]
variable (execX : ι → (x : X) → T → RX x → T → Prop)

def exec (i : ι) : (a : Act X) → St ι T → Res RX a → St ι T → Prop
  | .bread b, s, r, s' =>
    match r with
    | none => s' = s
    | some h => s.hold h = none ∧ (∀ h' j, s.hold h' ≠ some (j, b)) ∧
        s' = { s with hold := Function.update s.hold h (some (i, b)) }
  | .getData h, s, r, s' => ∃ b, s.hold h = some (i, b) ∧ r = s.cache b ∧ s' = s
  | .setData h d, s, _, s' => ∃ b, s.hold h = some (i, b) ∧
      s' = { s with cache := Function.update s.cache b d }
  | .bwrite h, s, _, s' => ∃ b, s.hold h = some (i, b) ∧
      s' = { s with disk := Function.update s.disk b (s.cache b) }
  | .bunpin h, s, _, s' => ∃ b, s.hold h = some (i, b) ∧
      s' = { s with pin := Function.update s.pin b (s.pin b - 1) }
  | .brelse h, s, _, s' => ∃ b, s.hold h = some (i, b) ∧
      s' = { s with hold := Function.update s.hold h none }
  | .beginOp, s, _, s' => s.log.admits = true ∧ s' = { s with log := s.log.beginOp }
  | .endOpDec, s, r, s' => r = s.log.endOpDec.1 ∧ s' = { s with log := s.log.endOpDec.2 }
  | .endOpDone, s, _, s' => s' = { s with log := s.log.endOpDone }
  | .logWrite h, s, r, s' => ∃ b, s.hold h = some (i, b) ∧
      match s.log.logWrite b with
      | .error msg => r = .error msg ∧ s' = s
      | .ok (log, fresh) => r = .ok () ∧ s' = { s with
          log := log
          pin := if fresh then Function.update s.pin b (s.pin b + 1) else s.pin }
  | .getLog, s, r, s' => r = s.log ∧ s' = s
  | .setLh lh, s, _, s' => s' = { s with log := { s.log with lh := lh } }
  | .ready, s, _, s' => s' = { s with up := true }
  | .panic _, _, _, _ => False
  | .aux x, s, r, s' => ∃ t, execX i x s.aux r t ∧ s' = { s with aux := t }

/-- What a run shows: the contents a holder puts into a buffer and those given to each
`log_write`, every block write of the disk, every `bunpin`, and power failures. -/
inductive Ev : Type where
  | stored (b : Nat) (d : Block)
  | logged (b : Nat) (d : Block)
  | written (b : Nat) (d : Block)
  | unpinned (b : Nat)
  | crash

def obs : Act X → St ι T → List Ev
  | .setData h d, s =>
    match s.hold h with
    | some (_, b) => [.stored b d]
    | none => []
  | .logWrite h, s =>
    match s.hold h with
    | some (_, b) => match s.log.logWrite b with
      | .ok _ => [.logged b (s.cache b)]
      | .error _ => []
    | none => []
  | .bwrite h, s =>
    match s.hold h with
    | some (_, b) => [.written b (s.cache b)]
    | none => []
  | .bunpin h, s =>
    match s.hold h with
    | some (_, b) => [.unpinned b]
    | none => []
  | _, _ => []

/-- The state right after a power failure: the disk is kept, all memory is lost. -/
def reboot (start size : Nat) (disk : Nat → Block) (t : T) : St ι T where
  disk := disk
  cache := disk
  hold := fun _ => none
  pin := fun _ => 0
  log := { start := start, size := size, outstanding := 0, committing := false, lh := [] }
  up := false
  aux := t

/-- Only the first process runs until recovery is over. -/
def bootPool (first : ι) : ι → Code RX Unit := fun i => if i = first then boot else .ret ()

inductive Env (first : ι) : St ι T → (ι → Code RX Unit) → List Ev → St ι T →
    (ι → Code RX Unit) → Prop where
  | recycle {s : St ι T} {th : ι → Code RX Unit} {b : Nat}
      (free : ∀ h j, s.hold h ≠ some (j, b)) (unpinned : s.pin b = 0) :
      Env first s th [] { s with cache := Function.update s.cache b (s.disk b) } th
  | crash {s : St ι T} {th : ι → Code RX Unit} {t : T} :
      Env first s th [.crash] (reboot s.log.start s.log.size s.disk t) (bootPool first)

/-- The log layer run by any pool of clients: `calls` are the system calls a process may
make, given as client code. -/
def sys (first : ι) (calls : ι → Client RX → Prop) : Sys ι (Act X) (Res RX) (St ι T) Ev where
  exec := exec execX
  obs := fun _ a s => obs a s
  env := Env first
  calls := fun i s p => s.up = true ∧ ∃ c, calls i c ∧ p = c.interp impl

end Machine

end Xv6.Log
