import Mathlib
import Xv6.Process.Model
import Xv6.Vm.Code

/-!
# Processes and their memory (`kernel/proc.c`)

The process table with what is private to a process, and the calls that create, copy, grow and
free its memory. One call runs at a time: the locks of the process table are not modelled here, and of
the file system only the references to open files and inodes, the locks of inodes and the calls
within transactions.
-/

namespace Xv6.Vm

open Bytes Fallible
open Xv6.Fs (PGSIZE)
open Xv6.Process (addInt)

abbrev NPROC : Nat := 64

theorem NPROC_pos : 0 < NPROC := Nat.succ_pos 63
abbrev NOFILE : Nat := 16

/-- Saved registers for kernel context switches: `ra`, `sp` and the callee-saved `s0` to `s11`. -/
structure Context where
  ra : Nat
  sp : Nat
  s : Fin 12 → Nat

/-- `struct proc`. A null pointer to a page is 0; files and inodes are numbers in their tables. -/
structure Proc where
  state : ProcState
  chan : Nat
  killed : Int
  xstate : Int
  pid : Int
  parent : Option (Fin NPROC)
  kstack : Nat
  sz : Nat
  pagetable : Nat
  trapframe : Nat
  context : Context
  ofile : Fin NOFILE → Option Nat
  cwd : Option Nat
  name : Buffer 16
  priority : Int

/-- `fileRef f` and `inodeRef ip` are the fields `ref`, `locked ip` says that the inode is locked, and
`outstanding` is the number of file system calls between `begin_op` and `end_op`. -/
structure Kernel where
  mem : Mem
  proc : Fin NPROC → Proc
  nextpid : Int
  fileRef : Nat → Nat
  inodeRef : Nat → Nat
  locked : Nat → Bool
  outstanding : Nat

abbrev Sys (α : Type) : Type := Exec Kernel String α

/-- A call that concerns the memory only. -/
def onMem {α : Type} (x : Code α) : Sys α := fun s =>
  match x s.mem with
  | .ok (a, m) => .ok (a, { s with mem := m })
  | .error e => .error e

def getProc (i : Fin NPROC) : Sys Proc := fun s => .ok (s.proc i, s)

def Kernel.setProc (s : Kernel) (i : Fin NPROC) (p : Proc) : Kernel :=
  { s with proc := Function.update s.proc i p }

def modifyProc (i : Fin NPROC) (f : Proc → Proc) : Sys Unit := fun s =>
  .ok ((), s.setProc i (f (s.proc i)))

/-- A value in a `uint`. -/
def u32 (n : Int) : Nat := (n % 2 ^ 32).toNat

/-! ## Page tables of processes -/

section Memory

variable (K : Symbols)

/-- Create a user page table for a process with the given trapframe, with no user memory. -/
def procPagetable (trapframe : Nat) : Code (Option Nat) := do
  match ← uvmcreate with
  | none => return none
  | some pagetable => do
    let r ← mappages pagetable TRAMPOLINE PGSIZE K.trampoline (PTE_R ||| PTE_X)
    if r < 0 then do
      uvmfree K pagetable 0
      return none
    else do
      let r ← mappages pagetable TRAPFRAME PGSIZE trapframe (PTE_R ||| PTE_W)
      if r < 0 then do
        uvmunmap K pagetable TRAMPOLINE 1 false
        uvmfree K pagetable 0
        return none
      else return some pagetable

/-- Free a process's page table, and free the physical memory it refers to. -/
def procFreepagetable (pagetable sz : Nat) : Code Unit := do
  uvmunmap K pagetable TRAMPOLINE 1 false
  uvmunmap K pagetable TRAPFRAME 1 false
  uvmfree K pagetable sz

/-! ## `growproc` -/

/-- `growproc` for the values of `p->pagetable` and of `p->sz` in a `uint`. -/
def growFrom (me : Fin NPROC) (pagetable sz : Nat) (n : Int) : Sys Int :=
  if 0 < n then do
    let sz ← onMem (uvmalloc K pagetable sz (u32 (sz + n)))
    if u32 sz = 0 then return -1
    else do
      modifyProc me fun p => { p with sz := u32 sz }
      return 0
  else if n < 0 then do
    let sz ← onMem (uvmdealloc K pagetable sz (u32 (sz + n)))
    modifyProc me fun p => { p with sz := u32 sz }
    return 0
  else do
    modifyProc me fun p => { p with sz := sz }
    return 0

/-- Grow or shrink the memory of the process `me` by `n` bytes. -/
def growproc (me : Fin NPROC) (n : Int) : Sys Int := do
  let p ← getProc me
  growFrom K me p.pagetable (u32 p.sz) n

/-- `sys_sbrk`, with its argument as `argint` gives it; the old size is returned as an `int`. -/
def sysSbrk (me : Fin NPROC) (n : Int) : Sys Int := do
  let p ← getProc me
  let r ← growproc K me n
  if r < 0 then return -1 else return toInt p.sz

/-! ## Creating and freeing processes -/

def allocpid : Sys Int := fun s => .ok (s.nextpid, { s with nextpid := addInt s.nextpid 1 })

def freeTrapframe (i : Fin NPROC) : Sys Unit := do
  let p ← getProc i
  if p.trapframe ≠ 0 then onMem (kfree K p.trapframe) else return ()

def freePagetable (i : Fin NPROC) : Sys Unit := do
  let p ← getProc i
  if p.pagetable ≠ 0 then onMem (procFreepagetable K p.pagetable p.sz) else return ()

/-- What `freeproc` leaves of a process. -/
def Proc.freed (p : Proc) : Proc :=
  { p with
    pagetable := 0, sz := 0, pid := 0, parent := none, name := p.name.put 0 [0], chan := 0
    killed := 0, xstate := 0, priority := 0, state := .unused }

/-- free a proc structure and the data hanging from it, including user pages. -/
def freeproc (i : Fin NPROC) : Sys Unit := do
  freeTrapframe K i
  modifyProc i fun p => { p with trapframe := 0 }
  freePagetable K i
  modifyProc i Proc.freed

/-- The first slot that is free. -/
def Kernel.findUnused (s : Kernel) : Option (Fin NPROC) :=
  (List.finRange NPROC).find? fun i => (s.proc i).state = .unused

/-- The context of a new process: it starts at `forkret`, on its own kernel stack. -/
def Context.new (forkret kstack : Nat) : Context := { ra := forkret, sp := kstack + PGSIZE, s := fun _ => 0 }

def allocproc : Sys (Option (Fin NPROC)) := do
  match (← get).findUnused with
  | none => return none
  | some i => do
    let pid ← allocpid
    modifyProc i fun p => { p with pid := pid, state := .used, priority := 5 }
    match ← onMem kalloc with
    | none => do
      modifyProc i fun p => { p with trapframe := 0 }
      freeproc K i
      return none
    | some trapframe => do
      modifyProc i fun p => { p with trapframe := trapframe }
      match ← onMem (procPagetable K trapframe) with
      | none => do
        modifyProc i fun p => { p with pagetable := 0 }
        freeproc K i
        return none
      | some pagetable => do
        modifyProc i fun p =>
          { p with pagetable := pagetable, context := Context.new K.forkret p.kstack }
        return some i

/-! ## `fork` -/

def filedup (f : Nat) : Sys Unit := fun s =>
  if s.fileRef f < 1 then .error "filedup"
  else .ok ((), { s with fileRef := Function.update s.fileRef f (s.fileRef f + 1) })

def idup (ip : Nat) : Sys Unit := fun s =>
  .ok ((), { s with inodeRef := Function.update s.inodeRef ip (s.inodeRef ip + 1) })

/-- The loop of `fork` over the open files. -/
def dupFiles (p : Proc) (np : Fin NPROC) : List (Fin NOFILE) → Sys Unit
  | [] => return ()
  | fd :: fds =>
    match p.ofile fd with
    | none => dupFiles p np fds
    | some f => do
      filedup f
      modifyProc np fun p => { p with ofile := Function.update p.ofile fd (some f) }
      dupFiles p np fds

/-- The size of `struct trapframe`, and where `a0` is in it. -/
abbrev TRAPFRAMESIZE : Nat := 288
abbrev A0 : Nat := 112

/-- `*(np->trapframe) = *(p->trapframe); np->trapframe->a0 = 0;` -/
def copyTrapframe (dst src : Nat) : Code Unit := fun m =>
  .ok ((), (m.put dst ((m.page (src / PGSIZE)).slice (src % PGSIZE) TRAPFRAMESIZE)).put64 (dst + A0) 0)

/-- The loop of `safestrcpy` with room for `n` more bytes before the last. -/
def strFrom (src : Buffer 16) : Nat → Nat → List UInt8
  | 0, _ => [0]
  | n + 1, o => if src.get o = 0 then [0] else src.get o :: strFrom src n (o + 1)

/-- `safestrcpy(dst, src, 16)` -/
def safestrcpy (dst src : Buffer 16) : Buffer 16 := dst.put 0 (strFrom src 15 0)

/-- Create a new process, copying the process `me`. -/
def fork (me : Fin NPROC) : Sys Int := do
  match ← allocproc K with
  | none => return -1
  | some np => do
    let p ← getProc me
    let child ← getProc np
    let r ← onMem (uvmcopy K p.pagetable child.pagetable p.sz)
    if r < 0 then do
      freeproc K np
      return -1
    else do
      modifyProc np fun c => { c with sz := p.sz }
      onMem (copyTrapframe child.trapframe p.trapframe)
      dupFiles p np (List.finRange NOFILE)
      match p.cwd with
      | none => throw "kerneltrap"
      | some cwd => do
        idup cwd
        modifyProc np fun c =>
          { c with
            cwd := some cwd, name := safestrcpy c.name p.name, priority := p.priority
            parent := some me, state := .runnable }
        return child.pid

end Memory

end Xv6.Vm
