import Xv6.Fs.Code
import Xv6.Vm.Proc

/-!
# `exec` (`kernel/exec.c`)

The file is given by its contents, which do not change while its inode is locked. A `goto bad` is an
`.error` that carries what the code at `bad` uses: the new page table and its size.
-/

namespace Xv6.Vm

open Bytes Fallible
open Xv6.Fs (PGSIZE MAXFILE addU)

abbrev MAXARG : Nat := 32
abbrev ELF_MAGIC : Nat := 0x464C457F
abbrev ELF_PROG_LOAD : Nat := 1

/-- The contents of an inode. -/
structure File where
  bytes : List UInt8
  small : bytes.length ≤ MAXFILE * BSIZE

namespace File

def size (file : File) : Nat := file.bytes.length

/-- What `readi` copies to a kernel address. -/
def readi (file : File) (off n : Nat) : List UInt8 :=
  if file.size < off ∨ addU off n < off then []
  else (file.bytes.drop off).take (if file.size < addU off n then file.size - off else n)

end File

/-- A little-endian field of a header. -/
def field (l : List UInt8) (o k : Nat) : Nat := leValue ((l.drop o).take k)

/-- The fields of `struct elfhdr` that are used. -/
structure Elfhdr where
  magic : Nat
  entry : Nat
  phoff : Nat
  phnum : Nat

abbrev ELFHDR : Nat := 64

def Elfhdr.ofBytes (l : List UInt8) : Elfhdr where
  magic := field l 0 4
  entry := field l 24 8
  phoff := field l 32 8
  phnum := field l 56 2

/-- The fields of `struct proghdr` that are used. -/
structure Proghdr where
  type : Nat
  off : Nat
  vaddr : Nat
  filesz : Nat
  memsz : Nat

abbrev PROGHDR : Nat := 56

def Proghdr.ofBytes (l : List UInt8) : Proghdr where
  type := field l 0 4
  off := field l 8 8
  vaddr := field l 16 8
  filesz := field l 32 8
  memsz := field l 40 8

/-! ## Segments -/

/-- The number of bytes that `loadseg` reads in the round for offset `i`. -/
def segLen (sz i : Nat) : Nat := if sz - i < PGSIZE then sz - i else PGSIZE

/-- The loop of `loadseg`. It ends within a round for every page below `MAXVA`: `walkaddr` finds no
page for more. -/
def loadsegFrom (pagetable va : Nat) (file : File) (offset sz : Nat) : (rounds i : Nat) → Code Int
  | 0, _ => throw "loadseg: address should exist"
  | rounds + 1, i =>
    if i < sz then do
      let pa ← walkaddr pagetable ((va + i) % 2 ^ 64)
      if pa = 0 then throw "loadseg: address should exist"
      else do
        store pa (file.readi (addU offset i) (segLen sz i))
        if (file.readi (addU offset i) (segLen sz i)).length ≠ segLen sz i then return -1
        else loadsegFrom pagetable va file offset sz rounds (addU i PGSIZE)
    else return 0

/-- Load a program segment; `offset` and `sz` are `uint`s. -/
def loadseg (pagetable va : Nat) (file : File) (offset sz : Nat) : Code Int :=
  loadsegFrom pagetable va file offset sz (NPAGES + 1) 0

section Load

variable (K : Symbols)

/-- The body of the loop over the program headers: the size after it, or at `goto bad`. -/
def loadHeader (pagetable : Nat) (file : File) (ph : Proghdr) (sz : Nat) : Code (Except Nat Nat) :=
  if ph.type ≠ ELF_PROG_LOAD then return .ok sz
  else if ph.memsz < ph.filesz then return .error sz
  else if (ph.vaddr + ph.memsz) % 2 ^ 64 < ph.vaddr then return .error sz
  else do
    let sz1 ← uvmalloc K pagetable sz ((ph.vaddr + ph.memsz) % 2 ^ 64)
    if sz1 = 0 then return .error sz
    else if ph.vaddr % PGSIZE ≠ 0 then return .error sz1
    else do
      let r ← loadseg pagetable ph.vaddr file (ph.off % 2 ^ 32) (ph.filesz % 2 ^ 32)
      if r < 0 then return .error sz1 else return .ok sz1

/-- The loop over the program headers; `off` is an `int`, given by its bits. -/
def loadHeaders (pagetable : Nat) (file : File) : (left off sz : Nat) → Code (Except Nat Nat)
  | 0, _, sz => return .ok sz
  | left + 1, off, sz =>
    if (file.readi off PROGHDR).length ≠ PROGHDR then return .error sz
    else do
      match ← loadHeader K pagetable file (.ofBytes (file.readi off PROGHDR)) sz with
      | .error sz => return .error sz
      | .ok sz => loadHeaders pagetable file left (addU off PROGHDR) sz

/-! ## The stack -/

/-- A way to subtract from `sp`. -/
abbrev Subtract : Type := Nat → Nat → Code Nat

/-- The subtraction of 64-bit numbers. -/
def wrapping : Subtract := fun a b => return (a + 2 ^ 64 - b % 2 ^ 64) % 2 ^ 64

/-- Two pages at the next page boundary, the first of them inaccessible. -/
def stackPages (pagetable sz : Nat) : Code (Except Nat Nat) := do
  let sz1 ← uvmalloc K pagetable (pgroundup sz) ((pgroundup sz + 2 * PGSIZE) % 2 ^ 64)
  if sz1 = 0 then return .error (pgroundup sz)
  else do
    let guard ← wrapping sz1 (2 * PGSIZE)
    uvmclear pagetable guard
    return .ok sz1

end Load

section Args

variable (sub : Subtract)

/-- `sp -= n; sp -= sp % 16;` -/
def lower (sp n : Nat) : Code Nat := do
  let sp ← sub sp n
  sub sp (sp % 16)

/-- The loop over the arguments, with the part of `ustack` that is filled in. -/
def pushStrings (pagetable stackbase : Nat) :
    (argc : Nat) → (argv : List (List UInt8)) → (sp : Nat) → (ustack : List Nat) → Code (Option (Nat × List Nat))
  | _, [], sp, ustack => return some (sp, ustack)
  | argc, s :: argv, sp, ustack =>
    if MAXARG ≤ argc then return none
    else do
      let sp ← lower sub sp (s.length + 1)
      if sp < stackbase then return none
      else do
        let r ← copyout pagetable sp (s ++ [0])
        if r < 0 then return none
        else pushStrings pagetable stackbase (argc + 1) argv sp (ustack ++ [sp])

/-- Push the argument strings and the array of pointers to them: the last `sp`. -/
def pushArgs (pagetable sz : Nat) (argv : List (List UInt8)) : Code (Option Nat) := do
  let stackbase ← sub sz PGSIZE
  match ← pushStrings sub pagetable stackbase 0 argv sz [] with
  | none => return none
  | some (sp, ustack) => do
    let sp ← lower sub sp ((argv.length + 1) * 8)
    if sp < stackbase then return none
    else do
      let r ← copyout pagetable sp ((ustack ++ [0]).flatMap (leBytes 8))
      if r < 0 then return none else return some sp

end Args

/-! ## `exec` -/

def beginOp : Sys Unit := fun s => .ok ((), { s with outstanding := s.outstanding + 1 })

def endOp : Sys Unit := fun s => .ok ((), { s with outstanding := s.outstanding - 1 })

/-- The reference that `namei` takes to the inode it returns. -/
def iget (ip : Nat) : Sys Unit := fun s =>
  .ok ((), { s with inodeRef := Function.update s.inodeRef ip (s.inodeRef ip + 1) })

def ilock (ip : Nat) : Sys Unit := fun s => .ok ((), { s with locked := Function.update s.locked ip true })

def iunlockput (ip : Nat) : Sys Unit := fun s =>
  .ok ((), { s with
    locked := Function.update s.locked ip false
    inodeRef := Function.update s.inodeRef ip (s.inodeRef ip - 1) })

/-- The name of a program: what follows the last slash. -/
def lastName (path : List UInt8) : List UInt8 := path.foldl (fun last c => if c = 47 then [] else last ++ [c]) []

/-- Where `struct trapframe` has `epc`, `sp` and `a1`. -/
abbrev EPC : Nat := 24
abbrev SP : Nat := 48
abbrev A1 : Nat := 120

section Exec

variable (K : Symbols) (sub : Subtract) (me : Fin NPROC)

/-- `if(pagetable) proc_freepagetable(pagetable, sz);` -/
def freeMade : (made : Option (Nat × Nat)) → Sys Unit
  | none => return ()
  | some (pagetable, sz) => onMem (procFreepagetable K pagetable sz)

/-- `if(ip) { iunlockput(ip); end_op(); }` -/
def dropInode : (ip : Option Nat) → Sys Unit
  | none => return ()
  | some ip => do
    iunlockput ip
    endOp

/-- The code at `bad`. -/
def execBad (made : Option (Nat × Nat)) (ip : Option Nat) : Sys Int := do
  freeMade K made
  dropInode ip
  return -1

/-- Load the program: the page table, its size and the entry point. -/
def execLoad (file : File) : Sys (Except (Option (Nat × Nat)) (Nat × Nat × Nat)) :=
  if (file.readi 0 ELFHDR).length ≠ ELFHDR then return .error none
  else if (Elfhdr.ofBytes (file.readi 0 ELFHDR)).magic ≠ ELF_MAGIC then return .error none
  else do
    let p ← getProc me
    match ← onMem (procPagetable K p.trapframe) with
    | none => return .error none
    | some pagetable => do
      match ← onMem (loadHeaders K pagetable file (Elfhdr.ofBytes (file.readi 0 ELFHDR)).phnum
          ((Elfhdr.ofBytes (file.readi 0 ELFHDR)).phoff % 2 ^ 32) 0) with
      | .error sz => return .error (some (pagetable, sz))
      | .ok sz => return .ok (pagetable, sz, (Elfhdr.ofBytes (file.readi 0 ELFHDR)).entry)

/-- Commit to the user image. -/
def execCommit (path : List UInt8) (pagetable sz sp entry : Nat) : Sys Unit := do
  let p ← getProc me
  onMem (store64 (p.trapframe + A1) sp)
  modifyProc me fun p =>
    { p with name := p.name.put 0 ((lastName path).take 15 ++ [0]), pagetable := pagetable, sz := sz }
  onMem (store64 (p.trapframe + EPC) entry)
  onMem (store64 (p.trapframe + SP) sp)
  onMem (procFreepagetable K p.pagetable p.sz)

/-- Push the arguments and commit. -/
def execArgs (path : List UInt8) (argv : List (List UInt8)) (pagetable sz entry : Nat) : Sys Int := do
  match ← onMem (pushArgs sub pagetable sz argv) with
  | none => execBad K (some (pagetable, sz)) none
  | some sp => do
    execCommit K me path pagetable sz sp entry
    return argv.length

/-- What follows the loading of the program. -/
def execLoaded (path : List UInt8) (argv : List (List UInt8)) (ip : Nat) :
    Except (Option (Nat × Nat)) (Nat × Nat × Nat) → Sys Int
  | .error made => execBad K made (some ip)
  | .ok (pagetable, sz, entry) => do
    iunlockput ip
    endOp
    match ← onMem (stackPages K pagetable sz) with
    | .error sz => execBad K (some (pagetable, sz)) none
    | .ok sz => execArgs K sub me path argv pagetable sz entry

/-- `exec` for a way to subtract from `sp`; `found` is what `namei(path)` finds. -/
def execWith (found : Option (Nat × File)) (path : List UInt8) (argv : List (List UInt8)) : Sys Int := do
  beginOp
  match found with
  | none => do
    endOp
    return -1
  | some (ip, file) => do
    iget ip
    ilock ip
    let loaded ← execLoad K me file
    execLoaded K sub me path argv ip loaded

def exec (found : Option (Nat × File)) (path : List UInt8) (argv : List (List UInt8)) : Sys Int :=
  execWith K wrapping me found path argv

end Exec

end Xv6.Vm
