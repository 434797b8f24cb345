import Xv6.Fs.Layout
import Xv6.Fs.Memory
import Xv6.Log.Model

/-!
# The state of the file system in memory

The inode table, the file table and what the file system keeps of a process. `FsAct` is
what the code of fs.c, file.c and sysfile.c performs atomically on it: a critical section
of `itable.lock` or `ftable.lock`, taking or releasing the sleep-lock of an inode, an access
to an inode by its holder, an access of a process to its own descriptors, current directory
and memory.
-/

namespace Xv6.Fs

open Log

/-- open files per process -/
abbrev NOFILE : Nat := 16
/-- open files per system -/
abbrev NFILE : Nat := 100
/-- maximum number of active i-nodes -/
abbrev NINODE : Nat := 50
/-- maximum major device number -/
abbrev NDEV : Nat := 10
/-- maximum file path name -/
abbrev MAXPATH : Nat := 128

/-- A pointer into `itable.inode`. -/
abbrev IPtr : Type := Fin NINODE

/-- A pointer into `ftable.file`. -/
abbrev FPtr : Type := Fin NFILE

/-- `struct inode`; the holder of the sleep-lock stands for `lock.locked` and `lock.pid`. -/
structure Inode (ι : Type) where
  dev : Nat
  inum : Nat
  ref : Int
  lock : Option ι
  valid : Bool
  din : Dinode

inductive FileType where
  | none
  | pipe
  | inode
  | device
deriving DecidableEq

/-- `struct file` -/
structure File where
  type : FileType
  ref : Int
  readable : Bool
  writable : Bool
  pipe : Nat
  ip : IPtr
  off : Nat
  major : Nat

/-- `enum procstate`; a process that can run is `running`, whether it does or sleeps. -/
inductive ProcState where
  | unused
  | used
  | running
  | zombie
deriving DecidableEq

/-- `struct proc`, as far as the file system uses it. -/
structure Proc where
  state : ProcState
  cwd : Option IPtr
  ofile : Fin NOFILE → Option FPtr
  mem : UMem

structure FsSt (ι : Type) where
  inode : IPtr → Inode ι
  file : FPtr → File
  proc : ι → Proc

/-- What a process sees of an inode: its device and number, and the fields the sleep-lock
protects. -/
structure Info where
  dev : Nat
  inum : Nat
  valid : Bool
  din : Dinode

def Inode.info {ι : Type} (n : Inode ι) : Info := ⟨n.dev, n.inum, n.valid, n.din⟩

/-- `sizeof(struct stat)` -/
abbrev STATSIZE : Nat := 24

inductive FsAct (ι : Type) : Type where
  /-- A system call begins; user code has run since the last one. -/
  | enter
  /-- The process is a zombie from now on. -/
  | zombie
  /-- `fork` takes an unused process, gives it back, hands it a file or its current
  directory, lets it run. -/
  | allocproc
  | freeproc (np : ι)
  | childFd (np : ι) (fd : Fin NOFILE) (f : FPtr)
  | childCwd (np : ι) (ip : Option IPtr)
  | childRun (np : ι)
  | iget (dev inum : Nat)
  | idup (ip : IPtr)
  | refOk (ip : IPtr)
  | acquiresleep (ip : IPtr)
  | holdingsleep (ip : IPtr)
  | releasesleep (ip : IPtr)
  | info (ip : IPtr)
  | setDin (ip : IPtr) (din : Dinode)
  | setValid (ip : IPtr) (valid : Bool)
  /-- `iput` up to the end of its first critical section; it answers whether the inode has
  to be freed. -/
  | iputTest (ip : IPtr)
  | iputDrop (ip : IPtr)
  | filealloc
  | filedup (f : FPtr)
  /-- The critical section of `fileclose`; the answer is the file if that was its last
  reference. -/
  | fileclose (f : FPtr)
  | getFile (f : FPtr)
  /-- The fields of a file other than `ref`. -/
  | setFile (f : FPtr) (x : File)
  | setOff (f : FPtr) (off : Nat)
  | cwd
  | setCwd (ip : Option IPtr)
  | getFd (fd : Fin NOFILE)
  | setFd (fd : Fin NOFILE) (f : Option FPtr)
  | argstr (addr : Nat)
  /-- `copyin` into a buffer the process holds, from offset `o` of it on. -/
  | copyin (bp : Handle) (o srcva len : Nat)
  | copyout (dstva : Nat) (src : List UInt8)
  /-- A read or write of a pipe or device, or the closing of a pipe. -/
  | other
  /-- An allocation of memory or a transfer of arguments by `exec`. -/
  | vm
  /-- `exec` replaces the user memory. -/
  | image
  /-- What the kernel stack holds where a function puts its `struct stat`. -/
  | stack

def FsRes {ι : Type} : FsAct ι → Type
  | .allocproc => Option ι
  | .iget _ _ => Option IPtr
  | .refOk _ | .holdingsleep _ | .iputTest _ | .vm | .copyout _ _ => Bool
  | .info _ => Info
  | .filealloc => Option FPtr
  | .filedup _ => Bool
  | .fileclose _ => Option (Option File)
  | .getFile _ => File
  | .cwd => Option IPtr
  | .getFd _ => Option FPtr
  | .argstr _ => Option (List UInt8)
  | .copyin _ _ _ _ => List UInt8 × Bool
  | .other => Int
  | .stack => Bytes.Buffer STATSIZE
  | .enter | .zombie | .idup _ | .acquiresleep _ | .releasesleep _ | .setDin _ _ => Unit
  | .setValid _ _ | .iputDrop _ | .setFile _ _ | .setOff _ _ | .setCwd _ => Unit
  | .setFd _ _ | .image | .freeproc _ | .childFd _ _ _ | .childCwd _ _ | .childRun _ => Unit

/-! ## Critical sections of `itable.lock` and `ftable.lock` -/

section Sections

variable {ι : Type} [DecidableEq ι]

def FsSt.setInode (t : FsSt ι) (ip : IPtr) (n : Inode ι) : FsSt ι :=
  { t with inode := Function.update t.inode ip n }

def FsSt.setFile (t : FsSt ι) (f : FPtr) (x : File) : FsSt ι :=
  { t with file := Function.update t.file f x }

def FsSt.setProc (t : FsSt ι) (i : ι) (p : Proc) : FsSt ι :=
  { t with proc := Function.update t.proc i p }

/-- `iget`; no answer is the panic. -/
def FsSt.iget (t : FsSt ι) (dev inum : Nat) : Option IPtr × FsSt ι :=
  match (List.finRange NINODE).find? fun ip =>
      decide (0 < (t.inode ip).ref) && (t.inode ip).dev == dev && (t.inode ip).inum == inum with
  | some ip => (some ip, t.setInode ip { t.inode ip with ref := (t.inode ip).ref + 1 })
  | none =>
    -- Recycle an inode entry.
    match (List.finRange NINODE).find? fun ip => (t.inode ip).ref == 0 with
    | some ip => (some ip, t.setInode ip { t.inode ip with dev := dev, inum := inum, ref := 1,
                                                           valid := false })
    | none => (none, t)

/-- inode has no links and no other references -/
def Inode.unused (n : Inode ι) : Bool := n.ref == 1 && n.valid && n.din.nlink == 0

def FsSt.filealloc (t : FsSt ι) : Option FPtr × FsSt ι :=
  match (List.finRange NFILE).find? fun f => (t.file f).ref == 0 with
  | some f => (some f, t.setFile f { t.file f with ref := 1 })
  | none => (none, t)

/-- The critical section of `fileclose`; no answer is the panic. -/
def FsSt.fileclose (t : FsSt ι) (f : FPtr) : Option (Option File) × FsSt ι :=
  if (t.file f).ref < 1 then (none, t)
  else if 0 < (t.file f).ref - 1 then
    (some none, t.setFile f { t.file f with ref := (t.file f).ref - 1 })
  else (some (some (t.file f)), t.setFile f { t.file f with ref := 0, type := .none })

end Sections

/-! ## The actions -/

section Exec

variable {ι : Type} [DecidableEq ι]

/-- One action of process `i`. -/
def fsExec (i : ι) : (x : FsAct ι) → FsSt ι → FsRes x → FsSt ι → Prop
  | .enter, t, _, t' => (t.proc i).state = .running ∧
      ∃ m, t' = t.setProc i { t.proc i with mem := m }
  | .zombie, t, _, t' => t' = t.setProc i { t.proc i with state := .zombie }
  | .allocproc, t, r, t' =>
    match r with
    | none => t' = t
    | some np => (t.proc np).state = .unused ∧
        t' = t.setProc np { t.proc np with state := .used }
  | .freeproc np, t, _, t' => t' = t.setProc np { t.proc np with state := .unused }
  | .childFd np fd f, t, _, t' =>
      t' = t.setProc np { t.proc np with ofile := Function.update (t.proc np).ofile fd (some f) }
  | .childCwd np ip, t, _, t' => t' = t.setProc np { t.proc np with cwd := ip }
  | .childRun np, t, _, t' => t' = t.setProc np { t.proc np with state := .running }
  | .iget dev inum, t, r, t' => r = (t.iget dev inum).1 ∧ t' = (t.iget dev inum).2
  | .idup ip, t, _, t' => t' = t.setInode ip { t.inode ip with ref := (t.inode ip).ref + 1 }
  | .refOk ip, t, r, t' => r = decide (1 ≤ (t.inode ip).ref) ∧ t' = t
  | .acquiresleep ip, t, _, t' => (t.inode ip).lock = none ∧
      t' = t.setInode ip { t.inode ip with lock := some i }
  | .holdingsleep ip, t, r, t' => r = decide ((t.inode ip).lock = some i) ∧ t' = t
  | .releasesleep ip, t, _, t' => t' = t.setInode ip { t.inode ip with lock := none }
  | .info ip, t, r, t' => r = (t.inode ip).info ∧ t' = t
  | .setDin ip din, t, _, t' => t' = t.setInode ip { t.inode ip with din := din }
  | .setValid ip valid, t, _, t' => t' = t.setInode ip { t.inode ip with valid := valid }
  | .iputTest ip, t, r, t' =>
      if (t.inode ip).unused then
        (t.inode ip).lock = none ∧ r = true ∧ t' = t.setInode ip { t.inode ip with lock := some i }
      else r = false ∧ t' = t.setInode ip { t.inode ip with ref := (t.inode ip).ref - 1 }
  | .iputDrop ip, t, _, t' => t' = t.setInode ip { t.inode ip with ref := (t.inode ip).ref - 1 }
  | .filealloc, t, r, t' => r = t.filealloc.1 ∧ t' = t.filealloc.2
  | .filedup f, t, r, t' =>
      if (t.file f).ref < 1 then r = false ∧ t' = t
      else r = true ∧ t' = t.setFile f { t.file f with ref := (t.file f).ref + 1 }
  | .fileclose f, t, r, t' => r = (t.fileclose f).1 ∧ t' = (t.fileclose f).2
  | .getFile f, t, r, t' => r = t.file f ∧ t' = t
  | .setFile f x, t, _, t' => t' = t.setFile f { x with ref := (t.file f).ref }
  | .setOff f off, t, _, t' => t' = t.setFile f { t.file f with off := off }
  | .cwd, t, r, t' => r = (t.proc i).cwd ∧ t' = t
  | .setCwd ip, t, _, t' => t' = t.setProc i { t.proc i with cwd := ip }
  | .getFd fd, t, r, t' => r = (t.proc i).ofile fd ∧ t' = t
  | .setFd fd f, t, _, t' =>
      t' = t.setProc i { t.proc i with ofile := Function.update (t.proc i).ofile fd f }
  | .argstr addr, t, r, t' => r = copyinstr (t.proc i).mem addr MAXPATH ∧ t' = t
  | .copyin _ _ srcva len, t, r, t' => r = copyin (t.proc i).mem srcva len ∧ t' = t
  | .copyout dstva src, t, r, t' => r = (copyout (t.proc i).mem dstva src).2 ∧
      t' = t.setProc i { t.proc i with mem := (copyout (t.proc i).mem dstva src).1 }
  | .other, t, _, t' => ∃ m, t' = t.setProc i { t.proc i with mem := m }
  | .vm, t, _, t' => t' = t
  | .image, t, _, t' => ∃ m, t' = t.setProc i { t.proc i with mem := m }
  | .stack, t, _, t' => t' = t

/-- `fsExec` as a function, for one choice where it leaves a choice: user memory does not
change by itself, there is no process to fork, other parts of the kernel succeed. -/
def fsStep (i : ι) : (x : FsAct ι) → FsSt ι → Option (FsRes x × FsSt ι)
  | .enter, t =>
    match (t.proc i).state with
    | .running => some ((), t.setProc i (t.proc i))
    | _ => none
  | .zombie, t => some ((), t.setProc i { t.proc i with state := .zombie })
  | .allocproc, t => some (none, t)
  | .freeproc np, t => some ((), t.setProc np { t.proc np with state := .unused })
  | .childFd np fd f, t =>
      some ((), t.setProc np { t.proc np with
        ofile := Function.update (t.proc np).ofile fd (some f) })
  | .childCwd np ip, t => some ((), t.setProc np { t.proc np with cwd := ip })
  | .childRun np, t => some ((), t.setProc np { t.proc np with state := .running })
  | .iget dev inum, t => some (t.iget dev inum)
  | .idup ip, t => some ((), t.setInode ip { t.inode ip with ref := (t.inode ip).ref + 1 })
  | .refOk ip, t => some (decide (1 ≤ (t.inode ip).ref), t)
  | .acquiresleep ip, t =>
    match (t.inode ip).lock with
    | none => some ((), t.setInode ip { t.inode ip with lock := some i })
    | some _ => none
  | .holdingsleep ip, t => some (decide ((t.inode ip).lock = some i), t)
  | .releasesleep ip, t => some ((), t.setInode ip { t.inode ip with lock := none })
  | .info ip, t => some ((t.inode ip).info, t)
  | .setDin ip din, t => some ((), t.setInode ip { t.inode ip with din := din })
  | .setValid ip valid, t => some ((), t.setInode ip { t.inode ip with valid := valid })
  | .iputTest ip, t =>
    match (t.inode ip).unused, (t.inode ip).lock with
    | true, none => some (true, t.setInode ip { t.inode ip with lock := some i })
    | true, some _ => none
    | false, _ => some (false, t.setInode ip { t.inode ip with ref := (t.inode ip).ref - 1 })
  | .iputDrop ip, t => some ((), t.setInode ip { t.inode ip with ref := (t.inode ip).ref - 1 })
  | .filealloc, t => some t.filealloc
  | .filedup f, t =>
      if (t.file f).ref < 1 then some (false, t)
      else some (true, t.setFile f { t.file f with ref := (t.file f).ref + 1 })
  | .fileclose f, t => some (t.fileclose f)
  | .getFile f, t => some (t.file f, t)
  | .setFile f x, t => some ((), t.setFile f { x with ref := (t.file f).ref })
  | .setOff f off, t => some ((), t.setFile f { t.file f with off := off })
  | .cwd, t => some ((t.proc i).cwd, t)
  | .setCwd ip, t => some ((), t.setProc i { t.proc i with cwd := ip })
  | .getFd fd, t => some ((t.proc i).ofile fd, t)
  | .setFd fd f, t =>
      some ((), t.setProc i { t.proc i with ofile := Function.update (t.proc i).ofile fd f })
  | .argstr addr, t => some (copyinstr (t.proc i).mem addr MAXPATH, t)
  | .copyin _ _ srcva len, t => some (copyin (t.proc i).mem srcva len, t)
  | .copyout dstva src, t => some ((copyout (t.proc i).mem dstva src).2,
      t.setProc i { t.proc i with mem := (copyout (t.proc i).mem dstva src).1 })
  | .other, t => some ((0 : Int), t.setProc i (t.proc i))
  | .vm, t => some (true, t)
  | .image, t => some ((), t.setProc i (t.proc i))
  | .stack, t => some (Bytes.Buffer.zero, t)

theorem fsStep_sound {i : ι} {x : FsAct ι} {t t' : FsSt ι} {r : FsRes x}
    (h : fsStep i x t = some (r, t')) : fsExec i x t r t' := by
  cases x with
  | enter =>
    simp only [fsStep] at h
    split at h
    · cases h
      exact ⟨by assumption, _, rfl⟩
    · cases h
  | acquiresleep ip =>
    simp only [fsStep] at h
    split at h
    · cases h
      exact ⟨by assumption, rfl⟩
    · cases h
  | iputTest ip =>
    simp only [fsStep] at h
    simp only [fsExec]
    split at h
    · rename_i unused free
      cases h
      rw [if_pos unused]
      exact ⟨free, rfl, rfl⟩
    · cases h
    · rename_i used
      cases h
      rw [if_neg (by simp [used])]
      exact ⟨rfl, rfl⟩
  | filedup f =>
    simp only [fsStep] at h
    simp only [fsExec]
    split at h
    · cases h
      rw [if_pos ‹_›]
      exact ⟨rfl, rfl⟩
    · cases h
      rw [if_neg ‹_›]
      exact ⟨rfl, rfl⟩
  | iget | filealloc | fileclose =>
    have both := Option.some.inj h
    exact ⟨(congrArg Prod.fst both).symm, (congrArg Prod.snd both).symm⟩
  | other | image =>
    cases h
    exact ⟨_, rfl⟩
  | zombie | freeproc | childFd | childCwd | childRun | idup | releasesleep | setDin | setValid
  | iputDrop | setFile | setOff | setCwd | setFd | vm | stack | allocproc =>
    cases h
    rfl
  | _ =>
    cases h
    exact ⟨rfl, rfl⟩

end Exec

end Xv6.Fs
