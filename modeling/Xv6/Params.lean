import Xv6.Bytes

/-!
# Constants of `kernel/param.h` and `kernel/fs.h`, process states of `kernel/proc.h`

Only the constants the modelled code uses. Blocks are buffers of `BSIZE` bytes.
-/

namespace Xv6

/-- device number of file system root disk -/
abbrev ROOTDEV : Nat := 1
/-- max # of blocks any FS op writes -/
abbrev MAXOPBLOCKS : Nat := 10
/-- max data blocks in on-disk log -/
abbrev LOGSIZE : Nat := MAXOPBLOCKS * 3
/-- size of disk block cache -/
abbrev NBUF : Nat := MAXOPBLOCKS * 3
/-- block size -/
abbrev BSIZE : Nat := 1024

theorem LOGSIZE_eq : LOGSIZE = 30 := rfl
theorem BSIZE_eq : BSIZE = 1024 := rfl

/-- The contents of one disk block. -/
abbrev Block : Type := Bytes.Buffer BSIZE

/-- `enum procstate` -/
inductive ProcState where
  | unused
  | used
  | sleeping
  | runnable
  | running
  | zombie
deriving DecidableEq, Repr

end Xv6
