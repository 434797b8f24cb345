import Mathlib
import Xv6.Fallible
import Xv6.Fs.Layout

/-!
# The program that makes a file system (`mkfs/mkfs.c`)

The image file is a sequence of sectors; reading a sector behind its end fails. A program
stops with an error where the source calls `die` or an assertion fails. What the operating
system decides is input: the bytes that successive calls of `read` on an input file return.
-/

namespace Xv6.Mkfs

open Fs Fallible

/-- size of file system in blocks -/
abbrev FSSIZE : Nat := 1000
abbrev NINODES : Nat := 200
abbrev FSMAGIC : Nat := 0x10203040

def nbitmap : Nat := FSSIZE / (BSIZE * 8) + 1
def ninodeblocks : Nat := NINODES / IPB + 1
def nlog : Nat := LOGSIZE
/-- Number of meta blocks (boot, sb, nlog, inode, bitmap) -/
def nmeta : Nat := 2 + nlog + ninodeblocks + nbitmap
/-- Number of data blocks -/
def nblocks : Nat := FSSIZE - nmeta

def sb : Superblock where
  size := FSSIZE
  ninodes := NINODES
  nlog := nlog
  logstart := 2
  inodestart := 2 + nlog
  bmapstart := 2 + nlog + ninodeblocks

/-- The image file, and the counters `freeinode` and `freeblock`. The number of arguments
is an `int`, so the counters do not wrap. -/
structure Img where
  sect : Nat → Block
  len : Nat
  freeinode : Nat
  freeblock : Nat

abbrev Mk (α : Type) : Type := Exec Img String α

/-- The sector at byte `sec * BSIZE`, a product of `uint`s. -/
def sector (sec : Nat) : Nat := sec * BSIZE % 2 ^ 32 / BSIZE

def wsect (sec : Nat) (buf : Block) : Mk Unit := fun m =>
  .ok ((), { m with sect := Function.update m.sect (sector sec) buf
                    len := max m.len (sector sec + 1) })

def rsect (sec : Nat) : Mk Block := fun m =>
  if sector sec < m.len then .ok (m.sect (sector sec), m) else .error "read"

def winode (inum : Nat) (ip : Dinode) : Mk Unit := do
  let buf ← rsect (sb.iblock inum)
  wsect (sb.iblock inum) (putDinode buf (inum % IPB) ip)

def rinode (inum : Nat) : Mk Dinode := do
  let buf ← rsect (sb.iblock inum)
  return getDinode buf (inum % IPB)

/-- `freeinode++` -/
def nextInode : Mk Nat := fun m => .ok (m.freeinode, { m with freeinode := m.freeinode + 1 })

/-- `freeblock++` -/
def nextBlock : Mk Nat := fun m => .ok (m.freeblock, { m with freeblock := m.freeblock + 1 })

def ialloc (type : Nat) : Mk Nat := do
  let inum ← nextInode
  winode inum { Dinode.zero with type := type, nlink := 1 }
  return inum

/-- The loop of `balloc`. -/
def markUsed (buf : Block) : Nat → Block
  | 0 => buf
  | i + 1 => setBit (markUsed buf i) i

def balloc (used : Nat) : Mk Unit :=
  if used < BSIZE * 8 then wsect sb.bmapstart (markUsed Bytes.Buffer.zero used)
  else throw "used < BSIZE*8"

/-- The indirect block of an inode, allocated if necessary. -/
def indirectOf (din : Dinode) : Mk Dinode :=
  if din.addrs.getD NDIRECT 0 = 0 then do
    let b ← nextBlock
    return { din with addrs := din.addrs.set NDIRECT b }
  else return din

/-- The block `x` of `iappend` for the block `fbn` of a file. -/
def blockOf (din : Dinode) (fbn : Nat) : Mk (Dinode × Nat) :=
  if fbn < NDIRECT then
    if din.addrs.getD fbn 0 = 0 then do
      let b ← nextBlock
      return ({ din with addrs := din.addrs.set fbn b }, b)
    else return (din, din.addrs.getD fbn 0)
  else do
    let din ← indirectOf din
    let indirect ← rsect (din.addrs.getD NDIRECT 0)
    if indirect.num 4 (4 * (fbn - NDIRECT)) = 0 then do
      let b ← nextBlock
      wsect (din.addrs.getD NDIRECT 0) (indirect.putNum 4 (4 * (fbn - NDIRECT)) b)
      return (din, b)
    else return (din, indirect.num 4 (4 * (fbn - NDIRECT)))

/-- The loop of `iappend`: each round stores at least one byte. -/
def iappendFrom : Nat → Dinode → (off : Nat) → (p : List UInt8) → Mk (Dinode × Nat)
  | 0, din, off, _ => return (din, off)
  | k + 1, din, off, p =>
    if p = [] then return (din, off)
    else if off / BSIZE < MAXFILE then do
      let (din, x) ← blockOf din (off / BSIZE)
      let n1 := min p.length ((off / BSIZE + 1) * BSIZE - off)
      let buf ← rsect x
      wsect x (buf.put (off - off / BSIZE * BSIZE) (p.take n1))
      iappendFrom k din (off + n1) (p.drop n1)
    else throw "fbn < MAXFILE"

def iappend (inum : Nat) (p : List UInt8) : Mk Unit := do
  let din ← rinode inum
  let (din, off) ← iappendFrom p.length din din.size p
  winode inum { din with size := off }

/-- An argument of the program: its text, and what the calls of `read` return until one
returns nothing. -/
structure Input where
  name : List UInt8
  chunks : List { p : List UInt8 // 0 < p.length ∧ p.length ≤ BSIZE }

def Input.bytes (f : Input) : List UInt8 := (f.chunks.map Subtype.val).flatten

/-- `"user/"` -/
def userDir : List UInt8 := [117, 115, 101, 114, 47]
/-- `'_'` -/
def underscore : UInt8 := 95
/-- `'.'` -/
def dot : UInt8 := 46

/-- The name without "user/". -/
def shortname (name : List UInt8) : List UInt8 :=
  if strncmp 5 name userDir = 0 then name.drop 5 else name

/-- Skip leading _ in name when writing to file system. -/
def skipUnderscore (name : List UInt8) : List UInt8 :=
  if name.head? = some underscore then name.tail else name

/-- The loop that copies an input file. -/
def copyFile (inum : Nat) : List { p : List UInt8 // 0 < p.length ∧ p.length ≤ BSIZE } → Mk Unit
  | [] => return ()
  | p :: ps => do
    iappend inum p.val
    copyFile inum ps

/-- One round of the loop over the arguments. -/
def addFile (rootino : Nat) (f : Input) : Mk Unit :=
  if slash ∈ shortname f.name then throw "index(shortname, '/') == 0"
  else do
    let inum ← ialloc T_FILE
    iappend rootino (putDirent ⟨inum, strncpy DIRSIZ (skipUnderscore (shortname f.name))⟩)
    copyFile inum f.chunks

def addFiles (rootino : Nat) : List Input → Mk Unit
  | [] => return ()
  | f :: fs => do
    addFile rootino f
    addFiles rootino fs

/-- The first `n` blocks are zeroed. -/
def zeroBlocks : Nat → Mk Unit
  | 0 => return ()
  | n + 1 => do
    zeroBlocks n
    wsect n Bytes.Buffer.zero

/-- The superblock in a block. -/
def putSuperblock (buf : Block) : Block :=
  putWords buf 0 [FSMAGIC, sb.size, nblocks, sb.ninodes, sb.nlog, sb.logstart, sb.inodestart,
    sb.bmapstart]

/-- fix size of root inode dir -/
def fixRoot (rootino : Nat) : Mk Unit := do
  let din ← rinode rootino
  winode rootino { din with size := (din.size / BSIZE + 1) * BSIZE }

def getFreeblock : Mk Nat := fun m => .ok (m.freeblock, m)

def main (files : List Input) : Mk Unit := do
  zeroBlocks FSSIZE
  wsect 1 (putSuperblock Bytes.Buffer.zero)
  let rootino ← ialloc T_DIR
  if rootino = ROOTINO then do
    iappend rootino (putDirent ⟨rootino, strncpy DIRSIZ [dot]⟩)
    iappend rootino (putDirent ⟨rootino, strncpy DIRSIZ [dot, dot]⟩)
    addFiles rootino files
    fixRoot rootino
    let used ← getFreeblock
    balloc used
  else throw "rootino == ROOTINO"

/-- The program before its first statement: the image file is empty. -/
def Img.start : Img := ⟨fun _ => Bytes.Buffer.zero, 0, 1, nmeta⟩

/-- The image on `exit(0)`. -/
def mkfs (files : List Input) : Except String Img := (main files Img.start).map Prod.snd

end Xv6.Mkfs
