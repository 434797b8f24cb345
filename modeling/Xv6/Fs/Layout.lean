import Xv6.Params

/-!
# The on-disk file system format (`kernel/fs.h`)

Superblock, inodes, free map and directory entries as they lie in blocks. A `short` or a
`uint` of the source is kept as the number its bits spell; `toShort` and `toInt` read it
with its sign.
-/

namespace Xv6.Fs

/-- root i-number -/
abbrev ROOTINO : Nat := 1
abbrev NDIRECT : Nat := 12
abbrev NINDIRECT : Nat := BSIZE / 4
abbrev MAXFILE : Nat := NDIRECT + NINDIRECT
/-- size of a `struct dinode` -/
abbrev DINODE : Nat := 64
/-- Inodes per block. -/
abbrev IPB : Nat := BSIZE / DINODE
/-- Bitmap bits per block -/
abbrev BPB : Nat := BSIZE * 8
abbrev DIRSIZ : Nat := 14
/-- size of a `struct dirent` -/
abbrev DIRENT : Nat := 16

abbrev T_DIR : Nat := 1
abbrev T_FILE : Nat := 2
abbrev T_DEVICE : Nat := 3

/-- A 16-bit pattern read as a `short`. -/
def toShort (n : Nat) : Int := if n < 2 ^ 15 then n else n - 2 ^ 16

/-- A 32-bit pattern read as an `int`. -/
def toInt (n : Nat) : Int := if n < 2 ^ 31 then n else n - 2 ^ 32

/-- Conversion of an `int` to `uint`. -/
def toUint (n : Int) : Nat := (n % 2 ^ 32).toNat

/-- Addition of two `uint`s. -/
def addU (a b : Nat) : Nat := (a + b) % 2 ^ 32

/-- The fields of `struct superblock` that the kernel reads after `fsinit`. -/
structure Superblock where
  size : Nat
  ninodes : Nat
  nlog : Nat
  logstart : Nat
  inodestart : Nat
  bmapstart : Nat

/-- Block containing inode i -/
def Superblock.iblock (sb : Superblock) (i : Nat) : Nat := i / IPB + sb.inodestart

/-- Block of free map containing bit for block b -/
def Superblock.bblock (sb : Superblock) (b : Nat) : Nat := b / BPB + sb.bmapstart

/-- `struct dinode` -/
structure Dinode where
  type : Nat
  major : Nat
  minor : Nat
  nlink : Nat
  size : Nat
  addrs : List Nat
deriving DecidableEq

def Dinode.zero : Dinode := ⟨0, 0, 0, 0, 0, List.replicate (NDIRECT + 1) 0⟩

/-- The `k`-th inode of a block. -/
def getDinode (d : Block) (k : Nat) : Dinode where
  type := d.num 2 (DINODE * k)
  major := d.num 2 (DINODE * k + 2)
  minor := d.num 2 (DINODE * k + 4)
  nlink := d.num 2 (DINODE * k + 6)
  size := d.num 4 (DINODE * k + 8)
  addrs := (List.range (NDIRECT + 1)).map fun j => d.num 4 (DINODE * k + 12 + 4 * j)

/-- Consecutive `uint`s from an offset on. -/
def putWords (d : Block) : Nat → List Nat → Block
  | _, [] => d
  | o, w :: ws => putWords (d.putNum 4 o w) (o + 4) ws

def putDinode (d : Block) (k : Nat) (n : Dinode) : Block :=
  let d := d.putNum 2 (DINODE * k) n.type
  let d := d.putNum 2 (DINODE * k + 2) n.major
  let d := d.putNum 2 (DINODE * k + 4) n.minor
  let d := d.putNum 2 (DINODE * k + 6) n.nlink
  let d := d.putNum 4 (DINODE * k + 8) n.size
  putWords d (DINODE * k + 12) n.addrs

/-! ## The free map -/

/-- `bp->data[bi/8] & m` -/
def bit (d : Block) (bi : Nat) : Bool := (d.get (bi / 8)).toNat.testBit (bi % 8)

/-- `bp->data[bi/8] |= m` -/
def setBit (d : Block) (bi : Nat) : Block :=
  d.put (bi / 8) [UInt8.ofNat ((d.get (bi / 8)).toNat ||| 2 ^ (bi % 8))]

/-- `bp->data[bi/8] &= ~m` -/
def clearBit (d : Block) (bi : Nat) : Block :=
  d.put (bi / 8) [UInt8.ofNat ((d.get (bi / 8)).toNat &&& (255 - 2 ^ (bi % 8)))]

/-- The inner loop of `balloc` from bit `bi` on: the first bit that is clear. -/
def freeBit (size : Nat) (d : Block) (b : Nat) : Nat → Nat → Option Nat
  | 0, _ => none
  | k + 1, bi =>
    if b + bi < size then
      if bit d bi then freeBit size d b k (bi + 1) else some bi
    else none

/-! ## Directory entries -/

/-- `struct dirent` -/
structure Dirent where
  inum : Nat
  name : List UInt8
deriving DecidableEq

def getDirent (l : List UInt8) : Dirent := ⟨Bytes.leValue (l.take 2), (l.drop 2).take DIRSIZ⟩

def putDirent (de : Dirent) : List UInt8 := Bytes.leBytes 2 de.inum ++ de.name

/-- `strncmp` of two strings; what lies behind the end of a list is a zero byte. -/
def strncmp : Nat → List UInt8 → List UInt8 → Int
  | 0, _, _ => 0
  | n + 1, p, q =>
    if p.headD 0 ≠ 0 ∧ p.headD 0 = q.headD 0 then strncmp n p.tail q.tail
    else (p.headD 0).toNat - (q.headD 0).toNat

def namecmp (s t : List UInt8) : Int := strncmp DIRSIZ s t

/-- The bytes `strncpy` stores: the string up to its end, then zeros. -/
def strncpy : Nat → List UInt8 → List UInt8
  | 0, _ => []
  | n + 1, s => if s.headD 0 = 0 then List.replicate (n + 1) 0 else s.headD 0 :: strncpy n s.tail

/-! ## Paths -/

def slash : UInt8 := 47

/-- The path behind its next element, and the element, cut off at `DIRSIZ` bytes. -/
def skipelem (path : List UInt8) : Option (List UInt8 × List UInt8) :=
  match path.dropWhile (· = slash) with
  | [] => none
  | s =>
    some ((s.dropWhile (· ≠ slash)).dropWhile (· = slash), (s.takeWhile (· ≠ slash)).take DIRSIZ)

end Xv6.Fs
