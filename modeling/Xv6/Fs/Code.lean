import Xv6.Fs.State

/-!
# The file system (`kernel/fs.c`)

The code of fs.c over the actions of the log layer (`bread`, `log_write`, `begin_op`, ...)
and of the file system. A loop of the source is a recursion on a number of rounds it cannot
exceed. There is one device, so `bread` takes only a block number.
-/

namespace Xv6.Fs

open Interleave Log

/-- Code of the kernel above the log. -/
abbrev FsCode (ι α : Type) : Type := Prog (OpAct (FsAct ι)) (OpRes FsRes) α

section Actions

variable {ι α : Type}

def bread (b : Nat) : FsCode ι Handle := Prog.call (OpAct.bread b)
def getData (bp : Handle) : FsCode ι Block := Prog.call (OpAct.getData bp)
def setData (bp : Handle) (d : Block) : FsCode ι Unit := Prog.call (OpAct.setData bp d)
def logWrite (bp : Handle) : FsCode ι Unit := Prog.call (OpAct.logWrite bp)
def brelse (bp : Handle) : FsCode ι Unit := Prog.call (OpAct.brelse bp)
def beginOp : FsCode ι Unit := Prog.call OpAct.beginOp
def endOp : FsCode ι Unit := Prog.call OpAct.endOp
def panic (msg : String) : FsCode ι α := .act (OpAct.panic msg) fun e => Empty.elim e

/-- An action of the file system. -/
def fs (x : FsAct ι) : FsCode ι (FsRes x) := Prog.call (OpAct.aux x)

def info (ip : IPtr) : FsCode ι Info := fs (.info ip)
def setDin (ip : IPtr) (din : Dinode) : FsCode ι Unit := fs (.setDin ip din)
def setValid (ip : IPtr) (valid : Bool) : FsCode ι Unit := fs (.setValid ip valid)
def refOk (ip : IPtr) : FsCode ι Bool := fs (.refOk ip)
def acquiresleep (ip : IPtr) : FsCode ι Unit := fs (.acquiresleep ip)
def holdingsleep (ip : IPtr) : FsCode ι Bool := fs (.holdingsleep ip)
def releasesleep (ip : IPtr) : FsCode ι Unit := fs (.releasesleep ip)
def iputTest (ip : IPtr) : FsCode ι Bool := fs (.iputTest ip)
def iputDrop (ip : IPtr) : FsCode ι Unit := fs (.iputDrop ip)
def getCwd : FsCode ι (Option IPtr) := fs .cwd
def copyinBuf (bp : Handle) (o srcva len : Nat) : FsCode ι (List UInt8 × Bool) :=
  fs (.copyin bp o srcva len)
def copyoutUser (dstva : Nat) (src : List UInt8) : FsCode ι Bool := fs (.copyout dstva src)

/-- A conditional statement without `else`. -/
def onlyIf (c : Prop) [Decidable c] (p : FsCode ι Unit) : FsCode ι Unit :=
  if c then p else return ()

end Actions

variable {ι : Type} (sb : Superblock)

/-! ## Blocks -/

/-- Zero a block. -/
def bzero (bno : Nat) : FsCode ι Unit := do
  let bp ← bread bno
  setData bp Bytes.Buffer.zero
  logWrite bp
  brelse bp

/-- The outer loop of `balloc` from block `b` on. -/
def ballocFrom : Nat → Nat → FsCode ι Nat
  | 0, _ => panic "balloc: out of blocks"
  | k + 1, b =>
    if b < sb.size then do
      let bp ← bread (sb.bblock b)
      let d ← getData bp
      match freeBit sb.size d b BPB 0 with
      | some bi => do
        setData bp (setBit d bi)  -- Mark block in use.
        logWrite bp
        brelse bp
        bzero (b + bi)
        return b + bi
      | none => do
        brelse bp
        ballocFrom k (b + BPB)
    else panic "balloc: out of blocks"

/-- Allocate a zeroed disk block. -/
def balloc : FsCode ι Nat := ballocFrom sb (sb.size / BPB + 1) 0

/-- Free a disk block. -/
def bfree (b : Nat) : FsCode ι Unit := do
  let bp ← bread (sb.bblock b)
  let d ← getData bp
  if bit d (b % BPB) then do
    setData bp (clearBit d (b % BPB))
    logWrite bp
    brelse bp
  else panic "freeing free block"

/-! ## Inodes -/

def iget (dev inum : Nat) : FsCode ι IPtr := do
  match ← (fs (.iget dev inum) : FsCode ι (Option IPtr)) with
  | some ip => return ip
  | none => panic "iget: no inodes"

/-- The loop of `ialloc` from inode `inum` on. -/
def iallocFrom (dev type : Nat) : Nat → Nat → FsCode ι IPtr
  | 0, _ => panic "ialloc: no inodes"
  | k + 1, inum =>
    if inum < sb.ninodes then do
      let bp ← bread (sb.iblock inum)
      let d ← getData bp
      if (getDinode d (inum % IPB)).type = 0 then do  -- a free inode
        setData bp (putDinode d (inum % IPB) { Dinode.zero with type := type })
        logWrite bp  -- mark it allocated on the disk
        brelse bp
        iget dev inum
      else do
        brelse bp
        iallocFrom dev type k (inum + 1)
    else panic "ialloc: no inodes"

/-- Allocate an inode on device dev. -/
def ialloc (dev type : Nat) : FsCode ι IPtr := iallocFrom sb dev type sb.ninodes 1

/-- Copy a modified in-memory inode to disk. -/
def iupdate (ip : IPtr) : FsCode ι Unit := do
  let n ← info ip
  let bp ← bread (sb.iblock n.inum)
  let d ← getData bp
  setData bp (putDinode d (n.inum % IPB) n.din)
  logWrite bp
  brelse bp

/-- Increment reference count for ip. -/
def idup (ip : IPtr) : FsCode ι IPtr := do
  fs (.idup ip)
  return ip

/-- Lock the given inode. Reads the inode from disk if necessary. -/
def ilock (ip : IPtr) : FsCode ι Unit := do
  if ← refOk ip then do
    acquiresleep ip
    let n ← info ip
    if n.valid then return ()
    else do
      let bp ← bread (sb.iblock n.inum)
      let d ← getData bp
      setDin ip (getDinode d (n.inum % IPB))
      brelse bp
      setValid ip true
      if (getDinode d (n.inum % IPB)).type = 0 then panic "ilock: no type" else return ()
  else panic "ilock"

/-- Unlock the given inode. -/
def iunlock (ip : IPtr) : FsCode ι Unit := do
  if ← holdingsleep ip then do
    if ← refOk ip then releasesleep ip
    else panic "iunlock"
  else panic "iunlock"

/-- The first loop of `itrunc` from block `i` on. -/
def itruncDirect (ip : IPtr) : Nat → Nat → FsCode ι Unit
  | 0, _ => return ()
  | k + 1, i => do
    let n ← info ip
    if n.din.addrs.getD i 0 = 0 then itruncDirect ip k (i + 1)
    else do
      bfree sb (n.din.addrs.getD i 0)
      setDin ip { n.din with addrs := n.din.addrs.set i 0 }
      itruncDirect ip k (i + 1)

/-- The second loop of `itrunc` from entry `j` of the indirect block on. -/
def itruncIndirect (a : Block) : Nat → Nat → FsCode ι Unit
  | 0, _ => return ()
  | k + 1, j =>
    if a.num 4 (4 * j) = 0 then itruncIndirect a k (j + 1)
    else do
      bfree sb (a.num 4 (4 * j))
      itruncIndirect a k (j + 1)

/-- Truncate inode (discard contents). -/
def itrunc (ip : IPtr) : FsCode ι Unit := do
  itruncDirect sb ip NDIRECT 0
  let n ← info ip
  onlyIf (n.din.addrs.getD NDIRECT 0 ≠ 0) do
    let bp ← bread (n.din.addrs.getD NDIRECT 0)
    let a ← getData bp
    itruncIndirect sb a NINDIRECT 0
    brelse bp
    bfree sb (n.din.addrs.getD NDIRECT 0)
    setDin ip { n.din with addrs := n.din.addrs.set NDIRECT 0 }
  let n ← info ip
  setDin ip { n.din with size := 0 }
  iupdate sb ip

/-- Drop a reference to an in-memory inode. -/
def iput (ip : IPtr) : FsCode ι Unit := do
  if ← iputTest ip then do
    -- inode has no links and no other references: truncate and free.
    itrunc sb ip
    let n ← info ip
    setDin ip { n.din with type := 0 }
    iupdate sb ip
    setValid ip false
    releasesleep ip
    iputDrop ip
  else return ()

/-- Common idiom: unlock, then put. -/
def iunlockput (ip : IPtr) : FsCode ι Unit := do
  iunlock ip
  iput sb ip

/-! ## Inode content -/

/-- The indirect block of an inode, allocated if necessary. -/
def indirectBlock (ip : IPtr) (din : Dinode) : FsCode ι Nat := do
  if din.addrs.getD NDIRECT 0 = 0 then do
    let addr ← balloc sb
    setDin ip { din with addrs := din.addrs.set NDIRECT addr }
    return addr
  else return din.addrs.getD NDIRECT 0

/-- Return the disk block address of the nth block in inode ip. If there is no such block,
bmap allocates one. -/
def bmap (ip : IPtr) (bn : Nat) : FsCode ι Nat := do
  let n ← info ip
  if bn < NDIRECT then
    if n.din.addrs.getD bn 0 = 0 then do
      let addr ← balloc sb
      setDin ip { n.din with addrs := n.din.addrs.set bn addr }
      return addr
    else return n.din.addrs.getD bn 0
  else if bn - NDIRECT < NINDIRECT then do
    -- Load indirect block, allocating if necessary.
    let addr ← indirectBlock sb ip n.din
    let bp ← bread addr
    let a ← getData bp
    if a.num 4 (4 * (bn - NDIRECT)) = 0 then do
      let addr ← balloc sb
      setData bp (a.putNum 4 (4 * (bn - NDIRECT)) addr)
      logWrite bp
      brelse bp
      return addr
    else do
      brelse bp
      return a.num 4 (4 * (bn - NDIRECT))
  else panic "bmap: out of range"

/-- Where `readi` copies to: kernel memory, or a user address. -/
inductive Dst where
  | kernel
  | user (addr : Nat)

/-- The loop of `readi`; what it copied to kernel memory is `out`. -/
def readiFrom (ip : IPtr) (dst : Dst) (n : Nat) :
    Nat → (tot off : Nat) → (out : List UInt8) → FsCode ι (Int × List UInt8)
  | 0, tot, _, out => return (toInt tot, out)
  | k + 1, tot, off, out =>
    if tot < n then do
      let addr ← bmap sb ip (off / BSIZE)
      let bp ← bread addr
      let m := min (n - tot) (BSIZE - off % BSIZE)
      let d ← getData bp
      match dst with
      | .kernel => do
        brelse bp
        readiFrom ip dst n k (tot + m) (addU off m) (out ++ d.slice (off % BSIZE) m)
      | .user va => do
        if ← copyoutUser ((va + tot) % 2 ^ 64) (d.slice (off % BSIZE) m)
        then do
          brelse bp
          readiFrom ip dst n k (tot + m) (addU off m) out
        else do
          brelse bp
          return (-1, out)
    else return (toInt tot, out)

/-- Read data from inode. -/
def readi (ip : IPtr) (dst : Dst) (off n : Nat) : FsCode ι (Int × List UInt8) := do
  let f ← info ip
  if f.din.size < off ∨ addU off n < off then return (0, [])
  else
    let n := if f.din.size < addU off n then f.din.size - off else n
    readiFrom sb ip dst n n 0 off []

/-- Where `writei` copies from: kernel memory, or a user address. -/
inductive Src where
  | kernel (bytes : List UInt8)
  | user (addr : Nat)

/-- `either_copyin` stores the bytes it could fetch. -/
def storeBytes (bp : Handle) (o : Nat) (bytes : List UInt8) : FsCode ι Unit :=
  onlyIf (bytes ≠ []) do
    let d ← getData bp
    setData bp (d.put o bytes)

/-- What `writei` does with a block that holds part of the source: it answers whether the
copy succeeded. -/
def writeBlock (bp : Handle) (src : Src) (tot o m : Nat) : FsCode ι Bool := do
  match src with
  | .kernel bytes => do
    storeBytes bp o ((bytes.drop tot).take m)
    logWrite bp
    brelse bp
    return true
  | .user va => do
    let (bytes, ok) ← copyinBuf bp o ((va + tot) % 2 ^ 64) m
    storeBytes bp o bytes
    if ok then do
      logWrite bp
      brelse bp
      return true
    else do
      brelse bp
      return false

/-- The loop of `writei`; it returns `tot` and `off`. -/
def writeiFrom (ip : IPtr) (src : Src) (n : Nat) : Nat → (tot off : Nat) → FsCode ι (Nat × Nat)
  | 0, tot, off => return (tot, off)
  | k + 1, tot, off =>
    if tot < n then do
      let addr ← bmap sb ip (off / BSIZE)
      let bp ← bread addr
      let m := min (n - tot) (BSIZE - off % BSIZE)
      if ← writeBlock bp src tot (off % BSIZE) m then
        writeiFrom ip src n k (tot + m) (addU off m)
      else return (tot, off)
    else return (tot, off)

/-- Write data to inode. -/
def writei (ip : IPtr) (src : Src) (off n : Nat) : FsCode ι Int := do
  let f ← info ip
  if f.din.size < off ∨ addU off n < off then return -1
  else if MAXFILE * BSIZE < addU off n then return -1
  else do
    let (tot, off) ← writeiFrom sb ip src n n 0 off
    let f ← info ip
    onlyIf (f.din.size < off) (setDin ip { f.din with size := off })
    -- write the i-node back to disk even if the size didn't change
    iupdate sb ip
    return toInt tot

/-! ## Directories -/

/-- The loop of `dirlookup` from offset `off` on. -/
def dirlookupFrom (dp : IPtr) (name : List UInt8) (dev size : Nat) :
    Nat → Nat → FsCode ι (Option (IPtr × Nat))
  | 0, _ => return none
  | k + 1, off =>
    if off < size then do
      let (r, de) ← readi sb dp .kernel off DIRENT
      if r ≠ DIRENT then panic "dirlookup read"
      else if (getDirent de).inum = 0 then dirlookupFrom dp name dev size k (off + DIRENT)
      else if namecmp name (getDirent de).name = 0 then do
        -- entry matches path element
        let ip ← iget dev (getDirent de).inum
        return some (ip, off)
      else dirlookupFrom dp name dev size k (off + DIRENT)
    else return none

/-- Look for a directory entry in a directory. -/
def dirlookup (dp : IPtr) (name : List UInt8) : FsCode ι (Option (IPtr × Nat)) := do
  let n ← info dp
  if n.din.type ≠ T_DIR then panic "dirlookup not DIR"
  else dirlookupFrom sb dp name n.dev n.din.size (n.din.size / DIRENT + 1) 0

/-- The loop of `dirlink` from offset `off` on: the first empty entry, or the end. -/
def emptyDirent (dp : IPtr) (size : Nat) : Nat → Nat → FsCode ι Nat
  | 0, off => return off
  | k + 1, off =>
    if off < size then do
      let (r, de) ← readi sb dp .kernel off DIRENT
      if r ≠ DIRENT then panic "dirlink read"
      else if (getDirent de).inum = 0 then return off
      else emptyDirent dp size k (off + DIRENT)
    else return off

/-- Write a new directory entry (name, inum) into the directory dp. -/
def dirlink (dp : IPtr) (name : List UInt8) (inum : Nat) : FsCode ι Int := do
  -- Check that name is not present.
  match ← dirlookup sb dp name with
  | some (ip, _) => do
    iput sb ip
    return -1
  | none => do
    let n ← info dp
    let off ← emptyDirent sb dp n.din.size (n.din.size / DIRENT + 1) 0
    let r ← writei sb dp (.kernel (putDirent ⟨inum, strncpy DIRSIZ name⟩)) off DIRENT
    if r ≠ DIRENT then panic "dirlink" else return 0

/-! ## Paths -/

/-- The loop of `namex`; `name` is the last element found. -/
def namexFrom (nameiparent : Bool) :
    Nat → IPtr → (path name : List UInt8) → FsCode ι (Option (IPtr × List UInt8))
  | 0, ip, _, name => return some (ip, name)
  | k + 1, ip, path, name =>
    match skipelem path with
    | none =>
      if nameiparent then do
        iput sb ip
        return none
      else return some (ip, name)
    | some (path, name) => do
      ilock sb ip
      let n ← info ip
      if n.din.type ≠ T_DIR then do
        iunlockput sb ip
        return none
      else if nameiparent ∧ path = [] then do
        -- Stop one level early.
        iunlock ip
        return some (ip, name)
      else
        match ← dirlookup sb ip name with
        | none => do
          iunlockput sb ip
          return none
        | some (next, _) => do
          iunlockput sb ip
          namexFrom nameiparent k next path name

/-- Look up and return the inode for a path name. -/
def namex (path : List UInt8) (nameiparent : Bool) : FsCode ι (Option (IPtr × List UInt8)) := do
  if path.head? = some slash then do
    let ip ← iget ROOTDEV ROOTINO
    namexFrom sb nameiparent (path.length + 1) ip path []
  else
    match ← getCwd with
    | some cwd => do
      let ip ← idup cwd
      namexFrom sb nameiparent (path.length + 1) ip path []
    | none => panic "kerneltrap"  -- a null pointer

def namei (path : List UInt8) : FsCode ι (Option IPtr) := do
  let r ← namex sb path false
  return r.map Prod.fst

def nameiparent (path : List UInt8) : FsCode ι (Option (IPtr × List UInt8)) := namex sb path true

end Xv6.Fs
