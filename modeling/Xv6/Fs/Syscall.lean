import Xv6.Fs.Code

/-!
# Open files (`kernel/file.c`)
-/

namespace Xv6.Fs

open Interleave Log

section Actions

variable {ι : Type}

def getFile (f : FPtr) : FsCode ι File := fs (.getFile f)
def setOff (f : FPtr) (off : Nat) : FsCode ι Unit := fs (.setOff f off)
def other : FsCode ι Int := fs .other
def stack : FsCode ι (Bytes.Buffer STATSIZE) := fs .stack

end Actions

variable {ι : Type} (sb : Superblock)

/-! ## file.c -/

/-- Increment ref count for file f. -/
def filedup (f : FPtr) : FsCode ι FPtr := do
  match ← (fs (.filedup f) : FsCode ι Bool) with
  | true => return f
  | false => panic "filedup"

/-- Close file f. (Decrement ref count, close when reaches 0.) -/
def fileclose (f : FPtr) : FsCode ι Unit := do
  match ← (fs (.fileclose f) : FsCode ι (Option (Option File))) with
  | none => panic "fileclose"
  | some none => return ()
  | some (some ff) =>
    match ff.type with
    | .pipe => do
      let _ ← other
      return ()
    | .inode | .device => do
      beginOp
      iput sb ff.ip
      endOp
    | .none => return ()

/-- Copy stat information from inode. `struct stat` has its fields at 0, 4, 8, 10 and 16; nothing
is stored at 12. -/
def stati (n : Info) (st : Bytes.Buffer STATSIZE) : Bytes.Buffer STATSIZE :=
  ((((st.putNum 4 0 n.dev).putNum 4 4 n.inum).putNum 2 8 n.din.type).putNum 2 10 n.din.nlink).putNum
    8 16 n.din.size

/-- Get metadata about file f. -/
def filestat (f : FPtr) (addr : Nat) : FsCode ι Int := do
  let x ← getFile f
  match x.type with
  | .inode | .device => do
    let st ← stack
    ilock sb x.ip
    let n ← info x.ip
    iunlock x.ip
    if ← copyoutUser addr ((stati n st).slice 0 STATSIZE) then return 0 else return -1
  | .none | .pipe => return -1

/-- The device switch has a function for this major number, or answers -1. -/
def device (major : Nat) : FsCode ι Int :=
  if toShort major < 0 ∨ (NDEV : Int) ≤ toShort major then return -1 else other

/-- Read from file f. -/
def fileread (f : FPtr) (addr : Nat) (n : Int) : FsCode ι Int := do
  let x ← getFile f
  if x.readable = false then return -1
  else
    match x.type with
    | .pipe => other
    | .device => device x.major
    | .inode => do
      ilock sb x.ip
      let x ← getFile f
      let (r, _) ← readi sb x.ip (.user addr) x.off (toUint n)
      onlyIf (0 < r) (setOff f (addU x.off r.toNat))
      iunlock x.ip
      return r
    | .none => panic "fileread"

/-- write a few blocks at a time to avoid exceeding the maximum log transaction size -/
def maxWrite : Int := ((MAXOPBLOCKS - 1 - 1 - 2) / 2 : Nat) * BSIZE

/-- The loop of `filewrite` with `i` bytes written; it returns `i`. -/
def filewriteFrom (f : FPtr) (addr : Nat) (n : Int) : Nat → Int → FsCode ι Int
  | 0, i => return i
  | k + 1, i =>
    if i < n then do
      let n1 := min (n - i) maxWrite
      beginOp
      let x ← getFile f
      ilock sb x.ip
      let x ← getFile f
      let r ← writei sb x.ip (.user ((addr + i.toNat) % 2 ^ 64)) x.off n1.toNat
      onlyIf (0 < r) (setOff f (addU x.off r.toNat))
      iunlock x.ip
      endOp
      if r ≠ n1 then return i  -- error from writei
      else filewriteFrom f addr n k (i + r)
    else return i

/-- Write to file f. -/
def filewrite (f : FPtr) (addr : Nat) (n : Int) : FsCode ι Int := do
  let x ← getFile f
  if x.writable = false then return -1
  else
    match x.type with
    | .pipe => other
    | .device => device x.major
    | .inode => do
      let i ← filewriteFrom sb f addr n n.toNat 0
      return if i = n then n else -1
    | .none => panic "filewrite"

end Xv6.Fs
