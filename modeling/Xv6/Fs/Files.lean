import Mathlib
import Xv6.Fs.Itrunc

/-!
# Files are byte arrays

A sequence of `readi`, `writei` and `itrunc` on the inodes of a consistent file system, with
an `end_op` and a `begin_op` between any two of them, does to the contents of the files what
the same operations do to a byte array for each inode.
-/

namespace Xv6.Fs

open Interleave Log

/-! ## Byte arrays -/

/-- A byte array for each inode number, and the user memory of the process. -/
structure Arrays where
  file : Nat → List UInt8
  mem : Nat → Option UInt8

def Arrays.setFile (a : Arrays) (inum : Nat) (l : List UInt8) : Arrays :=
  { a with file := Function.update a.file inum l }

theorem Arrays.setFile_self (a : Arrays) (inum : Nat) (l : List UInt8) :
    (a.setFile inum l).file inum = l := Function.update_self ..

theorem Arrays.setFile_of_ne {inum j : Nat} (h : j ≠ inum) (a : Arrays) (l : List UInt8) :
    (a.setFile inum l).file j = a.file j := Function.update_of_ne h ..

def overwrite (l : List UInt8) (off : Nat) (data : List UInt8) : List UInt8 :=
  l.take off ++ data ++ l.drop (off + data.length)

/-- The bytes of a source. -/
def Src.bytes (mem : Nat → Option UInt8) : Src → Nat → List UInt8
  | .kernel bytes, n => bytes.take n
  | .user va, n => (List.range n).map fun j => (mem (va + j)).getD 0

/-- Memory after a copy to user address `va`. -/
def putMem (mem : Nat → Option UInt8) (va : Nat) (data : List UInt8) : Nat → Option UInt8 := fun a =>
  if dist va (a % 2 ^ 64) < data.length then some (data.getD (dist va (a % 2 ^ 64)) 0) else mem a

/-- An operation on the file with number `inum`; `next` ends the transaction and begins
another one. -/
inductive FileOp where
  | write (inum : Nat) (src : Src) (off n : Nat)
  | read (inum : Nat) (dst : Dst) (off n : Nat)
  | trunc (inum : Nat)
  | next

/-- What the operation returns and what it does to the arrays. -/
def FileOp.spec : FileOp → Arrays → (Int × List UInt8) × Arrays
  | .write inum src off n, a => ((n, []),
      a.setFile inum (overwrite (a.file inum) off (src.bytes a.mem n)))
  | .read inum .kernel off n, a =>
      let count := readCount (a.file inum).length off n
      ((count, ((a.file inum).drop off).take count), a)
  | .read inum (.user va) off n, a =>
      let count := readCount (a.file inum).length off n
      ((count, []), { a with mem := putMem a.mem va (((a.file inum).drop off).take count) })
  | .trunc inum, a => ((0, []), a.setFile inum [])
  | .next, a => ((0, []), a)

/-- The source can be read. -/
def Src.Mapped (mem : Nat → Option UInt8) : Src → Nat → Prop
  | .kernel bytes, n => n ≤ bytes.length
  | .user va, n => ∀ j < n, mem (va + j) ≠ none

/-- The destination can be written. -/
def Dst.Mapped (mem : Nat → Option UInt8) : Dst → Nat → Prop
  | .kernel, _ => True
  | .user va, n => va < 2 ^ 64 ∧ ∀ j < n, mem (va + j) ≠ none

/-- What is asked of a caller. -/
def FileOp.Ok (opened : Nat → Prop) (a : Arrays) : FileOp → Prop
  | .write inum src off n => opened inum ∧ off ≤ (a.file inum).length ∧
      off + n ≤ MAXFILE * BSIZE ∧ src.Mapped a.mem n
  | .read inum dst off n => opened inum ∧ off < 2 ^ 32 ∧ n < 2 ^ 32 ∧
      dst.Mapped a.mem (readCount (a.file inum).length off n)
  | .trunc inum => opened inum
  | .next => True

/-- The blocks that the arrays take, block maps included. -/
def blocks (ninodes : Nat) (a : Arrays) : Nat :=
  ∑ j ∈ Finset.range ninodes, slotsFor (a.file j).length

def specs : List FileOp → Arrays → List (Int × List UInt8) × Arrays
  | [], a => ([], a)
  | op :: ops, a => ((op.spec a).1 :: (specs ops (op.spec a).2).1, (specs ops (op.spec a).2).2)

/-- Every operation is called as it should be, and `C` blocks are enough at any time. -/
def Allowed (ninodes : Nat) (opened : Nat → Prop) (C : Nat) : List FileOp → Arrays → Prop
  | [], _ => True
  | op :: ops, a => op.Ok opened a ∧ blocks ninodes (op.spec a).2 ≤ C ∧
      Allowed ninodes opened C ops (op.spec a).2

section Arrays

variable {l data : List UInt8} {off : Nat}

theorem length_overwrite (h : off ≤ l.length) :
    (overwrite l off data).length = max l.length (off + data.length) := by
  simp only [overwrite, List.length_append, List.length_take, List.length_drop]
  omega

theorem getD_overwrite (h : off ≤ l.length) (o : Nat) :
    (overwrite l off data).getD o 0 =
      if off ≤ o ∧ o < off + data.length then data.getD (o - off) 0 else l.getD o 0 := by
  simp only [overwrite, List.getD_eq_getElem?_getD, List.append_assoc, List.getElem?_append,
    List.length_take, min_eq_left h, List.getElem?_take, List.getElem?_drop]
  by_cases before : o < off
  · rw [if_pos before, if_pos before, if_neg (by omega)]
  · rw [if_neg before]
    by_cases inside : o - off < data.length
    · rw [if_pos inside, if_pos (by omega)]
    · rw [if_neg inside, if_neg (by omega)]
      congr 2
      omega

theorem ext_getD {l l' : List UInt8} (length : l.length = l'.length)
    (same : ∀ o < l.length, l.getD o 0 = l'.getD o 0) : l = l' := by
  refine List.ext_getElem length fun o h h' => ?_
  simpa [h, h'] using same o h

theorem blocks_update {ninodes inum : Nat} {a : Arrays} (h : inum < ninodes) (l : List UInt8) :
    blocks ninodes (a.setFile inum l) + slotsFor (a.file inum).length =
      blocks ninodes a + slotsFor l.length := by
  have mem := Finset.mem_range.mpr h
  rw [blocks, blocks, ← Finset.add_sum_erase _ _ mem, ← Finset.add_sum_erase _ _ mem]
  have rest : ∑ j ∈ (Finset.range ninodes).erase inum, slotsFor ((a.setFile inum l).file j).length =
      ∑ j ∈ (Finset.range ninodes).erase inum, slotsFor (a.file j).length :=
    Finset.sum_congr rfl fun j hj => by rw [Arrays.setFile_of_ne (Finset.ne_of_mem_erase hj)]
  rw [rest, Arrays.setFile_self]
  omega

end Arrays

/-! ## The kernel -/

section Kernel

variable {ι : Type} (sb : Superblock) (entry : Nat → IPtr)

/-- The operation on the inode that `entry` names. -/
def FileOp.code : FileOp → FsCode ι (Int × List UInt8)
  | .write inum src off n => do
    let r ← writei sb (entry inum) src off n
    return (r, [])
  | .read inum dst off n => readi sb (entry inum) dst off n
  | .trunc inum => do
    itrunc sb (entry inum)
    return (0, [])
  | .next => do
    endOp
    beginOp
    return (0, [])

def codes : List FileOp → FsCode ι (List (Int × List UInt8))
  | [] => return []
  | op :: ops => do
    let r ← op.code sb entry
    let rs ← codes ops
    return r :: rs

/-- The contents of the files, by the inodes on the disk as the cache has it. -/
def arrays (i : ι) (s : KSt ι) : Arrays where
  file j := fileBytes s.cache (diskInodes sb s.cache j) 0 (diskInodes sb s.cache j).size
  mem a := (s.aux.proc i).mem.byte (a % 2 ^ 64)

/-- A file system in a transaction of the process, with some files open: `entry` names the
entry of the inode table in which such a file has been read. -/
structure Consistent (opened : Nat → Prop) (s : KSt ι) : Prop where
  layout : Layout sb
  sound : Sound sb s.cache (diskInodes sb s.cache) fun j => (diskInodes sb s.cache j).size
  calm : Calm s
  idle : Idle s
  table : ∀ inum, opened inum → inum < sb.ninodes ∧ (s.aux.inode (entry inum)).inum = inum ∧
    (s.aux.inode (entry inum)).din = diskInodes sb s.cache inum
  inOp : s.log.outstanding = 1
  quiet : s.log.committing = false
  area : s.log.start + s.log.size ≤ sb.inodestart
  outside : ∀ b ∈ s.log.lh, sb.inodestart ≤ b
  short : s.log.lh.length ≤ LOGSIZE ∧ s.log.lh.length < s.log.size

/-- A run may end early where `log_write` finds the log full or `bget` all buffers in use. -/
def unlessFull : Policy where
  admits _ _ := True
  excuses msg := msg = "too big a transaction" ∨ msg = "bget: no buffers"
  waits := False

end Kernel

section Refinement

variable {ι : Type} {i : ι} {sb : Superblock} {entry : Nat → IPtr}
variable {opened : Nat → Prop} {s s' : KSt ι} {inum : Nat}

theorem Consistent.room (C : Consistent sb entry opened s) (K : Finset Nat) (n : Nat) :
    Room unlessFull sb K n s.log where
  inOp := C.inOp.ge
  area := C.area
  outside := C.outside
  short := C.short
  room := Or.inl ⟨fun _ _ => trivial, Or.inl rfl⟩

theorem writer (L : Layout sb) : Writer unlessFull sb (Finset.range sb.dataStart) where
  layout := L
  bget := Or.inr rfl
  map _ hx := Finset.mem_range.mpr (bblock_lt hx)

theorem Consistent.reader (C : Consistent sb entry opened s) : Reader unlessFull s :=
  ⟨C.calm, C.idle, Or.inl (Or.inr rfl)⟩

theorem Consistent.iblock_mem (C : Consistent sb entry opened s) (h : inum < sb.ninodes) :
    sb.iblock inum ∈ Finset.range sb.dataStart :=
  Finset.mem_range.mpr ((C.layout.inodes inum h).trans bmapstart_lt)

theorem length_file (j : Nat) :
    ((arrays sb i s).file j).length = (diskInodes sb s.cache j).size := length_fileBytes

theorem getD_file {j o : Nat} (h : o < (diskInodes sb s.cache j).size) :
    ((arrays sb i s).file j).getD o 0 = fileByte s.cache (diskInodes sb s.cache j) o := by
  rw [arrays, getD_fileBytes h, Nat.zero_add]

/-- The change of one inode keeps the file system consistent. -/
theorem Consistent.updated (C : Consistent sb entry opened s) (hi : opened inum) {sz : Nat → Nat}
    {dins' : Nat → Dinode}
    (U : Updated sb sz (entry inum) inum s (diskInodes sb s.cache) s' dins')
    (sizes : ∀ j, (dins' j).size = sz j) (room : ∃ K n, Room unlessFull sb K n s'.log) :
    Consistent sb entry opened s' := by
  obtain ⟨hn, number, -⟩ := C.table inum hi
  obtain ⟨K, n, room⟩ := room
  have dins := U.diskInodes_eq hn
  refine ⟨C.layout, ?_, U.calm, fun h => by rw [U.hold]; exact C.idle h, ?_, ?_, ?_, room.area,
    room.outside, room.short⟩
  · rw [dins]
    exact (funext sizes : (fun j => (dins' j).size) = sz) ▸ U.sound
  · intro j hj
    obtain ⟨small, hinum, hdin⟩ := C.table j hj
    rw [U.aux, dins]
    by_cases e : j = inum
    · subst e
      rw [putDin_inode]
      exact ⟨small, number, rfl⟩
    · have apart : entry j ≠ entry inum := by
        intro same
        rw [same, number] at hinum
        exact e hinum.symm
      have other : (putDin s (entry inum) (dins' inum)).aux.inode (entry j) =
          s.aux.inode (entry j) := by
        simp [putDin, FsSt.setInode, apart]
      rw [other, U.other j e]
      exact ⟨small, hinum, hdin⟩
  · rw [U.log]
    exact C.inOp
  · rw [U.log]
    exact C.quiet

/-- The memory of the process is as it was. -/
theorem Updated.mem_eq {sz : Nat → Nat} {ip : IPtr} {dins' : Nat → Dinode}
    (U : Updated sb sz ip inum s (diskInodes sb s.cache) s' dins') :
    (arrays sb i s').mem = (arrays sb i s).mem := by
  simp only [arrays, U.aux]
  rfl

theorem Arrays.ext_file {a b : Arrays} (file : ∀ j, a.file j = b.file j) (mem : a.mem = b.mem) :
    a = b := by
  obtain ⟨f, m⟩ := a
  obtain ⟨g, m'⟩ := b
  obtain rfl : f = g := funext file
  obtain rfl : m = m' := mem
  rfl

/-- The contents of a file after `writei` are those of the array. -/
theorem WroteSome.arrays_eq {ip : IPtr} {dins' : Nat → Dinode} {k off : Nat} {data : List UInt8}
    (hn : inum < sb.ninodes) (low : off ≤ (diskInodes sb s.cache inum).size)
    (W : WroteSome sb (fun j => (diskInodes sb s.cache j).size) ip inum k off data s
      (diskInodes sb s.cache) s' dins') :
    arrays sb i s' =
      (arrays sb i s).setFile inum (overwrite ((arrays sb i s).file inum) off data) := by
  have dins := W.toUpdated.diskInodes_eq hn
  refine Arrays.ext_file (fun j => ?_) W.toUpdated.mem_eq
  by_cases e : j = inum
  · subst e
    have size : (dins' j).size = max (diskInodes sb s.cache j).size (off + data.length) := by
      rw [W.same]
    rw [Arrays.setFile_self]
    refine ext_getD ?_ fun o ho => ?_
    · rw [length_overwrite (by rwa [length_file]), length_file, length_file, dins, size]
    · rw [length_file, dins] at ho
      rw [getD_overwrite (by rwa [length_file]), getD_file (by rwa [dins]), dins, W.bytes]
      by_cases inside : off ≤ o ∧ o < off + data.length
      · rw [if_pos ⟨rfl, inside⟩, if_pos inside]
      · rw [if_neg fun h => inside h.2, if_neg inside, getD_file (by omega)]
  · have same : dins' j = diskInodes sb s.cache j := W.other j e
    rw [Arrays.setFile_of_ne e]
    refine ext_getD ?_ fun o ho => ?_
    · rw [length_file, length_file, dins, same]
    · rw [length_file, dins] at ho
      rw [getD_file (by rwa [dins]), dins, W.bytes, if_neg (by omega), getD_file (by rwa [← same])]

/-- `itrunc` leaves the empty array. -/
theorem Truncated.arrays_eq {ip : IPtr} {dins' : Nat → Dinode} (hn : inum < sb.ninodes)
    (T : Truncated sb (fun j => (diskInodes sb s.cache j).size) ip inum s
      (diskInodes sb s.cache) s' dins') :
    arrays sb i s' = (arrays sb i s).setFile inum [] := by
  have dins := T.toUpdated.diskInodes_eq hn
  refine Arrays.ext_file (fun j => ?_) T.toUpdated.mem_eq
  by_cases e : j = inum
  · subst e
    rw [Arrays.setFile_self]
    refine List.eq_nil_of_length_eq_zero ?_
    rw [length_file, dins, T.same]
  · have same : dins' j = diskInodes sb s.cache j := T.other j e
    rw [Arrays.setFile_of_ne e]
    refine ext_getD ?_ fun o ho => ?_
    · rw [length_file, length_file, dins, same]
    · rw [length_file, dins] at ho
      rw [getD_file (by rwa [dins]), dins, T.bytes j o e, getD_file (by rwa [← same])]

end Refinement

section Run

variable {ι : Type} {i : ι} {sb : Superblock} {entry : Nat → IPtr}
variable {opened : Nat → Prop} {s : KSt ι} {inum C : Nat}

/-- A state in which the kernel holds the arrays `a` and has blocks for `C` in all. -/
structure Holds (sb : Superblock) (entry : Nat → IPtr) (opened : Nat → Prop) (i : ι) (C : Nat)
    (a : Arrays) (s : KSt ι) : Prop where
  consistent : Consistent sb entry opened s
  arrays : arrays sb i s = a
  enough : C ≤ freeCount sb s.cache + blocks sb.ninodes a

theorem Src.piece_eq (src : Src) (n : Nat) :
    src.piece (s.aux.proc i).mem 0 n = src.bytes (arrays sb i s).mem n := by
  cases src with
  | kernel bytes => rfl
  | user va => rfl

theorem Src.Mapped.readable {src : Src} {n : Nat} (h : src.Mapped (arrays sb i s).mem n) :
    src.Readable (s.aux.proc i).mem n := by
  cases src with
  | kernel bytes => exact h
  | user va => exact covers_iff.mpr h

variable [DecidableEq ι]

theorem run_write {src : Src} {off n : Nat} (H : Holds sb entry opened i C (arrays sb i s) s)
    (ok : FileOp.Ok opened (arrays sb i s) (.write inum src off n))
    (enough : blocks sb.ninodes ((FileOp.write inum src off n).spec (arrays sb i s)).2 ≤ C) :
    Run unlessFull i ((FileOp.write inum src off n).code sb entry) s fun r s' =>
      r = ((FileOp.write inum src off n).spec (arrays sb i s)).1 ∧
      Holds sb entry opened i C ((FileOp.write inum src off n).spec (arrays sb i s)).2 s' := by
  obtain ⟨cons, -, cap⟩ := H
  obtain ⟨hi, low, high, mapped⟩ := ok
  obtain ⟨hn, number, hdin⟩ := cons.table inum hi
  rw [length_file] at low
  have length : (src.bytes (arrays sb i s).mem n).length = n := by
    rw [← Src.piece_eq]
    exact Src.length_piece mapped.readable (by omega)
  have sum := blocks_update (a := arrays sb i s) hn
    (overwrite ((arrays sb i s).file inum) off (src.bytes (arrays sb i s).mem n))
  rw [length_overwrite (by rwa [length_file]), length_file, length] at sum
  simp only [FileOp.spec] at enough
  refine run_writei (writer cons.layout) cons.sound cons.calm cons.idle hn number hdin rfl
    mapped.readable low high (cons.iblock_mem hn) (m := 0) (cons.room _ _)
    (Or.inr (by omega)) ?_
  intro s' dins' K wrote _ room
  rw [show src.piece (s.aux.proc i).mem 0 n = src.bytes (arrays sb i s).mem n from src.piece_eq n] at wrote
  have free := wrote.free
  rw [length] at free
  refine ⟨rfl, ?_, wrote.some.arrays_eq hn low, ?_⟩
  · refine cons.updated hi wrote.toUpdated (fun j => ?_) ⟨K, _, room⟩
    by_cases e : j = inum
    · rw [e, Function.update_self, wrote.same]
    · rw [Function.update_of_ne e, wrote.other j e]
  · simp only [FileOp.spec]
    omega

theorem run_trunc (H : Holds sb entry opened i C (arrays sb i s) s)
    (ok : FileOp.Ok opened (arrays sb i s) (.trunc inum)) :
    Run unlessFull i ((FileOp.trunc inum).code sb entry) s fun r s' =>
      r = ((FileOp.trunc inum).spec (arrays sb i s)).1 ∧
      Holds sb entry opened i C ((FileOp.trunc inum).spec (arrays sb i s)).2 s' := by
  obtain ⟨cons, -, cap⟩ := H
  have hi : opened inum := ok
  obtain ⟨hn, number, hdin⟩ := cons.table inum hi
  have sum := blocks_update (a := arrays sb i s) hn []
  rw [length_file, List.length_nil, slotsFor_zero] at sum
  refine run_itrunc (writer cons.layout) cons.sound cons.calm cons.idle hn number hdin
    (cons.iblock_mem hn) (m := 0) (cons.room _ _) ?_
  intro s' dins' truncated room
  have free := truncated.free
  refine ⟨rfl, ?_, truncated.arrays_eq hn, ?_⟩
  · refine cons.updated hi truncated.toUpdated (fun j => ?_) ⟨_, _, room⟩
    by_cases e : j = inum
    · rw [e, Function.update_self, truncated.same]
    · rw [Function.update_of_ne e, truncated.other j e]
  · simp only [FileOp.spec]
    omega

omit [DecidableEq ι] in
theorem Consistent.whole (cons : Consistent sb entry opened s) (j : Nat) :
    Whole s.cache (diskInodes sb s.cache j) :=
  cons.sound.whole rfl

omit [DecidableEq ι] in
theorem fileBytes_eq {j off n : Nat} (h : off + n ≤ (diskInodes sb s.cache j).size) :
    fileBytes s.cache (diskInodes sb s.cache j) off n =
      (((arrays sb i s).file j).drop off).take n := by
  refine ext_getD ?_ fun o ho => ?_
  · rw [length_fileBytes, List.length_take, List.length_drop, length_file]
    omega
  · rw [length_fileBytes] at ho
    rw [getD_fileBytes ho, ← getD_file (i := i) (by omega)]
    simp [List.getD_eq_getElem?_getD, ho]

theorem readCount_le {size off n : Nat} (h : readCount size off n ≠ 0) :
    off + readCount size off n ≤ size := by
  rw [readCount] at h ⊢
  split at h
  · rw [if_pos ‹_›]
    omega
  · exact absurd rfl h

theorem run_read {dst : Dst} {off n : Nat} (H : Holds sb entry opened i C (arrays sb i s) s)
    (ok : FileOp.Ok opened (arrays sb i s) (.read inum dst off n)) :
    Run unlessFull i ((FileOp.read inum dst off n).code sb entry) s fun r s' =>
      r = ((FileOp.read inum dst off n).spec (arrays sb i s)).1 ∧
      Holds sb entry opened i C ((FileOp.read inum dst off n).spec (arrays sb i s)).2 s' := by
  obtain ⟨cons, -, cap⟩ := H
  obtain ⟨hi, hoff, hn, mapped⟩ := ok
  obtain ⟨-, -, hdin⟩ := cons.table inum hi
  have bytes : fileBytes s.cache (diskInodes sb s.cache inum) off
      (readCount (diskInodes sb s.cache inum).size off n) =
        (((arrays sb i s).file inum).drop off).take
          (readCount ((arrays sb i s).file inum).length off n) := by
    rw [length_file]
    by_cases none : readCount (diskInodes sb s.cache inum).size off n = 0
    · rw [none]
      rfl
    · exact fileBytes_eq (readCount_le none)
  rw [FileOp.code, ← Prog.bind_ret (readi sb (entry inum) dst off n)]
  cases dst with
  | kernel =>
    refine run_readi_kernel cons.reader hdin (cons.whole inum) hoff hn ?_
    rw [bytes, ← length_file (i := i)]
    exact ⟨rfl, cons, rfl, cap⟩
  | user va =>
    obtain ⟨hva, covers⟩ := mapped
    rw [length_file] at covers
    refine run_readi_user cons.reader hdin (cons.whole inum) hoff hn hva (covers_iff.mpr covers) ?_
    intro m stored
    rw [← length_file (i := i)] at stored ⊢
    refine ⟨rfl, ?_, ?_, cap⟩
    · exact ⟨cons.layout, cons.sound, cons.calm.aux, cons.idle, cons.table, cons.inOp, cons.quiet,
        cons.area, cons.outside, cons.short⟩
    · refine Arrays.ext_file (fun _ => rfl) (funext fun a => ?_)
      have here := stored (a % 2 ^ 64) (Nat.mod_lt _ (by decide))
      rw [length_file] at here
      have spec : ((FileOp.read inum (.user va) off n).spec (arrays sb i s)).2.mem a =
          putMem (arrays sb i s).mem va (fileBytes s.cache (diskInodes sb s.cache inum) off
            (readCount (diskInodes sb s.cache inum).size off n)) a := by
        rw [bytes]
        rfl
      rw [spec, putMem, length_fileBytes]
      simp only [arrays, setMem_mem, here]
      by_cases near : dist va (a % 2 ^ 64) < readCount (diskInodes sb s.cache inum).size off n
      · rw [if_pos near, if_pos near, getD_fileBytes near]
      · rw [if_neg near, if_neg near]

/-- `end_op` and `begin_op` keep the files. -/
theorem run_next (H : Holds sb entry opened i C (arrays sb i s) s) :
    Run unlessFull i (FileOp.next.code sb entry) s fun r s' =>
      r = (FileOp.next.spec (arrays sb i s)).1 ∧
      Holds sb entry opened i C (FileOp.next.spec (arrays sb i s)).2 s' := by
  obtain ⟨cons, -, cap⟩ := H
  have closing : Closing unlessFull s := by
    refine ⟨cons.idle, fun b hb => Or.inr ?_, cons.short.1, cons.short.2, Or.inl (Or.inr rfl)⟩
    have := cons.outside b hb
    have := cons.area
    omega
  refine run_endOp closing cons.calm cons.inOp cons.quiet fun s₁ closed => ?_
  have log := closed.log
  have calm : Calm s₁ := by
    rw [Calm, log]
    exact closed.settled
  have admits : s₁.log.admits = true := by
    rw [log]
    simp [LogVar.admits, cons.quiet, MAXOPBLOCKS, LOGSIZE]
  refine run_beginOp calm (Or.inr admits) fun _ => ?_
  have same : ∀ b, sb.inodestart ≤ b → s₁.cache b = s.cache b := by
    intro b hb
    refine closed.cache b (Or.inr ?_)
    have := cons.area
    omega
  have above : SameAbove sb s.cache s₁.cache := fun b hb => same b (cons.layout.order.trans hb)
  have dins : diskInodes sb s₁.cache = diskInodes sb s.cache := by
    funext j
    rw [diskInodes, diskInodes, dinodeAt, dinodeAt, same (sb.iblock j) (Nat.le_add_left _ _)]
  have arr : arrays sb i s₁ = arrays sb i s := by
    refine Arrays.ext_file (fun j => ?_) (by simp only [arrays, closed.aux])
    simp only [arrays, dins, fileBytes]
    exact List.map_congr_left fun o _ => cons.sound.fileByte_above above j _
  refine ⟨rfl, ?_, arr, ?_⟩
  · constructor
    · exact cons.layout
    · show Sound sb s₁.cache (diskInodes sb s₁.cache) fun j => (diskInodes sb s₁.cache j).size
      rw [dins]
      exact cons.sound.above above
    · exact ⟨calm.pins, calm.nodup, calm.clean⟩
    · exact fun h => (congrFun closed.hold h).trans (cons.idle h)
    · intro j hj
      show _ ∧ (s₁.aux.inode _).inum = j ∧ (s₁.aux.inode _).din = diskInodes sb s₁.cache j
      rw [closed.aux, dins]
      exact cons.table j hj
    · show s₁.log.outstanding + 1 = 1
      rw [log]
      rfl
    · show s₁.log.committing = false
      rw [log]
      exact cons.quiet
    · show s₁.log.start + s₁.log.size ≤ _
      rw [log]
      exact cons.area
    · show ∀ b ∈ s₁.log.lh, _
      rw [log]
      simp
    · show s₁.log.lh.length ≤ _ ∧ s₁.log.lh.length < s₁.log.size
      rw [log]
      exact ⟨Nat.zero_le _, Nat.zero_lt_of_lt cons.short.2⟩
  · show C ≤ freeCount sb s₁.cache + blocks sb.ninodes (arrays sb i s)
    rw [above.freeCount]
    exact cap

/-- One operation does to the files what it does to the arrays. -/
theorem run_op {op : FileOp} (H : Holds sb entry opened i C (arrays sb i s) s)
    (ok : op.Ok opened (arrays sb i s)) (enough : blocks sb.ninodes (op.spec (arrays sb i s)).2 ≤ C) :
    Run unlessFull i (op.code sb entry) s fun r s' =>
      r = (op.spec (arrays sb i s)).1 ∧
      Holds sb entry opened i C (op.spec (arrays sb i s)).2 s' := by
  cases op with
  | write inum src off n => exact run_write H ok enough
  | read inum dst off n => exact run_read H ok
  | trunc inum => exact run_trunc H ok
  | next => exact run_next H

theorem run_codes {ops : List FileOp} {a : Arrays} (H : Holds sb entry opened i C a s)
    (allowed : Allowed sb.ninodes opened C ops a) :
    Run unlessFull i (codes sb entry ops) s fun rs s' =>
      rs = (specs ops a).1 ∧ Holds sb entry opened i C (specs ops a).2 s' := by
  induction ops generalizing s a with
  | nil => exact ⟨rfl, H⟩
  | cons op ops ih =>
    obtain rfl := H.arrays
    obtain ⟨ok, enough, rest⟩ := allowed
    refine (run_op H ok enough).seq ?_
    rintro r s₁ ⟨rfl, H₁⟩
    refine (ih H₁ rest).seq ?_
    rintro rs s₂ ⟨rfl, H₂⟩
    exact ⟨rfl, H₂⟩

/-- Any sequence of `writei`, `readi` and `itrunc`, in any transactions: if the blocks are
enough, every operation returns what it returns on byte arrays, and the files are these
arrays again. -/
theorem files_refine_arrays {ops : List FileOp} (consistent : Consistent sb entry opened s)
    (allowed : Allowed sb.ninodes opened
      (freeCount sb s.cache + blocks sb.ninodes (arrays sb i s)) ops (arrays sb i s)) :
    Run unlessFull i (codes sb entry ops) s fun rs s' =>
      Consistent sb entry opened s' ∧ (rs, arrays sb i s') = specs ops (arrays sb i s) := by
  refine (run_codes ⟨consistent, rfl, le_rfl⟩ allowed).mono ?_
  rintro rs s' ⟨rfl, H⟩
  exact ⟨H.consistent, Prod.ext rfl H.arrays⟩

end Run

/-! ## A small file system -/

section Small

def smallSb : Superblock := ⟨100, 16, 30, 2, 32, 34⟩

def emptyFile : Dinode := { Dinode.zero with type := T_FILE, nlink := 1 }

/-- An image with one file, inode 1, which is empty. -/
def smallDisk (b : Nat) : Block :=
  if b = 32 then putDinode Bytes.Buffer.zero 1 emptyFile
  else if b = 34 then Bytes.Buffer.zero.put 0 [255, 255, 255, 255, 7]
  else Bytes.Buffer.zero

/-- The file is open, seven pages of user memory are mapped, and the process is in a
transaction that has logged nothing yet. -/
def smallState : KSt (Fin 1) where
  disk := smallDisk
  cache := smallDisk
  hold _ := none
  pin _ := 0
  log := ⟨2, 30, 1, false, []⟩
  up := true
  aux :=
    { inode := fun _ => ⟨ROOTDEV, 1, 1, some 0, true, emptyFile⟩
      file := fun _ => ⟨.none, 0, false, false, 0, 0, 0, 0⟩
      proc := fun _ => ⟨.running, none, fun _ => none,
        fun pg => if pg < 7 then some fun _ => 0 else none⟩ }

theorem smallDisk_inodes (j : Nat) :
    diskInodes smallSb smallDisk j = if j = 1 then emptyFile else Dinode.zero := by
  have fits : emptyFile.Fits :=
    ⟨by decide, by decide, by decide, by decide, by decide, by decide, by decide⟩
  rw [diskInodes]
  by_cases h : j < smallSb.ninodes
  · have hj : j < 16 := h
    have block : smallSb.iblock j = 32 := by
      simp only [Superblock.iblock, smallSb, IPB, BSIZE, DINODE]
      omega
    rw [if_pos h, dinodeAt, block, Nat.mod_eq_of_lt (show j < IPB from hj), smallDisk, if_pos rfl]
    by_cases e : j = 1
    · rw [if_pos e, e, getDinode_putDinode_same fits (by decide)]
    · rw [if_neg e, getDinode_putDinode_of_ne fits.length (by omega), getDinode_zero]
  · rw [if_neg h, if_neg]
    rintro rfl
    exact h (by decide)

theorem smallDisk_ptrs (j t : Nat) : ptrs smallDisk (diskInodes smallSb smallDisk) j t = 0 := by
  rw [ptrs, smallDisk_inodes]
  by_cases e : j = 1
  · rw [if_pos e]
    exact slotPtr_zero
  · rw [if_neg e]
    exact slotPtr_zero

theorem smallDisk_size (j : Nat) : (diskInodes smallSb smallDisk j).size = 0 := by
  rw [smallDisk_inodes]
  by_cases e : j = 1
  · rw [if_pos e]
    rfl
  · rw [if_neg e]
    rfl

theorem smallState_consistent : Consistent smallSb (fun _ => 0) (· = 1) smallState where
  layout := ⟨by decide, by decide, by decide⟩
  sound := by
    refine ⟨⟨fun h => absurd (smallDisk_ptrs _ _) h, fun _ h => absurd (smallDisk_ptrs _ _) h⟩,
      by decide +kernel, fun j bn h => ?_, fun j => ?_, fun j => ?_⟩
    · exact absurd h (by rw [show smallState.cache = smallDisk from rfl, smallDisk_size]; omega)
    · rw [show smallState.cache = smallDisk from rfl, smallDisk_size]
      exact Nat.zero_le _
    · rw [diskInodes]
      split
      · exact getDinode_fits _ _
      · exact ⟨by decide, by decide, by decide, by decide, by decide, by decide, by decide⟩
  calm := ⟨fun _ => rfl, List.nodup_nil, fun _ _ _ => rfl⟩
  idle _ := rfl
  table := by
    rintro j rfl
    exact ⟨by decide, rfl, ((smallDisk_inodes 1).trans (if_pos rfl)).symm⟩
  inOp := rfl
  quiet := rfl
  area := by decide
  outside := nofun
  short := by decide

theorem smallState_file (j : Nat) : (arrays smallSb 0 smallState).file j = [] :=
  List.eq_nil_of_length_eq_zero ((length_file j).trans (smallDisk_size j))

theorem smallState_mem {a : Nat} (h : a < 28672) : (arrays smallSb 0 smallState).mem a = some 0 := by
  have page : a % 2 ^ 64 / PGSIZE < 7 := by
    simp only [PGSIZE]
    omega
  simp only [arrays, smallState, UMem.byte, if_pos page]
  rfl

theorem smallState_arrays : arrays smallSb 0 smallState =
    ⟨fun _ => [], (arrays smallSb 0 smallState).mem⟩ :=
  Arrays.ext_file smallState_file rfl

/-- The blocks that are free, and those that the files have. -/
theorem smallState_blocks : freeCount smallSb smallState.cache +
    blocks smallSb.ninodes (arrays smallSb 0 smallState) = 65 := by
  rw [smallState_arrays]
  decide +kernel

/-- Three bytes are written, read back after the commit, and truncated. -/
def smallOps : List FileOp :=
  [.write 1 (.kernel [1, 2, 3]) 0 3, .next, .read 1 .kernel 1 5, .trunc 1, .read 1 .kernel 0 5]

theorem smallOps_allowed : Allowed smallSb.ninodes (· = 1)
    (freeCount smallSb smallState.cache + blocks smallSb.ninodes (arrays smallSb 0 smallState))
    smallOps (arrays smallSb 0 smallState) := by
  rw [smallState_blocks, smallState_arrays]
  refine ⟨⟨rfl, by decide, by decide, Nat.le_refl 3⟩, by decide +kernel, trivial, by decide +kernel,
    ⟨rfl, by decide, by decide, trivial⟩, by decide +kernel, rfl, by decide +kernel,
    ⟨rfl, by decide, by decide, trivial⟩, by decide +kernel, trivial⟩

theorem files_refine_arrays_small :
    Consistent smallSb (fun _ => 0) (· = 1) smallState ∧
    Run unlessFull 0 (codes smallSb (fun _ => 0) smallOps) smallState fun rs _ =>
      rs = [(3, []), (0, []), (2, [2, 3]), (0, []), (0, [])] := by
  refine ⟨smallState_consistent,
    (files_refine_arrays smallState_consistent smallOps_allowed).mono ?_⟩
  rintro rs s' ⟨-, same⟩
  rw [show rs = (specs smallOps (arrays smallSb 0 smallState)).1 from congrArg Prod.fst same,
    smallState_arrays]
  decide +kernel

theorem strict_cond {X : Type} {a : Act X} {s : KSt (Fin 1)} : strict.cond (0 : Fin 1) a s := by
  cases a with
  | logWrite h => exact fun _ _ _ => trivial
  | _ => trivial

theorem strict_stop {a : Act (FsAct (Fin 1))} {s : KSt (Fin 1)} : ¬ strict.stop fsExec 0 a s := by
  cases a with
  | panic msg => exact id
  | _ => exact fun h => h.1

def fsAlone : Stepper (aloneSys (@fsExec (Fin 1) _)) :=
  aloneStepper fun i x t r t' (h : fsStep i x t = some (r, t')) => fsStep_sound h

def strictAlone : Stepper ((aloneSys (@fsExec (Fin 1) _)).restrict strict.cond) :=
  fsAlone.restrict
    (fun i _ _ => decide (i = 0)) fun {i _ _} h => by
      obtain rfl : i = 0 := of_decide_eq_true h
      exact strict_cond

/-- The next action is a panic. -/
def panics : Code (@FsRes (Fin 1)) Unit → Bool
  | .act (.panic _) _ => true
  | _ => false

/-- A computed run that ends in a panic refutes that the code always comes to its end. -/
theorem not_run_of_panics {p : FsCode (Fin 1) Unit} {s : KSt (Fin 1)} (n : Nat)
    (h : (strictAlone.run 0 n s (p.interp impl)).any (fun x => panics x.2) = true)
    {Q : Unit → KSt (Fin 1) → Prop} : ¬ Run strict 0 p s Q := by
  cases ran : strictAlone.run 0 n s (p.interp impl) with
  | none =>
    rw [ran] at h
    cases h
  | some x =>
    obtain ⟨s', p'⟩ := x
    rw [ran] at h
    obtain ⟨o, solo⟩ := strictAlone.run_solo ran
    cases p' with
    | ret x => cases h
    | act a k =>
      cases a with
      | panic msg =>
        have halts : ∀ a s r s', strict.stop fsExec 0 a s →
            ¬ ((aloneSys fsExec).restrict strict.cond).exec (0 : Fin 1) a s r s' :=
          fun _ _ _ _ excused => absurd excused strict_stop
        exact solo.not_must halts strict_stop fun r => Empty.elim r
      | _ => cases h

/-- The bytes of the mapped pages are written to the file. -/
def bigWrite : List FileOp := [.write 1 (.user 0) 0 28672]

theorem bigWrite_allowed : Allowed smallSb.ninodes (· = 1)
    (freeCount smallSb smallState.cache + blocks smallSb.ninodes (arrays smallSb 0 smallState))
    bigWrite (arrays smallSb 0 smallState) := by
  have file : ((arrays smallSb 0 smallState).file 1).length = 0 := by rw [smallState_file]; rfl
  have length : (Src.bytes (arrays smallSb 0 smallState).mem (.user 0) 28672).length = 28672 := by
    rw [Src.bytes, List.length_map, List.length_range]
  have sum := blocks_update (a := arrays smallSb 0 smallState) (show 1 < smallSb.ninodes by decide)
    (overwrite ((arrays smallSb 0 smallState).file 1) 0
      (Src.bytes (arrays smallSb 0 smallState).mem (.user 0) 28672))
  rw [length_overwrite (Nat.zero_le _), file, length] at sum
  refine ⟨⟨rfl, Nat.zero_le _, by decide, fun j hj => ?_⟩, ?_, trivial⟩
  · rw [Nat.zero_add, smallState_mem hj]
    nofun
  · have free : freeCount smallSb smallState.cache = 65 := by decide +kernel
    rw [show slotsFor (max 0 (0 + 28672)) = 29 by decide, slotsFor_zero] at sum
    simp only [FileOp.spec]
    omega

/-- Run a sequence of operations and panic if the answers are not the expected ones. -/
def expect (ops : List FileOp) (answers : List (Int × List UInt8)) : FsCode (Fin 1) Unit := do
  let rs ← codes smallSb (fun _ => 0) ops
  if rs = answers then return () else panic "unexpected"

theorem run_expect {ops : List FileOp} {answers : List (Int × List UInt8)} {s : KSt (Fin 1)}
    (h : Run strict 0 (codes smallSb (fun _ => 0) ops) s fun rs _ => rs = answers) :
    Run strict 0 (expect ops answers) s fun _ _ => True := by
  refine h.seq ?_
  rintro rs s' rfl
  rw [if_pos rfl]
  trivial

/-- The write of 28 blocks would log 30 blocks with the free map and the indirect block, but
the log takes 29. A `readi` to memory that is not mapped fails. -/
theorem files_not_always_arrays :
    Consistent smallSb (fun _ => 0) (· = 1) smallState ∧
    Allowed smallSb.ninodes (· = 1)
      (freeCount smallSb smallState.cache + blocks smallSb.ninodes (arrays smallSb 0 smallState))
      bigWrite (arrays smallSb 0 smallState) ∧
    ¬ Run strict 0 (codes smallSb (fun _ => 0) bigWrite) smallState (fun rs _ => rs = [(28672, [])]) ∧
    ¬ Run strict 0 (codes smallSb (fun _ => 0) [.write 1 (.kernel [1]) 0 1, .read 1 (.user 28672) 0 1])
      smallState (fun rs _ => rs = [(1, []), (1, [])]) := by
  refine ⟨smallState_consistent, bigWrite_allowed, fun h => ?_, fun h => ?_⟩
  · exact not_run_of_panics 523 (by decide +kernel) (run_expect h)
  · exact not_run_of_panics 31 (by decide +kernel) (run_expect h)

end Small

end Xv6.Fs
