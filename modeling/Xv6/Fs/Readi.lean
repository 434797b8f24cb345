import Xv6.Fs.Blocks

/-!
# Reading a file (`readi`, run alone)

If no block is missing below the size, `readi` returns the bytes of the file and changes
nothing, except for the user memory it copies to.
-/

namespace Xv6.Fs

open Interleave Log

/-! ## Runs of bytes -/

/-- `n` bytes of the contents from an offset on. -/
def fileBytes (c : Nat → Block) (din : Dinode) (off n : Nat) : List UInt8 :=
  (List.range n).map fun j => fileByte c din (off + j)

section Bytes

variable {c : Nat → Block} {din : Dinode} {off n : Nat}

@[simp] theorem length_fileBytes : (fileBytes c din off n).length = n := by simp [fileBytes]

theorem fileBytes_add (a b : Nat) :
    fileBytes c din off (a + b) = fileBytes c din off a ++ fileBytes c din (off + a) b := by
  simp only [fileBytes, List.range_add, List.map_append, List.map_map, Function.comp_def,
    Nat.add_assoc]

theorem getD_fileBytes {j : Nat} (hj : j < n) :
    (fileBytes c din off n).getD j 0 = fileByte c din (off + j) := by
  simp [fileBytes, hj]

/-- The part of a block that belongs to a run of bytes. -/
theorem slice_eq_fileBytes (set : slotPtr c din (slotOf (off / BSIZE)) ≠ 0)
    (room : off % BSIZE + n ≤ BSIZE) :
    (c (slotPtr c din (slotOf (off / BSIZE)))).slice (off % BSIZE) n = fileBytes c din off n := by
  refine List.map_congr_left fun j hj => ?_
  rw [List.mem_range] at hj
  have block : (off + j) / BSIZE = off / BSIZE := by
    simp only [BSIZE] at room ⊢
    omega
  have offset : (off + j) % BSIZE = off % BSIZE + j := by
    simp only [BSIZE] at room ⊢
    omega
  rw [fileByte, block, if_neg set, offset]

end Bytes

/-- There is a block for every byte below the size, and the size is possible. -/
structure Whole (c : Nat → Block) (din : Dinode) : Prop where
  blocks : ∀ bn, bn * BSIZE < din.size → slotPtr c din (slotOf bn) ≠ 0
  small : din.size ≤ MAXFILE * BSIZE

theorem Sound.whole {sb : Superblock} {c : Nat → Block} {dins : Nat → Dinode} {sz : Nat → Nat}
    (S : Sound sb c dins sz) {n : Nat} (size : (dins n).size = sz n) : Whole c (dins n) :=
  ⟨fun bn h => S.noHole n bn (size ▸ h), size ▸ S.small n⟩

/-- A process that holds no buffer and for which there is one. -/
structure Reader {ι : Type} (P : Policy) (s : KSt ι) : Prop where
  calm : Calm s
  idle : Idle s
  room : P.excuses "bget: no buffers" ∨ s.log.lh.length < NBUF

theorem Reader.seat {ι : Type} {P : Policy} {s : KSt ι} (R : Reader P s) (b : Nat) : P.Seat s b where
  few := by
    rw [R.idle.held]
    decide
  room := R.room.imp id fun short => Or.inr (by rw [R.idle.held]; omega)

/-- The number of bytes that `readi` returns. -/
def readCount (size off n : Nat) : Nat :=
  if off ≤ size ∧ off + n < 2 ^ 32 then min n (size - off) else 0

theorem toInt_of_lt {n : Nat} (h : n < 2 ^ 31) : toInt n = n := if_pos h

theorem addU_of_lt {a b : Nat} (h : a + b < 2 ^ 32) : addU a b = a + b := Nat.mod_eq_of_lt h

section Readi

variable {ι α : Type} [DecidableEq ι] {P : Policy} {i : ι} {sb : Superblock} {s : KSt ι}
variable {Q : α → KSt ι → Prop} {ip : IPtr} {din : Dinode} {off n : Nat}

/-- `readi` finds the block of the next byte. -/
theorem run_readBlock {f : Nat → FsCode ι α} (R : Reader P s) (hdin : (s.aux.inode ip).din = din)
    (whole : Whole s.cache din) (inside : off < din.size)
    (rest : slotPtr s.cache din (slotOf (off / BSIZE)) ≠ 0 →
      Run P i (f (slotPtr s.cache din (slotOf (off / BSIZE)))) s Q) :
    Run P i (bmap sb ip (off / BSIZE) >>= f) s Q := by
  have set := whole.blocks (off / BSIZE) (by simp only [BSIZE]; omega)
  exact run_bmap_set R.calm (R.seat _) (R.idle.unheld _) hdin set (rest set)

theorem run_readiFrom_kernel {f : Int × List UInt8 → FsCode ι α} (R : Reader P s)
    (hdin : (s.aux.inode ip).din = din) (whole : Whole s.cache din) {k tot : Nat}
    {out : List UInt8} (hk : n ≤ tot + k) (htot : tot ≤ n) (inside : off + (n - tot) ≤ din.size)
    (hn : n ≤ din.size)
    (rest : Run P i (f ((n : Int), out ++ fileBytes s.cache din off (n - tot))) s Q) :
    Run P i (readiFrom sb ip .kernel n k tot off out >>= f) s Q := by
  have small := whole.small
  simp only [MAXFILE, NDIRECT, NINDIRECT, BSIZE] at small
  induction k generalizing tot off out with
  | zero =>
    obtain rfl : tot = n := by omega
    rw [readiFrom, toInt_of_lt (by omega)]
    simpa [fileBytes] using rest
  | succ k ih =>
    rw [readiFrom]
    by_cases more : tot < n
    · rw [if_pos more]
      simp only [Prog.bind_assoc]
      refine run_readBlock R hdin whole (by omega) fun set => ?_
      refine run_bread R.calm (R.seat _) (R.idle.unheld _) fun h free => ?_
      refine run_getData R.calm free (run_brelse R.calm free rfl ?_)
      have room : off % BSIZE + min (n - tot) (BSIZE - off % BSIZE) ≤ BSIZE := by
        simp only [BSIZE]
        omega
      rw [slice_eq_fileBytes set room, addU_of_lt (by omega)]
      have pos : 0 < min (n - tot) (BSIZE - off % BSIZE) := by
        simp only [BSIZE]
        omega
      refine ih (by omega) (by omega) (by omega) ?_
      rw [List.append_assoc, ← fileBytes_add]
      convert rest using 4
      congr 1
      omega
    · obtain rfl : tot = n := by omega
      rw [if_neg more, toInt_of_lt (by omega)]
      simpa [fileBytes] using rest

/-- The user memory of a process is replaced. -/
def setMem (s : KSt ι) (i : ι) (m : UMem) : KSt ι :=
  { s with aux := s.aux.setProc i { s.aux.proc i with mem := m } }

theorem setMem_setMem {m m' : UMem} : setMem (setMem s i m) i m' = setMem s i m' := by
  simp [setMem, FsSt.setProc]

theorem setMem_mem {m : UMem} : ((setMem s i m).aux.proc i).mem = m := by
  simp [setMem, FsSt.setProc]

theorem setMem_self : setMem s i (s.aux.proc i).mem = s := by
  simp only [setMem, FsSt.setProc, Function.update_eq_self]

theorem Reader.setMem (R : Reader P s) {m : UMem} : Reader P (setMem s i m) :=
  ⟨R.calm.aux, R.idle, R.room⟩

theorem run_copyoutUser {f : Bool → FsCode ι α} {va : Nat} {l : List UInt8} (calm : Calm s)
    (rest : Run P i (f (copyout (s.aux.proc i).mem va l).2)
      (Fs.setMem s i (copyout (s.aux.proc i).mem va l).1) Q) :
    Run P i (copyoutUser va l >>= f) s Q := by
  refine run_fs calm (Or.inr ⟨_, _, rfl, rfl⟩) ?_
  rintro r t ⟨rfl, rfl⟩
  exact rest

/-- Memory `m'` is `m` with the first `n` bytes of `data` stored from `va` on. -/
def Stored (va : Nat) (data : Nat → UInt8) (n : Nat) (m m' : UMem) : Prop :=
  ∀ a, a < 2 ^ 64 → m'.byte a = if dist va a < n then some (data (dist va a)) else m.byte a

theorem covers_iff {m : UMem} {va len : Nat} :
    m.Covers va len ↔ ∀ j < len, m.byte ((va + j) % 2 ^ 64) ≠ none := by
  simp [UMem.Covers, UMem.byte]

theorem dist_add {va a tot : Nat} (hva : va < 2 ^ 64) (htot : tot < 2 ^ 64) :
    dist ((va + tot) % 2 ^ 64) a =
      if tot ≤ dist va a then dist va a - tot else dist va a + 2 ^ 64 - tot := by
  by_cases behind : tot ≤ dist va a
  · rw [if_pos behind]
    simp only [dist] at *
    omega
  · rw [if_neg behind]
    simp only [dist] at *
    omega

theorem Stored.covers {va n len : Nat} {data : Nat → UInt8} {m m' : UMem}
    (stored : Stored va data n m m') {x : Nat} (covers : m.Covers x len) : m'.Covers x len := by
  rw [covers_iff] at covers ⊢
  intro j hj
  rw [stored _ (Nat.mod_lt _ (by decide))]
  split
  · nofun
  · exact covers j hj

/-- The next bytes are stored behind those stored before. -/
theorem Stored.append {va tot k : Nat} {data : Nat → UInt8} {m m' m'' : UMem} {l : List UInt8}
    (hva : va < 2 ^ 64) (room : tot + k ≤ 2 ^ 32) (stored : Stored va data tot m m')
    (len : l.length = k) (next : ∀ j, j < k → l.getD j 0 = data (tot + j))
    (h : ∀ a, a < 2 ^ 64 → m''.byte a = if dist ((va + tot) % 2 ^ 64) a < l.length
      then some (l.getD (dist ((va + tot) % 2 ^ 64) a) 0) else m'.byte a) :
    Stored va data (tot + k) m m'' := by
  intro a ha
  have small : dist va a < 2 ^ 64 := Nat.mod_lt _ (by decide)
  rw [h a ha, stored a ha, dist_add hva (by omega), len]
  by_cases behind : tot ≤ dist va a
  · rw [if_pos behind, if_neg (Nat.not_lt.mpr behind)]
    by_cases near : dist va a < tot + k
    · rw [if_pos (by omega), if_pos near, next _ (by omega), Nat.add_sub_cancel' behind]
    · rw [if_neg (by omega), if_neg near]
  · rw [if_neg behind, if_neg (by omega), if_pos (by omega), if_pos (by omega)]

theorem run_readiFrom_user {f : Int × List UInt8 → FsCode ι α} {va : Nat} {m₀ : UMem} {start : Nat}
    (R : Reader P s) (hdin : (s.aux.inode ip).din = din) (whole : Whole s.cache din)
    (hva : va < 2 ^ 64) (covers : m₀.Covers va n) (hn : start + n ≤ din.size) {k tot : Nat}
    (hk : n ≤ tot + k) (htot : tot ≤ n) {m : UMem}
    (stored : Stored va (fun j => fileByte s.cache din (start + j)) tot m₀ m)
    (rest : ∀ m', Stored va (fun j => fileByte s.cache din (start + j)) n m₀ m' →
      Run P i (f ((n : Int), [])) (Fs.setMem s i m') Q) :
    Run P i (readiFrom sb ip (.user va) n k tot (start + tot) [] >>= f) (Fs.setMem s i m) Q := by
  have small := whole.small
  simp only [MAXFILE, NDIRECT, NINDIRECT, BSIZE] at small
  induction k generalizing tot m with
  | zero =>
    obtain rfl : tot = n := by omega
    rw [readiFrom, toInt_of_lt (by omega)]
    exact rest m stored
  | succ k ih =>
    rw [readiFrom]
    by_cases more : tot < n
    · have R' : Reader P (Fs.setMem s i m) := R.setMem
      have hdin' : ((Fs.setMem s i m).aux.inode ip).din = din := hdin
      rw [if_pos more]
      simp only [Prog.bind_assoc]
      refine run_readBlock R' hdin' whole (by omega) fun set => ?_
      refine run_bread R'.calm (R'.seat _) (R'.idle.unheld _) fun h free => ?_
      refine run_getData R'.calm free ?_
      have room : (start + tot) % BSIZE + min (n - tot) (BSIZE - (start + tot) % BSIZE) ≤ BSIZE := by
        simp only [BSIZE]
        omega
      have pos : 0 < min (n - tot) (BSIZE - (start + tot) % BSIZE) := by
        simp only [BSIZE]
        omega
      rw [show (Fs.setMem s i m).cache = s.cache from rfl] at set ⊢
      rw [slice_eq_fileBytes set room]
      refine run_copyoutUser (R'.calm.edit free) ?_
      have mapped : m.Covers ((va + tot) % 2 ^ 64) (min (n - tot) (BSIZE - (start + tot) % BSIZE)) := by
        intro j hj
        rw [Nat.mod_add_mod, Nat.add_assoc]
        exact stored.covers covers _ (by omega)
      have copied := @copyout_ok ((va + tot) % 2 ^ 64) m
        (fileBytes s.cache din (start + tot) (min (n - tot) (BSIZE - (start + tot) % BSIZE)))
        (Nat.mod_lt _ (by decide)) (by rw [length_fileBytes]; omega)
        (by rw [length_fileBytes]; exact mapped)
      simp only [edit_aux, setMem_mem, copied.1, if_true, Prog.bind_assoc]
      have state : ∀ {m' : UMem} {b d}, Fs.setMem ((Fs.setMem s i m).edit i h b d) i m' =
          (Fs.setMem s i m').edit i h b d := by
        intro m' b d
        rw [← @setMem_setMem ι _ i s m m']
        rfl
      rw [state]
      refine run_brelse R.setMem.calm free rfl ?_
      rw [addU_of_lt (by omega), Nat.add_assoc]
      refine ih (by omega) (by omega) ?_
      refine stored.append hva (by omega) length_fileBytes (fun j hj => ?_) copied.2
      rw [getD_fileBytes hj, Nat.add_assoc]
    · obtain rfl : tot = n := by omega
      rw [if_neg more, toInt_of_lt (by omega)]
      exact rest m stored

/-- `readi` up to its loop. -/
theorem run_readi {f : Int × List UInt8 → FsCode ι α} {dst : Dst} (calm : Calm s)
    (hdin : (s.aux.inode ip).din = din) (small : din.size ≤ MAXFILE * BSIZE) (hoff : off < 2 ^ 32)
    (hn : n < 2 ^ 32)
    (rest : off + readCount din.size off n ≤ din.size →
      Run P i (readiFrom sb ip dst (readCount din.size off n) (readCount din.size off n) 0 off [] >>= f)
        s Q)
    (none : readCount din.size off n = 0 → Run P i (f (0, [])) s Q) :
    Run P i (readi sb ip dst off n >>= f) s Q := by
  simp only [MAXFILE, NDIRECT, NINDIRECT, BSIZE] at small
  rw [readi, Prog.bind_assoc]
  refine run_info calm ?_
  simp only [Inode.info, hdin]
  by_cases outside : din.size < off ∨ addU off n < off
  · rw [if_pos outside]
    refine none (if_neg ?_)
    simp only [addU] at outside
    omega
  · have whole : off ≤ din.size ∧ off + n < 2 ^ 32 := by
      simp only [addU] at outside
      omega
    have count : (if din.size < addU off n then din.size - off else n) =
        readCount din.size off n := by
      rw [readCount, if_pos whole, addU_of_lt whole.2]
      split <;> omega
    rw [if_neg outside]
    simp only [count]
    refine rest ?_
    rw [readCount, if_pos whole]
    omega

theorem run_readi_kernel {f : Int × List UInt8 → FsCode ι α} (R : Reader P s)
    (hdin : (s.aux.inode ip).din = din) (whole : Whole s.cache din) (hoff : off < 2 ^ 32)
    (hn : n < 2 ^ 32)
    (rest : Run P i (f ((readCount din.size off n : Int),
      fileBytes s.cache din off (readCount din.size off n))) s Q) :
    Run P i (readi sb ip .kernel off n >>= f) s Q := by
  refine run_readi R.calm hdin whole.small hoff hn ?_ ?_
  · intro inside
    exact run_readiFrom_kernel R hdin whole (by omega) (by omega) (by omega) (by omega) (by simpa)
  · intro none
    rw [none] at rest
    exact rest

theorem run_readi_user {f : Int × List UInt8 → FsCode ι α} {va : Nat} (R : Reader P s)
    (hdin : (s.aux.inode ip).din = din) (whole : Whole s.cache din) (hoff : off < 2 ^ 32)
    (hn : n < 2 ^ 32) (hva : va < 2 ^ 64)
    (covers : (s.aux.proc i).mem.Covers va (readCount din.size off n))
    (rest : ∀ m, Stored va (fun j => fileByte s.cache din (off + j)) (readCount din.size off n)
        (s.aux.proc i).mem m → Run P i (f ((readCount din.size off n : Int), [])) (Fs.setMem s i m) Q) :
    Run P i (readi sb ip (.user va) off n >>= f) s Q := by
  have start : Stored va (fun j => fileByte s.cache din (off + j)) 0 (s.aux.proc i).mem
      (s.aux.proc i).mem := fun a _ => by simp
  refine run_readi R.calm hdin whole.small hoff hn ?_ ?_
  · intro inside
    have loop := @run_readiFrom_user ι α _ P i sb s Q ip din _ f va _ off R hdin whole hva covers
      inside _ 0 (Nat.le_add_left _ _) (Nat.zero_le _) _ start rest
    rwa [setMem_self] at loop
  · intro none
    rw [none] at rest
    have := rest _ start
    rwa [setMem_self] at this

end Readi

end Xv6.Fs
