import Mathlib
import Xv6.Fs.Readi

/-!
# Writing a file (`writei` and `iupdate`, run alone)

`Writes` is the effect of `writei` before it updates the inode: a run of bytes of one file
is set, blocks may be allocated for it, and nothing else changes.
-/

namespace Xv6.Fs

open Interleave Log

/-! ## The inode blocks -/

section Inodes

variable {sb : Superblock} {c c' : Nat → Block} {dins : Nat → Dinode} {sz : Nat → Nat}
variable {x : Nat} {d : Block}

/-- Nothing has changed from the free map on. -/
def SameAbove (sb : Superblock) (c c' : Nat → Block) : Prop := ∀ b, sb.bmapstart ≤ b → c' b = c b

theorem sameAbove_update (low : x < sb.bmapstart) : SameAbove sb c (Function.update c x d) :=
  fun _ _ => Function.update_of_ne (by omega) _ _

theorem Sound.ptrs_above (S : Sound sb c dins sz) (same : SameAbove sb c c') :
    ptrs c' dins = ptrs c dins := by
  funext j t
  refine slotPtr_congr_ind fun ind => same _ ?_
  have indPtr : ptrs c dins j NDIRECT = (dins j).ind := slotPtr_ind
  have use := S.owned.used (i := j) (s := NDIRECT) (by rwa [indPtr])
  rw [indPtr] at use
  exact bmapstart_lt.le.trans use.low

theorem SameAbove.marked (same : SameAbove sb c c') (b : Nat) : marked sb c' b = marked sb c b := by
  rw [Fs.marked, same _ le_bblock, Fs.marked]

theorem SameAbove.freeCount (same : SameAbove sb c c') : freeCount sb c' = freeCount sb c :=
  freeCount_congr fun b _ => same.marked b

/-- What lies before the free map is not part of the contents of files. -/
theorem Sound.above (S : Sound sb c dins sz) (same : SameAbove sb c c') : Sound sb c' dins sz := by
  have ptr := S.ptrs_above same
  constructor
  · rw [ptr]
    refine ⟨fun h => ?_, S.owned.inj⟩
    have use := S.owned.used h
    exact ⟨use.low, use.high, by rw [same.marked, use.mark]⟩
  · intro b hb hs
    rw [same.marked, S.base b hb hs]
  · rw [ptr]
    exact S.noHole
  · exact S.small
  · exact S.fits

theorem Sound.fileByte_above (S : Sound sb c dins sz) (same : SameAbove sb c c') (j off : Nat) :
    fileByte c' (dins j) off = fileByte c (dins j) off := by
  have ptr : slotPtr c' (dins j) (slotOf (off / BSIZE)) = slotPtr c (dins j) (slotOf (off / BSIZE)) :=
    congrFun (congrFun (S.ptrs_above same) j) _
  rw [fileByte, fileByte, ptr]
  by_cases set : slotPtr c (dins j) (slotOf (off / BSIZE)) = 0
  · rw [if_pos set, if_pos set]
  · have high : sb.dataStart ≤ slotPtr c (dins j) (slotOf (off / BSIZE)) :=
      (S.owned.used (i := j) set).low
    rw [if_neg set, if_neg set, same _ (bmapstart_lt.le.trans high)]

/-- One inode is stored. -/
theorem dinodeAt_putDinode {n j : Nat} {din : Dinode} (fits : din.Fits) :
    dinodeAt sb (Function.update c (sb.iblock n)
      (putDinode (c (sb.iblock n)) (n % IPB) din)) j = if j = n then din else dinodeAt sb c j := by
  rw [dinodeAt, dinodeAt]
  by_cases block : sb.iblock j = sb.iblock n
  · rw [block, Function.update_self]
    by_cases e : j = n
    · rw [if_pos e, e, getDinode_putDinode_same fits (Nat.mod_lt _ (by decide))]
    · rw [if_neg e, getDinode_putDinode_of_ne fits.length]
      simp only [Superblock.iblock, IPB, BSIZE, DINODE] at block ⊢
      omega
  · rw [Function.update_of_ne block, if_neg (by rintro rfl; exact block rfl)]

end Inodes

/-! ## Sources -/

section Sources

/-- `m` bytes of the source behind the first `tot`. -/
def Src.piece (mem : UMem) : Src → Nat → Nat → List UInt8
  | .kernel bytes, tot, m => (bytes.drop tot).take m
  | .user va, tot, m => mem.bytes (va + tot) m

/-- The source can be read. -/
def Src.Readable (mem : UMem) : Src → Nat → Prop
  | .kernel bytes, n => n ≤ bytes.length
  | .user va, n => mem.Covers va n

/-- A piece of the source can be read. -/
def Src.Has (mem : UMem) : Src → Nat → Nat → Prop
  | .kernel bytes, tot, m => tot + m ≤ bytes.length
  | .user va, tot, m => mem.Covers (va + tot) m

variable {mem : UMem} {src : Src} {tot n a b : Nat}

theorem Src.Readable.has (readable : src.Readable mem n) (h : tot + a ≤ n) : src.Has mem tot a := by
  cases src with
  | kernel bytes => exact h.trans readable
  | user va =>
    intro j hj
    rw [Nat.add_assoc]
    exact readable _ (by omega)

theorem Src.piece_add (src : Src) (tot a b : Nat) :
    src.piece mem tot (a + b) = src.piece mem tot a ++ src.piece mem (tot + a) b := by
  cases src with
  | kernel bytes => simp only [piece, List.take_add, List.drop_drop]
  | user va => simp only [piece, UMem.bytes_add, Nat.add_assoc]

theorem Src.Has.length_piece (has : src.Has mem tot a) : (src.piece mem tot a).length = a := by
  cases src with
  | kernel bytes =>
    simp only [Has] at has
    simp only [piece, List.length_take, List.length_drop]
    omega
  | user va => simp [piece]

theorem Src.length_piece (readable : src.Readable mem n) (h : tot + a ≤ n) :
    (src.piece mem tot a).length = a := (readable.has h).length_piece

end Sources

section Actions

variable {ι α : Type} [DecidableEq ι] {P : Policy} {i : ι} {sb : Superblock} {s : KSt ι}
variable {Q : α → KSt ι → Prop} {ip : IPtr} {h : Handle} {b n : Nat}

theorem run_iupdate {f : Unit → FsCode ι α} {info : Inode ι} (R : Reader P s)
    (hip : s.aux.inode ip = info) (takes : P.Takes s.log (sb.iblock info.inum))
    (rest : s.log.HasRoom → Run P i (f ()) (s.store (sb.iblock info.inum)
      (putDinode (s.cache (sb.iblock info.inum)) (info.inum % IPB) info.din)) Q) :
    Run P i (iupdate sb ip >>= f) s Q := by
  rw [iupdate]
  simp only [Prog.bind_assoc]
  refine run_info R.calm ?_
  rw [hip]
  refine run_bread R.calm (R.seat _) (R.idle.unheld _) fun h free => ?_
  exact run_getData R.calm free (run_setData R.calm free (run_log R.calm free takes rest))

/-- A run of bytes is put into a held buffer, which is logged and given back. -/
theorem run_storeLog {f : Unit → FsCode ι α} {o : Nat} {bytes : List UInt8} (calm : Calm s)
    (free : s.hold h = none) (takes : P.Takes s.log b)
    (rest : s.log.HasRoom → Run P i (f ()) (s.store b ((s.cache b).put o bytes)) Q) :
    Run P i (storeBytes h o bytes >>= fun _ => logWrite h >>= fun _ => brelse h >>= f)
      (s.edit i h b (s.cache b)) Q := by
  rw [storeBytes, onlyIf]
  by_cases empty : bytes = []
  · rw [if_neg (by simp [empty]), Prog.pure_bind]
    rw [empty, Bytes.Buffer.put_nil] at rest
    exact run_log calm free takes rest
  · rw [if_pos empty]
    simp only [Prog.bind_assoc]
    exact run_getData calm free (run_setData calm free (run_log calm free takes rest))

theorem run_writeBlock {f : Bool → FsCode ι α} {src : Src} {tot o m : Nat} (calm : Calm s)
    (free : s.hold h = none) (takes : P.Takes s.log b)
    (has : src.Has (s.aux.proc i).mem tot m)
    (rest : s.log.HasRoom → Run P i (f true)
      (s.store b ((s.cache b).put o (src.piece (s.aux.proc i).mem tot m))) Q) :
    Run P i (writeBlock h src tot o m >>= f) (s.edit i h b (s.cache b)) Q := by
  cases src with
  | kernel bytes =>
    rw [writeBlock]
    simp only [Prog.bind_assoc, Prog.pure_bind]
    exact run_storeLog calm free takes rest
  | user va =>
    have covers : (s.aux.proc i).mem.Covers ((va + tot) % 2 ^ 64) m := UMem.covers_mod.mpr has
    rw [writeBlock]
    simp only [Prog.bind_assoc]
    refine run_fs (calm.edit free) (Or.inr ⟨_, _, rfl, rfl⟩) ?_
    rintro r t ⟨rfl, rfl⟩
    rw [edit_aux, copyin_eq covers, UMem.bytes_mod]
    simp only [if_true, Prog.bind_assoc, Prog.pure_bind]
    exact run_storeLog calm free takes rest

end Actions

/-! ## The loop of `writei` -/

/-- The bytes `data` are put into file `n` at `off`; at most `k` blocks are allocated. -/
structure Writes {ι : Type} (sb : Superblock) (sz : Nat → Nat) (ip : IPtr) (n k off : Nat)
    (data : List UInt8) (s : KSt ι) (dins : Nat → Dinode) (s' : KSt ι) (dins' : Nat → Dinode) :
    Prop where
  sound : Sound sb s'.cache dins' (Function.update sz n (max (sz n) (off + data.length)))
  calm : Calm s'
  hold : s'.hold = s.hold
  aux : s'.aux = (putDin s ip (dins' n)).aux
  other : ∀ j, j ≠ n → dins' j = dins j
  same : dins' n = { dins n with addrs := (dins' n).addrs }
  bytes : ∀ j o, fileByte s'.cache (dins' j) o =
    if j = n ∧ off ≤ o ∧ o < off + data.length then data.getD (o - off) 0
    else fileByte s.cache (dins j) o
  low : ∀ x, x < sb.bmapstart → s'.cache x = s.cache x
  log : s'.log = { s.log with lh := s'.log.lh }
  free : freeCount sb s.cache ≤ freeCount sb s'.cache + k

section Loop

variable {ι : Type} {sb : Superblock} {s s' s'' : KSt ι} {ip : IPtr} {n k k' off : Nat}
variable {dins dins' dins'' : Nat → Dinode} {sz : Nat → Nat} {a b : List UInt8}

theorem Writes.din (W : Writes sb sz ip n k off a s dins s' dins') :
    s'.aux.inode ip = { s.aux.inode ip with din := dins' n } := by
  rw [W.aux, putDin_inode]

theorem Writes.nil (S : Sound sb s.cache dins sz) (calm : Calm s)
    (hdin : (s.aux.inode ip).din = dins n) (low : off ≤ sz n) :
    Writes sb sz ip n 0 off [] s dins s dins where
  sound := by
    rw [List.length_nil, Nat.add_zero, max_eq_left low, Function.update_eq_self]
    exact S
  calm := calm
  hold := rfl
  aux := by rw [← hdin, putDin_self]
  other := fun _ _ => rfl
  same := rfl
  bytes := fun j o => by rw [if_neg (by simp only [List.length_nil]; omega)]
  low := fun _ _ => rfl
  log := rfl
  free := le_rfl

theorem Writes.append (W : Writes sb sz ip n k off a s dins s' dins')
    (W' : Writes sb (Function.update sz n (max (sz n) (off + a.length))) ip n k' (off + a.length) b
      s' dins' s'' dins'') :
    Writes sb sz ip n (k + k') off (a ++ b) s dins s'' dins'' where
  sound := by
    have S := W'.sound
    rw [Function.update_self, Function.update_idem] at S
    convert S using 2
    rw [List.length_append]
    omega
  calm := W'.calm
  hold := W'.hold.trans W.hold
  aux := by
    rw [W'.aux, ← @putDin_putDin ι s ip (dins' n) (dins'' n)]
    simp only [putDin, W.aux]
  other := fun j hj => (W'.other j hj).trans (W.other j hj)
  same := by rw [W'.same, W.same]
  bytes := by
    intro j o
    rw [W'.bytes, W.bytes, List.length_append]
    by_cases e : j = n
    · by_cases second : off + a.length ≤ o ∧ o < off + a.length + b.length
      · rw [if_pos ⟨e, second⟩, if_pos ⟨e, by omega⟩, List.getD_append_right _ _ _ _ (by omega),
          Nat.sub_sub]
      · rw [if_neg (by simp [second])]
        by_cases first : off ≤ o ∧ o < off + a.length
        · rw [if_pos ⟨e, first⟩, if_pos ⟨e, by omega⟩, List.getD_append _ _ _ _ (by omega)]
        · rw [if_neg (by simp [first]), if_neg (by omega)]
    · rw [if_neg (by simp [e]), if_neg (by simp [e]), if_neg (by simp [e])]
  low := fun x hx => (W'.low x hx).trans (W.low x hx)
  log := by rw [W'.log, W.log]
  free := by
    have := W.free
    have := W'.free
    omega

end Loop

/-- The number of blocks that a run of bytes meets. -/
def spanned (off len : Nat) : Nat :=
  if len = 0 then 0 else (off + len - 1) / BSIZE - off / BSIZE + 1

theorem spanned_step {off len a : Nat} (pos : 0 < len) (ha : a = min len (BSIZE - off % BSIZE)) :
    spanned off len = spanned (off + a) (len - a) + 1 := by
  simp only [spanned, BSIZE] at *
  split_ifs <;> omega

section Grow

variable {sb : Superblock} {c : Nat → Block} {dins : Nat → Dinode} {sz : Nat → Nat} {n off a : Nat}

/-- A file grows inside its last block, or by one block. -/
theorem Sound.grow (S : Sound sb c dins sz) (low : off ≤ sz n) (inside : off % BSIZE + a ≤ BSIZE)
    (set : ptrs c dins n (slotOf (off / BSIZE)) ≠ 0) (high : off + a ≤ MAXFILE * BSIZE) :
    Sound sb c dins (Function.update sz n (max (sz n) (off + a))) := by
  refine ⟨S.owned, S.base, ?_, ?_, S.fits⟩
  · intro j bn hbn
    by_cases e : j = n
    · subst e
      rw [Function.update_self] at hbn
      by_cases old : bn * BSIZE < sz j
      · exact S.noHole j bn old
      · have : bn = off / BSIZE := by
          simp only [BSIZE] at *
          omega
        rwa [this]
    · rw [Function.update_of_ne e] at hbn
      exact S.noHole j bn hbn
  · intro j
    by_cases e : j = n
    · subst e
      rw [Function.update_self]
      exact max_le (S.small j) high
    · rw [Function.update_of_ne e]
      exact S.small j

/-- What `bmap` allocates for a byte at or before the end of a file is what the file needs
to reach behind that byte. -/
theorem Sound.bmapNeed_le (S : Sound sb c dins sz) (low : off ≤ sz n) (pos : 0 < a)
    (inside : off % BSIZE + a ≤ BSIZE) :
    bmapNeed c (dins n) (off / BSIZE) + slotsFor (sz n) ≤ slotsFor (max (sz n) (off + a)) := by
  by_cases set : slotPtr c (dins n) (slotOf (off / BSIZE)) = 0
  · have full : sz n = off ∧ off % BSIZE = 0 := by
      by_contra h
      refine S.noHole n (off / BSIZE) ?_ set
      simp only [BSIZE] at h ⊢
      omega
    rw [full.1, max_eq_right (by omega), slotsFor_add pos inside, slotsFor_of_full full.2, bmapNeed,
      if_pos set]
    by_cases first : off / BSIZE = NDIRECT
    · rw [if_pos first, first, slotOf_indirect le_rfl]
      split <;> omega
    · rw [if_neg first, if_neg]
      · omega
      · rintro ⟨indirect, none⟩
        have before := S.noHole n (off / BSIZE - 1) (by
          rw [full.1]
          simp only [BSIZE, NDIRECT] at *
          omega)
        rw [slotOf_indirect (by omega), ptrs, slotPtr, if_neg (by omega),
          if_neg (by simp [none])] at before
        exact before rfl
  · rw [bmapNeed_set set, Nat.zero_add]
    exact slotsFor_mono (le_max_left _ _)

end Grow

section Writei

variable {ι α : Type} [DecidableEq ι] {P : Policy} {i : ι} {sb : Superblock} {s : KSt ι}
variable {Q : α → KSt ι → Prop} {K : Finset Nat} {ip : IPtr} {n m off len : Nat}
variable {dins : Nat → Dinode} {sz : Nat → Nat} {src : Src}

/-- One round of `writei`: bytes are put into one block. -/
theorem run_writeRound {f : Bool → FsCode ι α} {tot a : Nat} (W : Writer P sb K)
    (S : Sound sb s.cache dins sz) (calm : Calm s) (idle : Idle s)
    (hdin : (s.aux.inode ip).din = dins n) (has : src.Has (s.aux.proc i).mem tot a) (pos : 0 < a)
    (inside : off % BSIZE + a ≤ BSIZE) (low : off ≤ sz n)
    (high : off + a ≤ MAXFILE * BSIZE) (room : Room P sb K (m + 1 + indCost K (dins n)) s.log)
    (enough : P.excuses "balloc: out of blocks" ∨
      slotsFor (max (sz n) (off + a)) ≤ freeCount sb s.cache + slotsFor (sz n))
    (rest : ∀ s' dins' K',
      Writes sb sz ip n (slotsFor (max (sz n) (off + a)) - slotsFor (sz n)) off
        (src.piece (s.aux.proc i).mem tot a) s dins s' dins' → K ⊆ K' →
      Room P sb K' (m + indCost K' (dins' n)) s'.log → Run P i (f true) s' Q) :
    Run P i (bmap sb ip (off / BSIZE) >>= fun addr => bread addr >>= fun bp =>
      writeBlock bp src tot (off % BSIZE) a >>= f) s Q := by
  have hbn : off / BSIZE < MAXFILE := by
    simp only [MAXFILE, NDIRECT, NINDIRECT, BSIZE] at *
    omega
  have need := S.bmapNeed_le low pos inside
  have length := has.length_piece
  refine run_bmap W S calm idle hdin hbn room (enough.imp id (by omega)) ?_
  intro s₁ dins₁ b K' E ptr set sub mem room₁
  have idle₁ : Idle s₁ := by
    intro h
    rw [E.hold]
    exact idle h
  have proc : s₁.aux.proc = s.aux.proc := by
    rw [E.aux]
    rfl
  have can : CanAlloc P sb s₁ := canAlloc_of_idle E.calm idle₁ W.bget
  refine run_bread E.calm ⟨can.few, Or.inl W.bget⟩ (idle₁.unheld b) fun h free => ?_
  have use := E.sound.owned.used (ptr.symm ▸ set)
  rw [ptr] at use
  refine run_writeBlock E.calm free (room₁.takes (Or.inl mem)) (by rw [proc]; exact has) ?_
  intro fit
  rw [proc]
  refine rest _ dins₁ K' ?_ sub (room₁.add mem ?_ fit)
  swap
  · have := use.low
    have := @bmapstart_lt sb
    have := W.layout.order
    omega
  have wrote := E.sound.write ptr.symm set
    ((s₁.cache b).put (off % BSIZE) (src.piece (s.aux.proc i).mem tot a))
  have block : ptrs (Function.update s₁.cache b
      ((s₁.cache b).put (off % BSIZE) (src.piece (s.aux.proc i).mem tot a))) dins₁ n
        (slotOf (off / BSIZE)) ≠ 0 := by
    have same := E.sound.owned.ptrs_update (ptr.symm ▸ set) (slotOf_ne (off / BSIZE))
      ((s₁.cache b).put (off % BSIZE) (src.piece (s.aux.proc i).mem tot a))
    rw [ptr] at same
    rw [same, ptr]
    exact set
  constructor
  · rw [length]
    exact wrote.grow low inside block high
  · exact E.calm.store
  · exact E.hold
  · exact E.aux
  · exact E.other
  · exact E.same
  · intro j o
    rw [store_cache, E.sound.owned.fileByte_put ptr.symm set (by rw [length]; exact inside), E.bytes]
  · intro x hx
    have := E.sound.write_low (ptr.symm ▸ set)
      ((s₁.cache b).put (off % BSIZE) (src.piece (s.aux.proc i).mem tot a)) hx
    rw [ptr] at this
    rw [store_cache, this]
    exact E.low x hx
  · rw [store_log, E.log]
    rfl
  · have count : freeCount sb (s₁.store b ((s₁.cache b).put (off % BSIZE)
        (src.piece (s.aux.proc i).mem tot a))).cache = freeCount sb s₁.cache :=
      freeCount_congr fun x hx => marked_data use.low hx
    have := E.free
    omega

/-- The loop of `writei` when it has written everything. -/
theorem run_writeiDone {f : Nat × Nat → FsCode ι α} {tot : Nat} (S : Sound sb s.cache dins sz)
    (calm : Calm s) (hdin : (s.aux.inode ip).din = dins n)
    (readable : src.Readable (s.aux.proc i).mem tot) (low : off ≤ sz n) (room : Room P sb K m s.log)
    (rest : ∀ s' dins' K',
      Writes sb sz ip n (slotsFor (max (sz n) (off + (tot - tot))) - slotsFor (sz n)) off
        (src.piece (s.aux.proc i).mem tot (tot - tot)) s dins s' dins' → K ⊆ K' →
      Room P sb K' m s'.log → Run P i (f (tot, off + (tot - tot))) s' Q) :
    Run P i (f (tot, off)) s Q := by
  rw [Nat.sub_self, Nat.add_zero, max_eq_left low, Nat.sub_self] at rest
  have piece : src.piece (s.aux.proc i).mem tot 0 = [] :=
    List.eq_nil_of_length_eq_zero (Src.length_piece readable (by omega))
  rw [piece] at rest
  exact rest s dins K (Writes.nil S calm hdin low) subset_rfl room

theorem run_writeiFrom {f : Nat × Nat → FsCode ι α} {k tot : Nat} (W : Writer P sb K)
    (S : Sound sb s.cache dins sz) (calm : Calm s) (idle : Idle s)
    (hdin : (s.aux.inode ip).din = dins n) (readable : src.Readable (s.aux.proc i).mem len)
    (hk : len ≤ tot + k) (htot : tot ≤ len) (low : off ≤ sz n)
    (high : off + (len - tot) ≤ MAXFILE * BSIZE)
    (room : Room P sb K (m + spanned off (len - tot) + indCost K (dins n)) s.log)
    (enough : P.excuses "balloc: out of blocks" ∨
      slotsFor (max (sz n) (off + (len - tot))) ≤ freeCount sb s.cache + slotsFor (sz n))
    (rest : ∀ s' dins' K',
      Writes sb sz ip n (slotsFor (max (sz n) (off + (len - tot))) - slotsFor (sz n)) off
        (src.piece (s.aux.proc i).mem tot (len - tot)) s dins s' dins' → K ⊆ K' →
      Room P sb K' m s'.log → Run P i (f (len, off + (len - tot))) s' Q) :
    Run P i (writeiFrom sb ip src len k tot off >>= f) s Q := by
  induction k generalizing s K tot off dins sz with
  | zero =>
    obtain rfl : tot = len := by omega
    exact run_writeiDone S calm hdin readable low (room.less (by omega)) rest
  | succ k ih =>
    rw [writeiFrom]
    by_cases more : tot < len
    · rw [if_pos more]
      simp only [Prog.bind_assoc]
      obtain ⟨a, ha⟩ : ∃ a, a = min (len - tot) (BSIZE - off % BSIZE) := ⟨_, rfl⟩
      rw [← ha]
      have pos : 0 < a := by
        simp only [BSIZE] at ha
        omega
      have inside : off % BSIZE + a ≤ BSIZE := by
        simp only [BSIZE] at ha ⊢
        omega
      have length := Src.length_piece (a := a) readable (show tot + a ≤ len by omega)
      have left : len - tot - a = len - (tot + a) := by omega
      have reach : off + (len - tot) = off + a + (len - (tot + a)) := by omega
      rw [spanned_step (by omega) ha, left] at room
      have less := slotsFor_mono (show max (sz n) (off + a) ≤ max (sz n) (off + (len - tot)) by omega)
      refine run_writeRound (m := m + spanned (off + a) (len - (tot + a))) W S calm idle hdin
        (readable.has (by omega)) pos inside low (by omega) (room.less (by omega)) (enough.imp id (by omega)) ?_
      intro s₁ dins₁ K₁ W₁ sub room₁
      have small : off + a < 2 ^ 32 := by
        simp only [MAXFILE, NDIRECT, NINDIRECT, BSIZE] at high
        omega
      have proc : s₁.aux.proc = s.aux.proc := by
        rw [W₁.aux]
        rfl
      have sound := W₁.sound
      rw [length] at sound
      have size : Function.update sz n (max (sz n) (off + a)) n = max (sz n) (off + a) :=
        Function.update_self ..
      have same : max (max (sz n) (off + a)) (off + a + (len - (tot + a))) =
          max (sz n) (off + (len - tot)) := by omega
      have first := slotsFor_mono (le_max_left (sz n) (off + a))
      rw [if_pos rfl, addU_of_lt small]
      refine ih (W.mono sub) sound W₁.calm (fun h => by rw [W₁.hold]; exact idle h)
        (by rw [W₁.din]) (by rw [proc]; exact readable) (by omega) (by omega) (by rw [size]; omega)
        (by omega) room₁ ?_ ?_
      · rw [size, same]
        exact enough.imp id fun fit => by have := W₁.free; omega
      · intro s₂ dins₂ K₂ W₂ sub₂ room₂
        rw [size, same, proc] at W₂
        rw [← reach]
        refine rest s₂ dins₂ K₂ ?_ (sub.trans sub₂) room₂
        have both := W₁.append (by rw [length]; exact W₂)
        rwa [← Src.piece_add, show a + (len - (tot + a)) = len - tot by omega,
          show slotsFor (max (sz n) (off + a)) - slotsFor (sz n) +
            (slotsFor (max (sz n) (off + (len - tot))) - slotsFor (max (sz n) (off + a))) =
              slotsFor (max (sz n) (off + (len - tot))) - slotsFor (sz n) by omega] at both
    · obtain rfl : tot = len := by omega
      rw [if_neg more]
      exact run_writeiDone S calm hdin readable low (room.less (by omega)) rest

end Writei

/-! ## `writei` -/

/-- Inode `n` has changed in memory, and no other inode. -/
structure Changed {ι : Type} (sb : Superblock) (sz : Nat → Nat) (ip : IPtr) (n : Nat) (s : KSt ι)
    (dins : Nat → Dinode) (s' : KSt ι) (dins' : Nat → Dinode) : Prop where
  sound : Sound sb s'.cache dins' sz
  calm : Calm s'
  hold : s'.hold = s.hold
  aux : s'.aux = (putDin s ip (dins' n)).aux
  other : ∀ j, j ≠ n → dins' j = dins j
  low : ∀ x, x < sb.bmapstart → s'.cache x = s.cache x
  log : s'.log = { s.log with lh := s'.log.lh }

/-- Inode `n` has changed, in memory and on the disk, and no other inode. -/
structure Updated {ι : Type} (sb : Superblock) (sz : Nat → Nat) (ip : IPtr) (n : Nat) (s : KSt ι)
    (dins : Nat → Dinode) (s' : KSt ι) (dins' : Nat → Dinode) : Prop where
  sound : Sound sb s'.cache dins' sz
  calm : Calm s'
  hold : s'.hold = s.hold
  aux : s'.aux = (putDin s ip (dins' n)).aux
  other : ∀ j, j ≠ n → dins' j = dins j
  disk : ∀ j, j < sb.ninodes →
    dinodeAt sb s'.cache j = if j = n then dins' n else dinodeAt sb s.cache j
  log : s'.log = { s.log with lh := s'.log.lh }

/-- The inodes on the disk are the new ones. -/
theorem Updated.diskInodes_eq {ι : Type} {sb : Superblock} {sz : Nat → Nat} {ip : IPtr} {n : Nat}
    {s s' : KSt ι} {dins' : Nat → Dinode} (hn : n < sb.ninodes)
    (U : Updated sb sz ip n s (diskInodes sb s.cache) s' dins') :
    diskInodes sb s'.cache = dins' := by
  funext j
  rw [diskInodes]
  by_cases h : j < sb.ninodes
  · rw [if_pos h, U.disk j h]
    by_cases e : j = n
    · rw [if_pos e, e]
    · rw [if_neg e, U.other j e, diskInodes, if_pos h]
  · have e : j ≠ n := by
      rintro rfl
      exact h hn
    rw [if_neg h, U.other j e, diskInodes, if_neg h]

/-- What `writei` does when it puts `data` into the file and allocates at most `k` blocks. -/
structure WroteSome {ι : Type} (sb : Superblock) (sz : Nat → Nat) (ip : IPtr) (n k off : Nat)
    (data : List UInt8) (s : KSt ι) (dins : Nat → Dinode) (s' : KSt ι) (dins' : Nat → Dinode) : Prop
    extends Updated sb (Function.update sz n (max (sz n) (off + data.length))) ip n s dins s' dins'
    where
  same : dins' n = { dins n with
    addrs := (dins' n).addrs, size := max (dins n).size (off + data.length) }
  bytes : ∀ j o, fileByte s'.cache (dins' j) o =
    if j = n ∧ off ≤ o ∧ o < off + data.length then data.getD (o - off) 0
    else fileByte s.cache (dins j) o
  free : freeCount sb s.cache ≤ freeCount sb s'.cache + k

/-- What `writei` does. -/
structure Wrote {ι : Type} (sb : Superblock) (sz : Nat → Nat) (ip : IPtr) (n off : Nat)
    (data : List UInt8) (s : KSt ι) (dins : Nat → Dinode) (s' : KSt ι) (dins' : Nat → Dinode) : Prop
    extends Updated sb (Function.update sz n (max (sz n) (off + data.length))) ip n s dins s' dins'
    where
  same : dins' n = { dins n with
    addrs := (dins' n).addrs, size := max (dins n).size (off + data.length) }
  bytes : ∀ j o, fileByte s'.cache (dins' j) o =
    if j = n ∧ off ≤ o ∧ o < off + data.length then data.getD (o - off) 0
    else fileByte s.cache (dins j) o
  free : freeCount sb s.cache + slotsFor (sz n) ≤
    freeCount sb s'.cache + slotsFor (max (sz n) (off + data.length))

theorem Wrote.some {ι : Type} {sb : Superblock} {sz : Nat → Nat} {ip : IPtr} {n off : Nat} {data : List UInt8}
    {s s' : KSt ι} {dins dins' : Nat → Dinode} (W : Wrote sb sz ip n off data s dins s' dins') :
    WroteSome sb sz ip n (slotsFor (max (sz n) (off + data.length))) off data s dins s' dins' :=
  ⟨W.toUpdated, W.same, W.bytes, by have := W.free; omega⟩

section Writei

variable {ι α : Type} [DecidableEq ι] {P : Policy} {i : ι} {sb : Superblock} {s : KSt ι}
variable {Q : α → KSt ι → Prop} {K : Finset Nat} {ip : IPtr} {n m off len : Nat}
variable {dins : Nat → Dinode} {sz : Nat → Nat} {src : Src}

/-- Only fields other than the pointers of an inode are changed. -/
theorem Sound.setFields {c : Nat → Block} (S : Sound sb c dins sz) {din : Dinode} (fits : din.Fits)
    (addrs : din.addrs = (dins n).addrs) : Sound sb c (Function.update dins n din) sz := by
  have same : ptrs c (Function.update dins n din) = ptrs c dins := by
    funext j t
    by_cases e : j = n
    · subst e
      rw [ptrs, Function.update_self, ptrs, slotPtr, slotPtr, Dinode.ind, Dinode.ind, addrs]
    · rw [ptrs, Function.update_of_ne e, ptrs]
  refine ⟨by rw [same]; exact S.owned, S.base, by rw [same]; exact S.noHole, S.small, fun j => ?_⟩
  by_cases e : j = n
  · rw [e, Function.update_self]
    exact fits
  · rw [Function.update_of_ne e]
    exact S.fits j

/-- The inode is written back to the disk. -/
theorem dinodeAt_iupdate (L : Layout sb) {c c' : Nat → Block} {din : Dinode} (fits : din.Fits)
    (low : ∀ x, x < sb.bmapstart → c' x = c x) {j : Nat} (hj : j < sb.ninodes) :
    dinodeAt sb (Function.update c' (sb.iblock n) (putDinode (c' (sb.iblock n)) (n % IPB) din)) j =
      if j = n then din else dinodeAt sb c j := by
  rw [dinodeAt_putDinode fits, dinodeAt, dinodeAt, low _ (L.inodes j hj)]

/-- `iupdate` writes the inode back to the disk. -/
theorem run_writeBack {f : Unit → FsCode ι α} {s₁ : KSt ι} {dins' : Nat → Dinode} (W : Writer P sb K)
    (idle : Idle s) (hn : n < sb.ninodes) (inum : (s.aux.inode ip).inum = n)
    (C : Changed sb sz ip n s dins s₁ dins') (room : Room P sb K m s₁.log) (mem : sb.iblock n ∈ K)
    (rest : ∀ s', Updated sb sz ip n s dins s' dins' → SameAbove sb s₁.cache s'.cache →
      Room P sb K m s'.log → Run P i (f ()) s' Q) :
    Run P i (iupdate sb ip >>= f) s₁ Q := by
  have low := W.layout.inodes n hn
  have above : ∀ {d}, SameAbove sb s₁.cache (Function.update s₁.cache (sb.iblock n) d) :=
    sameAbove_update low
  have hip : s₁.aux.inode ip = { s.aux.inode ip with din := dins' n } := by
    rw [C.aux, putDin_inode]
  have num : ({ s.aux.inode ip with din := dins' n } : Inode ι).inum = n := inum
  have R : Reader P s₁ := ⟨C.calm, fun h => by rw [C.hold]; exact idle h, Or.inl W.bget⟩
  refine run_iupdate R hip ?_ ?_
  · rw [num]
    exact room.takes (Or.inl mem)
  intro fit
  rw [num]
  refine rest _ ?_ above (room.add mem (Nat.le_add_left _ _) fit)
  constructor
  · exact C.sound.above above
  · exact C.calm.store
  · exact C.hold
  · exact C.aux
  · exact C.other
  · exact fun j hj => dinodeAt_iupdate W.layout (C.sound.fits n) C.low hj
  · show s₁.log.add _ = _
    rw [C.log]
    rfl

/-- The end of `writei`: the size is brought up to date and the inode written back. -/
theorem run_writeiEnd {f : Unit → FsCode ι α} {data : List UInt8} {s₁ : KSt ι}
    {dins₁ : Nat → Dinode} {k : Nat} (W : Writer P sb K) (idle : Idle s)
    (hn : n < sb.ninodes) (inum : (s.aux.inode ip).inum = n) (size : (dins n).size = sz n)
    (wrote : Writes sb sz ip n k off data s dins s₁ dins₁) (room : Room P sb K m s₁.log)
    (mem : sb.iblock n ∈ K)
    (rest : ∀ s' dins', WroteSome sb sz ip n k off data s dins s' dins' → Room P sb K m s'.log →
      Run P i (f ()) s' Q) :
    Run P i (info ip >>= fun x => onlyIf (x.din.size < off + data.length)
      (setDin ip { x.din with size := off + data.length }) >>= fun _ => iupdate sb ip >>= f) s₁ Q := by
  have hsize : (dins₁ n).size = (dins n).size := by rw [wrote.same]
  obtain ⟨din, hdin⟩ : ∃ din, din = { dins₁ n with
    size := max (dins n).size (off + data.length) } := ⟨_, rfl⟩
  have sound := wrote.sound
  have fits : din.Fits := by
    have F := sound.fits n
    have small := sound.small n
    rw [Function.update_self, ← size] at small
    rw [hdin]
    refine ⟨F.type, F.major, F.minor, F.nlink, lt_of_le_of_lt small (by decide), F.length, F.addrs⟩
  refine run_info wrote.calm ?_
  -- either the size is set or it is as it should be
  have state : ∀ g : FsCode ι α, Run P i g (putDin s₁ ip din) Q →
      Run P i (onlyIf ((s₁.aux.inode ip).info.din.size < off + data.length)
        (setDin ip { (s₁.aux.inode ip).info.din with size := off + data.length }) >>= fun _ => g)
          s₁ Q := by
    intro g hg
    have mine : (s₁.aux.inode ip).info.din = dins₁ n := by
      rw [wrote.din]
      rfl
    rw [onlyIf, mine, hsize]
    by_cases grows : (dins n).size < off + data.length
    · rw [if_pos grows]
      refine run_setDin wrote.calm ?_
      rwa [hdin, max_eq_right grows.le] at hg
    · rw [if_neg grows]
      have old : din = (s₁.aux.inode ip).din := by
        rw [hdin, max_eq_left (Nat.le_of_not_lt grows), wrote.din, ← hsize]
      rwa [old, putDin_self] at hg
  refine state _ ?_
  have self : Function.update dins₁ n din n = din := Function.update_self ..
  have changed : Changed sb (Function.update sz n (max (sz n) (off + data.length))) ip n s dins
      (putDin s₁ ip din) (Function.update dins₁ n din) := by
    refine ⟨sound.setFields fits (by rw [hdin]), wrote.calm.putDin, wrote.hold, ?_, ?_, wrote.low,
      wrote.log⟩
    · rw [self, ← @putDin_putDin ι s ip (dins₁ n) din]
      simp only [putDin, wrote.aux]
    · intro j hj
      rw [Function.update_of_ne hj]
      exact wrote.other j hj
  refine run_writeBack W idle hn inum changed room mem fun s' updated above room' => ?_
  refine rest s' _ ⟨updated, ?_, ?_, ?_⟩ room'
  · rw [self, hdin, wrote.same]
  · intro j o
    rw [← wrote.bytes]
    refine (changed.sound.fileByte_above above j o).trans ?_
    by_cases e : j = n
    · rw [e, self, hdin]
      rfl
    · rw [Function.update_of_ne e]
      rfl
  · have count : freeCount sb s'.cache = freeCount sb s₁.cache := above.freeCount
    have := wrote.free
    omega

theorem run_writei {f : Int → FsCode ι α} (W : Writer P sb K) (S : Sound sb s.cache dins sz)
    (calm : Calm s) (idle : Idle s) (hn : n < sb.ninodes) (inum : (s.aux.inode ip).inum = n)
    (hdin : (s.aux.inode ip).din = dins n) (size : (dins n).size = sz n)
    (readable : src.Readable (s.aux.proc i).mem len) (low : off ≤ (dins n).size)
    (high : off + len ≤ MAXFILE * BSIZE) (mem : sb.iblock n ∈ K)
    (room : Room P sb K (m + spanned off len + indCost K (dins n)) s.log)
    (enough : P.excuses "balloc: out of blocks" ∨
      slotsFor (max (sz n) (off + len)) ≤ freeCount sb s.cache + slotsFor (sz n))
    (rest : ∀ s' dins' K', Wrote sb sz ip n off (src.piece (s.aux.proc i).mem 0 len) s dins s' dins' →
      K ⊆ K' → Room P sb K' m s'.log → Run P i (f len) s' Q) :
    Run P i (writei sb ip src off len >>= f) s Q := by
  have length := Src.length_piece readable (show 0 + len ≤ _ by omega)
  have bound := high
  simp only [MAXFILE, NDIRECT, NINDIRECT, BSIZE] at bound
  rw [writei, Prog.bind_assoc]
  refine run_info calm ?_
  simp only [Inode.info, hdin]
  rw [addU_of_lt (by omega), if_neg (by omega), if_neg (Nat.not_lt.mpr high)]
  simp only [Prog.bind_assoc, Prog.pure_bind]
  have loop := @run_writeiFrom ι α _ P i sb s Q K ip n m off len dins sz src
  refine loop W S calm idle hdin readable (by omega) (Nat.zero_le _) (by omega) (by simpa using high)
    (by simpa using room) (by simpa using enough) ?_
  intro s₁ dins₁ K₁ wrote sub room₁
  rw [Nat.sub_zero] at wrote ⊢
  rw [toInt_of_lt (by omega)]
  have mono := slotsFor_mono (le_max_left (sz n) (off + len))
  have finish := @run_writeiEnd ι α _ P i sb s Q K₁ ip n m off dins sz (fun _ => f len) _ s₁ dins₁ _
    (W.mono sub) idle hn inum size wrote room₁ (sub mem)
    fun s₂ dins₂ stored room₂ => rest s₂ dins₂ K₁ ⟨stored.toUpdated, stored.same, stored.bytes, by
      have := stored.free
      rw [length]
      omega⟩ sub room₂
  rwa [length] at finish

end Writei

end Xv6.Fs
