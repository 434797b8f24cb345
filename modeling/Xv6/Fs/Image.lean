import Mathlib
import Xv6.Fs.Layout

/-!
# What a disk holds

The inodes of a disk and the blocks they point to. The pointers of an inode are numbered in
the order in which they come into use: the `NDIRECT` direct blocks, the indirect block, the
entries of the indirect block. `Owned` says that no block is pointed to twice; it is about
the pointers alone, so that everyone who changes a pointer uses the same lemmas.
-/

namespace Xv6.Fs

/-! ## Inodes in a block -/

/-- The fields of a `struct dinode` fit their types. -/
structure Dinode.Fits (n : Dinode) : Prop where
  type : n.type < 2 ^ 16
  major : n.major < 2 ^ 16
  minor : n.minor < 2 ^ 16
  nlink : n.nlink < 2 ^ 16
  size : n.size < 2 ^ 32
  length : n.addrs.length = NDIRECT + 1
  addrs : ∀ a ∈ n.addrs, a < 2 ^ 32

theorem putWords_num {d : Block} {o : Nat} {ws : List Nat} {k x : Nat}
    (apart : x + k ≤ o ∨ o + 4 * ws.length ≤ x) : (putWords d o ws).num k x = d.num k x := by
  induction ws generalizing d o with
  | nil => rfl
  | cons w ws ih =>
    simp only [List.length_cons] at apart
    rw [putWords, ih (by omega), Bytes.Buffer.num_putNum_disjoint (by omega)]

theorem putWords_num_same {d : Block} {o : Nat} {ws : List Nat} (fits : o + 4 * ws.length ≤ BSIZE)
    (small : ∀ w ∈ ws, w < 2 ^ 32) {j : Nat} (hj : j < ws.length) :
    (putWords d o ws).num 4 (o + 4 * j) = ws[j] := by
  induction ws generalizing d o j with
  | nil => simp at hj
  | cons w ws ih =>
    simp only [List.length_cons] at fits hj
    rw [putWords]
    cases j with
    | zero =>
      rw [putWords_num (by omega)]
      exact Bytes.Buffer.num_putNum_same (by omega) (small w List.mem_cons_self)
    | succ j =>
      have := ih (d := d.putNum 4 o w) (o := o + 4) (by omega)
        (fun w hw => small w (List.mem_cons_of_mem _ hw)) (j := j) (by omega)
      rw [show o + 4 * (j + 1) = o + 4 + 4 * j by omega]
      exact this

theorem getDinode_fits (d : Block) (k : Nat) : (getDinode d k).Fits where
  type := d.num_lt 2 _
  major := d.num_lt 2 _
  minor := d.num_lt 2 _
  nlink := d.num_lt 2 _
  size := d.num_lt 4 _
  length := by simp [getDinode]
  addrs := by
    intro a ha
    obtain ⟨j, -, rfl⟩ := List.mem_map.mp ha
    exact d.num_lt 4 _

/-- Bytes outside the inode stay. -/
theorem putDinode_num {d : Block} {k : Nat} {n : Dinode} (length : n.addrs.length = NDIRECT + 1)
    {j x : Nat} (apart : x + j ≤ DINODE * k ∨ DINODE * (k + 1) ≤ x) :
    (putDinode d k n).num j x = d.num j x := by
  simp only [NDIRECT] at length
  simp only [DINODE] at apart
  rw [putDinode, putWords_num (by simp only [DINODE]; omega)]
  repeat rw [Bytes.Buffer.num_putNum_disjoint (by simp only [DINODE]; omega)]

theorem getDinode_putDinode_of_ne {d : Block} {k k' : Nat} {n : Dinode}
    (length : n.addrs.length = NDIRECT + 1) (h : k' ≠ k) :
    getDinode (putDinode d k n) k' = getDinode d k' := by
  have apart : ∀ {j x : Nat}, DINODE * k' ≤ x → x + j ≤ DINODE * (k' + 1) →
      (putDinode d k n).num j x = d.num j x := by
    intro j x low high
    refine putDinode_num length ?_
    simp only [DINODE] at low high ⊢
    omega
  simp only [getDinode, DINODE, NDIRECT] at apart ⊢
  have words : ∀ j ∈ List.range 13, (putDinode d k n).num 4 (64 * k' + 12 + 4 * j) =
      d.num 4 (64 * k' + 12 + 4 * j) := by
    intro j hj
    rw [List.mem_range] at hj
    exact apart (by omega) (by omega)
  rw [apart (by omega) (by omega), apart (by omega) (by omega), apart (by omega) (by omega),
    apart (by omega) (by omega), apart (by omega) (by omega), List.map_congr_left words]

theorem getDinode_putDinode_same {d : Block} {k : Nat} {n : Dinode} (fits : n.Fits) (hk : k < IPB) :
    getDinode (putDinode d k n) k = n := by
  have hlen := fits.length
  have room : 64 * k + 64 ≤ BSIZE := by
    simp only [IPB, DINODE, BSIZE] at hk ⊢
    omega
  cases n with
  | mk type major minor nlink size addrs =>
    simp only [NDIRECT] at hlen
    simp only [getDinode, putDinode, DINODE, NDIRECT, Dinode.mk.injEq]
    refine ⟨?_, ?_, ?_, ?_, ?_, ?_⟩
    · rw [putWords_num (by omega)]
      repeat rw [Bytes.Buffer.num_putNum_disjoint (by omega)]
      exact Bytes.Buffer.num_putNum_same (by omega) fits.type
    · rw [putWords_num (by omega)]
      repeat rw [Bytes.Buffer.num_putNum_disjoint (by omega)]
      exact Bytes.Buffer.num_putNum_same (by omega) fits.major
    · rw [putWords_num (by omega)]
      repeat rw [Bytes.Buffer.num_putNum_disjoint (by omega)]
      exact Bytes.Buffer.num_putNum_same (by omega) fits.minor
    · rw [putWords_num (by omega)]
      repeat rw [Bytes.Buffer.num_putNum_disjoint (by omega)]
      exact Bytes.Buffer.num_putNum_same (by omega) fits.nlink
    · rw [putWords_num (by omega)]
      exact Bytes.Buffer.num_putNum_same (by omega) fits.size
    · refine List.ext_getElem (by simp [hlen]) fun j h₁ h₂ => ?_
      simp only [List.getElem_map, List.getElem_range]
      exact @putWords_num_same _ _ addrs (by omega) fits.addrs j h₂

theorem getDinode_zero (k : Nat) : getDinode Bytes.Buffer.zero k = Dinode.zero := by
  simp only [getDinode, Dinode.zero, Bytes.Buffer.num_zero]
  rfl

/-- The inode with a number, as it is on the disk. -/
def dinodeAt (sb : Superblock) (disk : Nat → Block) (inum : Nat) : Dinode :=
  getDinode (disk (sb.iblock inum)) (inum % IPB)

/-! ## The free map -/

theorem byte_or_lt (x : UInt8) {k : Nat} (hk : k < 8) : x.toNat ||| 2 ^ k < 2 ^ 8 :=
  Nat.or_lt_two_pow x.toNat_lt (Nat.pow_lt_pow_right (by decide) hk)

theorem bit_setBit {d : Block} {i j : Nat} (hi : i < BPB) :
    bit (setBit d i) j = (decide (j = i) || bit d j) := by
  have room : i / 8 < BSIZE := by
    simp only [BPB] at hi
    omega
  rw [bit, setBit, bit]
  by_cases same : j / 8 = i / 8
  · have get : (d.put (i / 8) [UInt8.ofNat ((d.get (i / 8)).toNat ||| 2 ^ (i % 8))]).get (i / 8) =
        UInt8.ofNat ((d.get (i / 8)).toNat ||| 2 ^ (i % 8)) :=
      Bytes.Buffer.get_put_of_mem (j := 0) (by simp) room
    rw [same, get, UInt8.toNat_ofNat_of_lt' (byte_or_lt _ (Nat.mod_lt _ (by decide))),
      Nat.testBit_or, Nat.testBit_two_pow, Bool.or_comm]
    congr 1
    rw [decide_eq_decide]
    omega
  · rw [Bytes.Buffer.get_put_of_not_mem (by simp only [List.length_singleton]; omega),
      decide_eq_false (by rintro rfl; exact same rfl), Bool.false_or]

theorem bit_clearBit {d : Block} {i j : Nat} (hi : i < BPB) :
    bit (clearBit d i) j = (decide (j ≠ i) && bit d j) := by
  have room : i / 8 < BSIZE := by
    simp only [BPB] at hi
    omega
  rw [bit, clearBit, bit]
  by_cases same : j / 8 = i / 8
  · have get : (d.put (i / 8) [UInt8.ofNat ((d.get (i / 8)).toNat &&& (255 - 2 ^ (i % 8)))]).get
        (i / 8) = UInt8.ofNat ((d.get (i / 8)).toNat &&& (255 - 2 ^ (i % 8))) :=
      Bytes.Buffer.get_put_of_mem (j := 0) (by simp) room
    have small : (d.get (i / 8)).toNat &&& (255 - 2 ^ (i % 8)) < 2 ^ 8 :=
      Nat.and_lt_two_pow _ (lt_of_le_of_lt (Nat.sub_le _ _) (by decide))
    have mask : ∀ k < 8, ∀ m < 8, (255 - 2 ^ k).testBit m = decide (m ≠ k) := by decide
    rw [same, get, UInt8.toNat_ofNat_of_lt' small, Nat.testBit_and,
      mask _ (Nat.mod_lt _ (by decide)) _ (Nat.mod_lt _ (by decide)), Bool.and_comm]
    congr 1
    rw [decide_eq_decide]
    omega
  · rw [Bytes.Buffer.get_put_of_not_mem (by simp only [List.length_singleton]; omega),
      decide_eq_true (by rintro rfl; exact same rfl), Bool.true_and]

/-! ## Directory entries -/

theorem length_strncpy (n : Nat) (s : List UInt8) : (strncpy n s).length = n := by
  induction n generalizing s with
  | zero => rfl
  | succ n ih =>
    rw [strncpy]
    split
    · simp
    · simp [ih]

theorem length_putDirent (inum : Nat) (name : List UInt8) :
    (putDirent ⟨inum, strncpy DIRSIZ name⟩).length = DIRENT := by
  simp [putDirent, length_strncpy, DIRSIZ, DIRENT]

/-! ## Pointers -/

/-- The number of pointers of an inode. -/
abbrev SLOTS : Nat := NDIRECT + 1 + NINDIRECT

/-- The indirect block. -/
def Dinode.ind (din : Dinode) : Nat := din.addrs.getD NDIRECT 0

/-- The pointer with a number; zero if there is none. -/
def slotPtr (disk : Nat → Block) (din : Dinode) (s : Nat) : Nat :=
  if s ≤ NDIRECT then din.addrs.getD s 0
  else if s < SLOTS ∧ din.ind ≠ 0 then (disk din.ind).num 4 (4 * (s - (NDIRECT + 1))) else 0

/-- The pointer to the `bn`-th block of the contents. -/
def slotOf (bn : Nat) : Nat := if bn < NDIRECT then bn else bn + 1

/-- The byte at an offset of the contents; zero where there is no block. -/
def fileByte (disk : Nat → Block) (din : Dinode) (off : Nat) : UInt8 :=
  if slotPtr disk din (slotOf (off / BSIZE)) = 0 then 0
  else (disk (slotPtr disk din (slotOf (off / BSIZE)))).get (off % BSIZE)

section Pointers

variable {disk disk' : Nat → Block} {din : Dinode} {s s' b : Nat}

theorem slotOf_ne (bn : Nat) : slotOf bn ≠ NDIRECT := by
  rw [slotOf]
  split <;> omega

theorem slotOf_inj {bn bn' : Nat} (h : slotOf bn = slotOf bn') : bn = bn' := by
  simp only [slotOf] at h
  split at h <;> split at h <;> omega

theorem slotPtr_direct (h : s ≤ NDIRECT) : slotPtr disk din s = din.addrs.getD s 0 := if_pos h

theorem slotPtr_ind : slotPtr disk din NDIRECT = din.ind := if_pos le_rfl

theorem slotPtr_entry {j : Nat} (hj : j < NINDIRECT) (h : din.ind ≠ 0) :
    slotPtr disk din (NDIRECT + 1 + j) = (disk din.ind).num 4 (4 * j) := by
  rw [slotPtr, if_neg (by omega), if_pos ⟨by simp only [SLOTS]; omega, h⟩, Nat.add_sub_cancel_left]

/-- Pointers do not depend on blocks other than the indirect block. -/
theorem slotPtr_congr (h : disk' din.ind = disk din.ind) : slotPtr disk' din s = slotPtr disk din s := by
  rw [slotPtr, slotPtr, h]

theorem slotPtr_congr_ind (h : din.ind ≠ 0 → disk' din.ind = disk din.ind) :
    slotPtr disk' din s = slotPtr disk din s := by
  by_cases e : din.ind = 0
  · simp [slotPtr, e]
  · exact slotPtr_congr (h e)

theorem slotPtr_of_le (h : SLOTS ≤ s) : slotPtr disk din s = 0 := by
  rw [slotPtr, if_neg (by simp only [SLOTS] at h; omega), if_neg (by omega)]

theorem slotPtr_zero : slotPtr disk Dinode.zero s = 0 := by
  have ind : Dinode.zero.ind = 0 := rfl
  rw [slotPtr]
  split
  · simp only [Dinode.zero, List.getD_eq_getElem?_getD, List.getElem?_replicate]
    split <;> rfl
  · simp [ind]

/-- A direct pointer is set. -/
theorem slotPtr_setDirect (length : din.addrs.length = NDIRECT + 1) (hs : s < NDIRECT) :
    slotPtr disk { din with addrs := din.addrs.set s b } s' =
      if s' = s then b else slotPtr disk din s' := by
  have ind : Dinode.ind { din with addrs := din.addrs.set s b } = din.ind := by
    simp [Dinode.ind, List.getElem?_set_ne (Nat.ne_of_lt hs)]
  by_cases e : s' = s
  · subst e
    rw [if_pos rfl, slotPtr_direct (by omega)]
    simp [length, show s' < NDIRECT + 1 by omega]
  · rw [if_neg e, slotPtr, slotPtr, ind]
    simp [List.getElem?_set_ne (Ne.symm e)]

/-- The indirect block is set to a block of zeros. -/
theorem slotPtr_setInd (length : din.addrs.length = NDIRECT + 1) (none : din.ind = 0)
    (zero : disk b = Bytes.Buffer.zero) :
    slotPtr disk { din with addrs := din.addrs.set NDIRECT b } s' =
      if s' = NDIRECT then b else slotPtr disk din s' := by
  have ind : Dinode.ind { din with addrs := din.addrs.set NDIRECT b } = b := by
    simp [Dinode.ind, length]
  by_cases e : s' = NDIRECT
  · subst e
    rw [if_pos rfl, slotPtr_ind, ind]
  · rw [if_neg e, slotPtr, slotPtr, ind, zero, none]
    simp [List.getElem?_set_ne (Ne.symm e)]

/-- An entry of the indirect block is set. -/
theorem slotPtr_putEntry {j : Nat} (hj : j < NINDIRECT) (hind : din.ind ≠ 0) (hb : b < 2 ^ 32)
    (hd : disk' din.ind = (disk din.ind).putNum 4 (4 * j) b) :
    slotPtr disk' din s' = if s' = NDIRECT + 1 + j then b else slotPtr disk din s' := by
  by_cases e : s' = NDIRECT + 1 + j
  · subst e
    rw [if_pos rfl, slotPtr_entry hj hind, hd]
    refine Bytes.Buffer.num_putNum_same ?_ hb
    simp only [NINDIRECT, BSIZE] at hj ⊢
    omega
  · rw [if_neg e, slotPtr, slotPtr]
    split
    · rfl
    · split
      · rw [hd, Bytes.Buffer.num_putNum_disjoint (by omega)]
      · rfl

end Pointers

/-! ## Pointers in use -/

/-- The pointers in use for so many bytes. -/
def slotsFor (len : Nat) : Nat := if len = 0 then 0 else slotOf ((len - 1) / BSIZE) + 1

theorem slotsFor_zero : slotsFor 0 = 0 := rfl

theorem slotsFor_mono {a b : Nat} (h : a ≤ b) : slotsFor a ≤ slotsFor b := by
  simp only [slotsFor, slotOf, BSIZE, NDIRECT]
  split_ifs <;> omega

/-- The block behind the last byte. -/
theorem slotsFor_of_mod {len : Nat} (h : len % BSIZE ≠ 0) : slotsFor len = slotOf (len / BSIZE) + 1 := by
  simp only [slotsFor, slotOf, BSIZE, NDIRECT] at *
  split_ifs <;> omega

/-- A full block is followed by the next one, the last direct block by the indirect one. -/
theorem slotsFor_of_full {len : Nat} (h : len % BSIZE = 0) :
    slotsFor len = if len / BSIZE = NDIRECT then NDIRECT else slotOf (len / BSIZE) := by
  simp only [slotsFor, slotOf, BSIZE, NDIRECT] at *
  split_ifs <;> omega

/-- Bytes added inside one block. -/
theorem slotsFor_add {len n : Nat} (pos : 0 < n) (inside : len % BSIZE + n ≤ BSIZE) :
    slotsFor (len + n) = slotOf (len / BSIZE) + 1 := by
  simp only [slotsFor, slotOf, BSIZE, NDIRECT] at *
  split_ifs <;> omega

/-! ## No block is pointed to twice -/

/-- The pointers of all inodes of a disk. -/
def ptrs (disk : Nat → Block) (dins : Nat → Dinode) (inum s : Nat) : Nat := slotPtr disk (dins inum) s

/-- One pointer is set. -/
def setPtr (P : Nat → Nat → Nat) (i s b : Nat) : Nat → Nat → Nat :=
  Function.update P i (Function.update (P i) s b)

/-- Every pointer is to a block in use, and no block is pointed to twice. -/
structure Owned (P : Nat → Nat → Nat) (used : Nat → Prop) : Prop where
  used : ∀ {i s}, P i s ≠ 0 → used (P i s)
  inj : ∀ {i s i' s'}, P i s = P i' s' → P i s ≠ 0 → i = i' ∧ s = s'

section Owned

variable {P : Nat → Nat → Nat} {used : Nat → Prop} {i i' s s' b : Nat}

theorem setPtr_same : setPtr P i s b i s = b := by simp [setPtr]

theorem setPtr_of_ne (h : i' ≠ i ∨ s' ≠ s) : setPtr P i s b i' s' = P i' s' := by
  by_cases e : i' = i
  · subst e
    simp [setPtr, h.resolve_left (fun h => h rfl)]
  · simp [setPtr, e]

theorem setPtr_apply : setPtr P i s b i' s' = if i' = i ∧ s' = s then b else P i' s' := by
  split
  · rename_i e
    rw [e.1, e.2, setPtr_same]
  · rename_i e
    exact setPtr_of_ne (by omega)

/-- A free block is pointed to. -/
theorem Owned.alloc (O : Owned P used) (free : ¬ used b) :
    Owned (setPtr P i s b) (fun x => used x ∨ x = b) := by
  have other : ∀ {j t}, P j t ≠ 0 → P j t ≠ b := by
    rintro j t h rfl
    exact free (O.used h)
  constructor
  · intro j t h
    rw [setPtr_apply] at h ⊢
    split at h
    · rw [if_pos ‹_›]
      exact Or.inr rfl
    · rw [if_neg ‹_›]
      exact Or.inl (O.used h)
  · intro j t j' t' heq h
    rw [setPtr_apply] at h heq
    rw [setPtr_apply] at heq
    split at h
    · rename_i e
      rw [if_pos e] at heq
      split at heq
      · omega
      · exact absurd heq.symm (other (heq ▸ h))
    · rename_i e
      rw [if_neg e] at heq
      split at heq
      · exact absurd heq (other h)
      · exact O.inj heq h

end Owned

section Contents

variable {disk disk' : Nat → Block} {dins dins' : Nat → Dinode} {used : Nat → Prop}
variable {i s b x : Nat}

/-- A block of contents is not an indirect block. -/
theorem Owned.ne_ind (O : Owned (ptrs disk dins) used) (h : ptrs disk dins i s ≠ 0) (hs : s ≠ NDIRECT)
    (j : Nat) : (dins j).ind ≠ ptrs disk dins i s := by
  intro e
  have ind : ptrs disk dins j NDIRECT = (dins j).ind := slotPtr_ind
  exact hs (O.inj (e.symm.trans ind.symm) h).2

/-- Writing to a block of contents moves no pointer. -/
theorem Owned.ptrs_update (O : Owned (ptrs disk dins) used) (h : ptrs disk dins i s ≠ 0)
    (hs : s ≠ NDIRECT) (d : Block) :
    ptrs (Function.update disk (ptrs disk dins i s) d) dins = ptrs disk dins := by
  funext j t
  exact slotPtr_congr (Function.update_of_ne (O.ne_ind h hs j) _ _)

/-- Writing to a block of contents changes only the bytes of that block. -/
theorem Owned.fileByte_update (O : Owned (ptrs disk dins) used) {bn : Nat}
    (h : ptrs disk dins i (slotOf bn) ≠ 0) (d : Block) (j off : Nat) :
    fileByte (Function.update disk (ptrs disk dins i (slotOf bn)) d) (dins j) off =
      if j = i ∧ off / BSIZE = bn then d.get (off % BSIZE) else fileByte disk (dins j) off := by
  have keep : slotPtr (Function.update disk (ptrs disk dins i (slotOf bn)) d) (dins j)
      (slotOf (off / BSIZE)) = slotPtr disk (dins j) (slotOf (off / BSIZE)) :=
    congrFun (congrFun (O.ptrs_update h (slotOf_ne bn) d) j) (slotOf (off / BSIZE))
  rw [fileByte, fileByte, keep]
  by_cases e : j = i ∧ off / BSIZE = bn
  · obtain ⟨rfl, rfl⟩ := e
    have set : slotPtr disk (dins j) (slotOf (off / BSIZE)) ≠ 0 := h
    rw [if_neg set]
    simp [ptrs]
  · rw [if_neg e]
    by_cases hz : slotPtr disk (dins j) (slotOf (off / BSIZE)) = 0
    · rw [if_pos hz, if_pos hz]
    · rw [if_neg hz, if_neg hz, Function.update_of_ne]
      intro same
      obtain ⟨hj, hs⟩ := O.inj (P := ptrs disk dins) same hz
      exact e ⟨hj, slotOf_inj hs⟩

theorem fileByte_of_ptr {off : Nat} (h : ptrs disk dins i (slotOf (off / BSIZE)) ≠ 0) :
    fileByte disk (dins i) off =
      (disk (ptrs disk dins i (slotOf (off / BSIZE)))).get (off % BSIZE) :=
  if_neg h

/-- Storing bytes at an offset inside one block changes just these bytes. -/
theorem Owned.fileByte_put (O : Owned (ptrs disk dins) used) {off : Nat} {bytes : List UInt8}
    (hx : x = ptrs disk dins i (slotOf (off / BSIZE))) (h : x ≠ 0)
    (room : off % BSIZE + bytes.length ≤ BSIZE) (j o : Nat) :
    fileByte (Function.update disk x ((disk x).put (off % BSIZE) bytes)) (dins j) o =
      if j = i ∧ off ≤ o ∧ o < off + bytes.length then bytes.getD (o - off) 0
      else fileByte disk (dins j) o := by
  subst hx
  rw [O.fileByte_update h]
  by_cases ej : j = i
  · subst ej
    by_cases eb : o / BSIZE = off / BSIZE
    · rw [if_pos ⟨rfl, eb⟩]
      have old : fileByte disk (dins j) o =
          (disk (ptrs disk dins j (slotOf (o / BSIZE)))).get (o % BSIZE) :=
        fileByte_of_ptr (by rw [eb]; exact h)
      rw [eb] at old
      rw [old]
      simp only [BSIZE] at room eb ⊢
      by_cases mem : off ≤ o ∧ o < off + bytes.length
      · have hj : o - off < bytes.length := by omega
        rw [if_pos ⟨trivial, mem⟩, show o % 1024 = off % 1024 + (o - off) by omega,
          Bytes.Buffer.get_put_of_mem hj (by omega)]
        simp [hj]
      · rw [if_neg (by omega), Bytes.Buffer.get_put_of_not_mem (by omega)]
    · rw [if_neg (by simp [eb]), if_neg]
      simp only [BSIZE] at eb room
      omega
  · rw [if_neg (by simp [ej]), if_neg (by simp [ej])]

/-- A new pointer to a block of zeros changes no contents. -/
theorem fileByte_alloc (hb : b ≠ 0)
    (zero : disk' b = Bytes.Buffer.zero) (unset : ptrs disk dins i s = 0)
    (P : ptrs disk' dins' = setPtr (ptrs disk dins) i s b)
    (keep : ∀ j t, t ≠ NDIRECT → ptrs disk dins j t ≠ 0 →
      disk' (ptrs disk dins j t) = disk (ptrs disk dins j t)) (j off : Nat) :
    fileByte disk' (dins' j) off = fileByte disk (dins j) off := by
  have hP := congrFun (congrFun P j) (slotOf (off / BSIZE))
  rw [setPtr_apply] at hP
  simp only [ptrs] at hP keep unset
  rw [fileByte, fileByte, hP]
  by_cases e : j = i ∧ slotOf (off / BSIZE) = s
  · obtain ⟨rfl, rfl⟩ := e
    simp [unset, hb, zero]
  · rw [if_neg e]
    split
    · rfl
    · rename_i hz
      rw [keep j _ (slotOf_ne _) hz]

end Contents

/-! ## A well-formed file system -/

/-- `readsb` -/
def getSuperblock (d : Block) : Superblock where
  size := d.num 4 4
  ninodes := d.num 4 12
  nlog := d.num 4 16
  logstart := d.num 4 20
  inodestart := d.num 4 24
  bmapstart := d.num 4 28

/-- The first block behind the free map. -/
def Superblock.dataStart (sb : Superblock) : Nat := sb.bmapstart + (sb.size / BPB + 1)

/-- The inodes of a disk. -/
def diskInodes (sb : Superblock) (disk : Nat → Block) (inum : Nat) : Dinode :=
  if inum < sb.ninodes then dinodeAt sb disk inum else Dinode.zero

structure WellFormed (sb : Superblock) (disk : Nat → Block) : Prop where
  /-- The inode blocks end before the free map. -/
  layout : ∀ inum, inum < sb.ninodes → sb.iblock inum < sb.bmapstart
  /-- Every pointer is into the data area, and no block is pointed to twice. -/
  owned : Owned (ptrs disk (diskInodes sb disk)) (fun b => sb.dataStart ≤ b ∧ b < sb.size)
  /-- The free map marks the metadata and the blocks that are pointed to. -/
  bitmap : ∀ b, b / BPB ≤ sb.size / BPB → (bit (disk (sb.bblock b)) (b % BPB) = true ↔
    b < sb.dataStart ∨ ∃ inum s, ptrs disk (diskInodes sb disk) inum s = b)
  /-- There is a block for every byte below the size. -/
  noHole : ∀ inum bn, bn * BSIZE < (diskInodes sb disk inum).size →
    ptrs disk (diskInodes sb disk) inum (slotOf bn) ≠ 0

end Xv6.Fs
