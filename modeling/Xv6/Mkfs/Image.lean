import Xv6.Mkfs.Files

/-!
# The image that mkfs makes

It is well formed exactly if the files have inodes below `sb.ninodes` and the entries of the
root directory do not end at a block boundary: rounding its size up adds a whole block then,
which it does not have.
-/

namespace Xv6.Mkfs

open Fs Fallible

/-! ## Inode numbers -/

/-- A program that hands out `n` inodes. -/
def Allots {α : Type} (x : Mk α) (n : Nat) : Prop :=
  ∀ (m m' : Img) (a : α), x m = .ok (a, m') → m'.freeinode = m.freeinode + n

section Allots

variable {α β : Type}

theorem Allots.bind {x : Mk α} {f : α → Mk β} {k n : Nat} (first : Allots x k)
    (second : ∀ a, Allots (f a) n) : Allots (x >>= f) (k + n) := by
  intro m m'' b h
  obtain ⟨a, m', h₁, h₂⟩ := bind_ok_inv h
  rw [second a _ _ _ h₂, first _ _ _ h₁, Nat.add_assoc]

theorem Allots.before {x : Mk α} {f : α → Mk β} {n : Nat} (first : Allots x 0)
    (second : ∀ a, Allots (f a) n) : Allots (x >>= f) n := by
  have := first.bind second
  rwa [Nat.zero_add] at this

theorem allots_pure (a : α) : Allots (pure a : Mk α) 0 := by
  intro m m' b h
  cases h
  rfl

theorem allots_throw (e : String) {n : Nat} : Allots (throw e : Mk α) n := nofun

theorem allots_rsect (sec : Nat) : Allots (rsect sec) 0 := by
  intro m m' b h
  rw [rsect] at h
  split at h
  · cases h
    rfl
  · cases h

theorem allots_wsect (sec : Nat) (d : Block) : Allots (wsect sec d) 0 := by
  intro m m' b h
  cases h
  rfl

theorem allots_nextBlock : Allots nextBlock 0 := by
  intro m m' b h
  cases h
  rfl

theorem allots_winode (inum : Nat) (din : Dinode) : Allots (winode inum din) 0 :=
  (allots_rsect _).before fun _ => allots_wsect _ _

theorem allots_rinode (inum : Nat) : Allots (rinode inum) 0 :=
  (allots_rsect _).before fun _ => allots_pure _

theorem allots_ialloc (type : Nat) : Allots (ialloc type) 1 := by
  have next : Allots nextInode 1 := by
    intro m m' b h
    cases h
    rfl
  exact next.bind fun _ => (allots_winode _ _).before fun _ => allots_pure _

theorem allots_blockOf (din : Dinode) (fbn : Nat) : Allots (blockOf din fbn) 0 := by
  have ind : Allots (indirectOf din) 0 := by
    rw [indirectOf]
    split
    · exact allots_nextBlock.before fun _ => allots_pure _
    · exact allots_pure _
  rw [blockOf]
  split
  · split
    · exact allots_nextBlock.before fun _ => allots_pure _
    · exact allots_pure _
  · refine ind.before fun _ => (allots_rsect _).before fun a => ?_
    split
    · exact allots_nextBlock.before fun _ => (allots_wsect _ _).before fun _ => allots_pure _
    · exact allots_pure _

theorem allots_iappend (inum : Nat) (p : List UInt8) : Allots (iappend inum p) 0 := by
  have loop : ∀ k din off p, Allots (iappendFrom k din off p) 0 := by
    intro k
    induction k with
    | zero => exact fun din off p => allots_pure _
    | succ k ih =>
      intro din off p
      rw [iappendFrom]
      split
      · exact allots_pure _
      · split
        · exact (allots_blockOf _ _).before fun _ => (allots_rsect _).before fun _ =>
            (allots_wsect _ _).before fun _ => ih _ _ _
        · exact allots_throw _
  exact (allots_rinode _).before fun _ => (loop _ _ _ _).before fun _ => allots_winode _ _

theorem allots_addFiles (root : Nat) (fs : List Input) : Allots (addFiles root fs) fs.length := by
  have copy : ∀ inum chunks, Allots (copyFile inum chunks) 0 := by
    intro inum chunks
    induction chunks with
    | nil => exact allots_pure _
    | cons p ps ih => exact (allots_iappend _ _).before fun _ => ih
  have one : ∀ f, Allots (addFile root f) 1 := by
    intro f
    rw [addFile]
    split
    · exact allots_throw _
    · exact (allots_ialloc _).bind fun _ => (allots_iappend _ _).before fun _ => copy _ _
  induction fs with
  | nil => exact allots_pure _
  | cons f fs ih =>
    have := (one f).bind fun _ => ih
    rwa [Nat.add_comm] at this

/-- Every argument gets an inode, whether there is room for it or not. -/
theorem mkfs_freeinode {files : List Input} {m : Img} (h : mkfs files = .ok m) :
    m.freeinode = files.length + 2 := by
  have zero : ∀ n, Allots (zeroBlocks n) 0 := by
    intro n
    induction n with
    | zero => exact allots_pure _
    | succ n ih => exact ih.before fun _ => allots_wsect _ _
  have finish : ∀ used, Allots (balloc used) 0 := by
    intro used
    rw [balloc]
    split
    · exact allots_wsect _ _
    · exact allots_throw _
  have get : Allots getFreeblock 0 := by
    intro m m' b h
    cases h
    rfl
  have all : Allots (main files) (1 + files.length) := by
    refine (zero _).before fun _ => (allots_wsect _ _).before fun _ => (allots_ialloc _).bind fun root => ?_
    split
    · refine (allots_iappend _ _).before fun _ => (allots_iappend _ _).before fun _ =>
        (allots_addFiles _ _).bind (n := 0) fun _ => ?_
      exact ((allots_rinode _).before fun _ => allots_winode _ _).before fun _ => get.before finish
    · exact allots_throw _
  rw [mkfs] at h
  cases hmain : main files Img.start with
  | error e =>
    rw [hmain] at h
    cases h
  | ok p =>
    rw [hmain] at h
    obtain rfl : p.2 = m := by simpa [Except.map] using h
    rw [all _ _ _ hmain]
    simp only [Img.start]
    omega

end Allots

/-! ## The free map -/

theorem bit_markUsed {n b : Nat} (hn : n ≤ BPB) :
    bit (markUsed Bytes.Buffer.zero n) b = decide (b < n) := by
  induction n with
  | zero => simp [markUsed, bit]
  | succ n ih =>
    rw [markUsed, bit_setBit (by omega), ih (by omega), ← Bool.decide_or, decide_eq_decide]
    omega

/-! ## Sizes -/

theorem slotOf_lt_slotsFor {bn len : Nat} : slotOf bn < slotsFor len ↔ bn * BSIZE < len := by
  simp only [slotsFor, slotOf, BSIZE, NDIRECT]
  split_ifs <;> omega

theorem addTo_root_length (c : Nat → List UInt8) {inum : Nat} (h : ROOTINO < inum) (fs : List Input) :
    (addTo c inum fs ROOTINO).length = (c ROOTINO).length + DIRENT * fs.length := by
  induction fs generalizing c inum with
  | nil => rfl
  | cons f fs ih =>
    rw [addTo, ih _ (by omega), Function.update_of_ne (by omega), Function.update_self,
      List.length_append, length_entry, List.length_cons]
    ring

theorem contents_root_length (files : List Input) :
    (contents files ROOTINO).length = DIRENT * (files.length + 2) := by
  rw [contents, addTo_root_length _ (by omega), Function.update_self]
  simp only [dots, List.length_append, length_putDirent]
  ring

/-! ## The result -/

/-- What the kernel expects of an image. -/
structure WellMade (m : Img) : Prop where
  super : getSuperblock (m.sect 1) = sb
  inodes : ∀ inum, 1 ≤ inum → inum < m.freeinode → inum < sb.ninodes
  image : WellFormed sb m.sect

theorem getSuperblock_put : getSuperblock (putSuperblock Bytes.Buffer.zero) = sb := by
  have word : ∀ {j w : Nat}, [FSMAGIC, sb.size, nblocks, sb.ninodes, sb.nlog, sb.logstart, sb.inodestart,
      sb.bmapstart][j]? = some w → (putSuperblock Bytes.Buffer.zero).num 4 (0 + 4 * j) = w := by
    intro j w h
    obtain ⟨hj, rfl⟩ := List.getElem?_eq_some_iff.mp h
    exact putWords_num_same (by decide) (by decide) hj
  simp only [getSuperblock]
  rw [word (j := 1) rfl, word (j := 3) rfl, word (j := 4) rfl, word (j := 5) rfl, word (j := 6) rfl,
    word (j := 7) rfl]

section Result

variable {files : List Input} {m : Img} {dins : Nat → Dinode} {c : Nat → List UInt8}

/-- The inodes that the kernel sees. -/
theorem Finished.diskInodes_eq (F : Finished m dins c) (few : m.freeinode ≤ NINODES) :
    diskInodes sb m.sect = dins := by
  funext j
  rw [diskInodes]
  split
  · rename_i h
    refine F.area j ?_
    rw [inodeRoom_eq]
    have : j < 200 := h
    omega
  · rename_i h
    have : ¬ j < 200 := h
    exact (F.unused j (Or.inr (by simp only [NINODES] at few; omega))).1.symm

theorem Finished.bitmap_iff (F : Finished m dins c) {b : Nat} (hb : b / BPB ≤ sb.size / BPB) :
    bit (m.sect (sb.bblock b)) (b % BPB) = true ↔
      b < sb.dataStart ∨ ∃ inum s, ptrs m.sect dins inum s = b := by
  have low := F.blocks.low
  have start : sb.dataStart = nmeta := rfl
  have small : b / BPB = 0 := Nat.le_zero.mp hb
  have hmod : b % BPB = b := by
    simp only [BPB, BSIZE] at small ⊢
    omega
  have room : m.freeblock ≤ BPB := F.room.trans (by decide)
  rw [Superblock.bblock, small, Nat.zero_add, F.bitmap, bit_markUsed room, decide_eq_true_eq, hmod, start]
  constructor
  · intro h
    by_cases below : b < nmeta
    · exact Or.inl below
    · exact Or.inr (F.blocks.onto b (by omega) h)
  · rintro (h | ⟨inum, s, rfl⟩)
    · omega
    · by_cases h : ptrs m.sect dins inum s = 0
      · rw [nmeta_eq] at low
        omega
      · exact (F.blocks.owned.used h).2

/-- There are no holes exactly if the size of the root directory is not a whole number of
blocks before it is rounded up. -/
theorem Finished.noHole_iff (F : Finished m dins c) :
    (∀ inum bn, bn * BSIZE < (dins inum).size → ptrs m.sect dins inum (slotOf bn) ≠ 0) ↔
      (c ROOTINO).length % BSIZE ≠ 0 := by
  simp only [F.blocks.slots, slotOf_lt_slotsFor]
  constructor
  · intro h full
    have := h ROOTINO ((c ROOTINO).length / BSIZE) (by rw [F.root.2.2]; simp only [BSIZE]; omega)
    simp only [BSIZE] at this full
    omega
  · intro h inum bn hbn
    by_cases root : inum = ROOTINO
    · subst root
      rw [F.root.2.2] at hbn
      simp only [BSIZE] at hbn h ⊢
      omega
    · by_cases used : inum = 0 ∨ m.freeinode ≤ inum
      · rw [(F.unused inum used).1] at hbn
        exact absurd hbn (Nat.not_lt_zero _)
      · rwa [(F.files inum (by simp only [ROOTINO] at root ⊢; omega) (by omega)).2.2] at hbn

theorem Finished.wellFormed_iff (F : Finished m dins c) (few : m.freeinode ≤ NINODES) :
    WellFormed sb m.sect ↔ (c ROOTINO).length % BSIZE ≠ 0 := by
  have hd := F.diskInodes_eq few
  constructor
  · intro W
    have := W.noHole
    rw [hd] at this
    exact F.noHole_iff.mp this
  · intro h
    refine ⟨?_, ?_, ?_, ?_⟩
    · intro inum hi
      have : inum < 200 := hi
      exact iblock_lt (by rw [inodeRoom_eq]; omega)
    · rw [hd]
      refine ⟨fun h => ?_, F.blocks.owned.inj⟩
      have used := F.blocks.owned.used h
      exact ⟨used.1, used.2.trans_le F.room⟩
    · rw [hd]
      exact fun b hb => F.bitmap_iff hb
    · rw [hd]
      exact F.noHole_iff.mpr h

theorem root_full_iff (files : List Input) :
    (contents files ROOTINO).length % BSIZE ≠ 0 ↔ (files.length + 2) % (BSIZE / DIRENT) ≠ 0 := by
  rw [contents_root_length]
  simp only [DIRENT, BSIZE]
  omega

/-- The image is well made exactly if mkfs was given few enough files, and not a number of
them that fills the last block of the root directory. -/
theorem mkfs_well_made_iff (h : mkfs files = .ok m) :
    WellMade m ↔ files.length + 2 ≤ NINODES ∧ (files.length + 2) % (BSIZE / DIRENT) ≠ 0 := by
  have count := mkfs_freeinode h
  by_cases few : files.length + 2 ≤ NINODES
  · have room : files.length + 2 ≤ inodeRoom := few.trans (by decide)
    obtain ⟨-, dins, F⟩ := mkfs_ok room h
    have iff := (F.wellFormed_iff (count ▸ few)).trans (root_full_iff files)
    constructor
    · exact fun W => ⟨few, iff.mp W.image⟩
    · rintro ⟨-, notFull⟩
      refine ⟨?_, fun inum _ hi => ?_, iff.mpr notFull⟩
      · rw [F.super, getSuperblock_put]
      · rw [count] at hi
        exact hi.trans_le few
  · refine iff_of_false (fun W => few ?_) fun h => few h.1
    have last := W.inodes (files.length + 1) (by omega) (by omega)
    exact last

end Result

/-! ## When mkfs succeeds -/

/-- The blocks that the contents of the files need. -/
def blocksFor (files : List Input) : Nat := (files.map fun f => slotsFor f.bytes.length).sum

/-- mkfs succeeds if no name has a slash, no file is too long, and there are enough blocks. -/
theorem fit_of_total {fb r : Nat} {files : List Input} (names : ∀ f ∈ files, slash ∉ shortname f.name)
    (sizes : ∀ f ∈ files, f.bytes.length ≤ MAXFILE * BSIZE)
    (root : r + DIRENT * files.length ≤ MAXFILE * BSIZE)
    (total : fb + slotsFor (r + DIRENT * files.length) + blocksFor files ≤ FSSIZE + slotsFor r) :
    Fit fb r files := by
  induction files generalizing fb r with
  | nil => trivial
  | cons f fs ih =>
    have hlen : r + DIRENT * (f :: fs).length = r + DIRENT + DIRENT * fs.length := by
      rw [List.length_cons]
      ring
    have hsum : blocksFor (f :: fs) = slotsFor f.bytes.length + blocksFor fs := by simp [blocksFor]
    rw [hlen] at root total
    rw [hsum] at total
    have h₁ := slotsFor_mono (Nat.le_add_right r DIRENT)
    have h₂ := slotsFor_mono (Nat.le_add_right (r + DIRENT) (DIRENT * fs.length))
    have hfile : grown (grown fb r DIRENT) 0 f.bytes.length =
        fb + (slotsFor (r + DIRENT) - slotsFor r) + slotsFor f.bytes.length := by
      simp [grown, slotsFor_zero]
    refine ⟨names f List.mem_cons_self, ⟨by omega, by omega⟩, ⟨?_, ?_⟩, ?_⟩
    · rw [Nat.zero_add]
      exact sizes f List.mem_cons_self
    · rw [Nat.zero_add, slotsFor_zero, grown]
      omega
    · rw [hfile]
      exact ih (fun g hg => names g (List.mem_cons_of_mem f hg))
        (fun g hg => sizes g (List.mem_cons_of_mem f hg)) root (by omega)

/-! ## Two images -/

/-- Empty files with names of one byte. -/
def emptyFiles (n : Nat) : List Input := (List.range n).map fun i => ⟨[UInt8.ofNat (97 + i)], []⟩

/-- The root directory of 62 files has 64 entries, which fill a block. mkfs makes it two
blocks long, and the second one is a hole. -/
theorem full_root_has_hole : ∃ m, mkfs (emptyFiles 62) = .ok m ∧
    (diskInodes sb m.sect ROOTINO).size = 2 * BSIZE ∧
    ptrs m.sect (diskInodes sb m.sect) ROOTINO (slotOf 1) = 0 ∧ ¬ WellMade m := by
  have room : (emptyFiles 62).length + 2 ≤ inodeRoom := by decide
  have names : ∀ f ∈ emptyFiles 62, slash ∉ shortname f.name := by decide
  obtain ⟨m, h⟩ := mkfs_succeeds room (fit_of_total names (by decide) (by decide) (by decide))
  obtain ⟨count, dins, F⟩ := mkfs_ok room h
  have few : m.freeinode ≤ NINODES := by
    rw [count]
    decide
  have full : (contents (emptyFiles 62) ROOTINO).length = BSIZE := by
    rw [contents_root_length]
    decide
  refine ⟨m, h, ?_, ?_, fun W => ?_⟩
  · rw [F.diskInodes_eq few, F.root.2.2, full]
    rfl
  · rw [F.diskInodes_eq few]
    by_contra set
    have := (F.blocks.slots ROOTINO (slotOf 1)).mp set
    rw [full] at this
    exact absurd this (by decide)
  · have := (F.wellFormed_iff few).mp W.image
    rw [full] at this
    exact this rfl

theorem mkfs_well_made_iff_one : ∃ m, mkfs (emptyFiles 1) = .ok m ∧ WellMade m := by
  have names : ∀ f ∈ emptyFiles 1, slash ∉ shortname f.name := by decide
  obtain ⟨m, h⟩ := mkfs_succeeds (by decide)
    (fit_of_total names (by decide) (by decide) (by decide))
  exact ⟨m, h, (mkfs_well_made_iff h).mpr (by decide)⟩

end Xv6.Mkfs
