import Mathlib
import Xv6.Fs.Image

/-!
# Allocated blocks

The contents `c` of all blocks together with the inodes `dins`, wherever these are kept: on
the disk, or in memory while a function is changing them. `Sound` is what the functions on
inode contents rely on and keep. The sizes up to which there is no hole are a parameter of
their own, since `writei` brings the size up to date only at its end.
-/

namespace Xv6.Fs

/-- The parts of the disk do not overlap. -/
structure Layout (sb : Superblock) : Prop where
  order : sb.inodestart ≤ sb.bmapstart
  inodes : ∀ inum, inum < sb.ninodes → sb.iblock inum < sb.bmapstart
  small : sb.size ≤ 2 ^ 32

/-- The free map marks the block. -/
def marked (sb : Superblock) (c : Nat → Block) (b : Nat) : Bool := bit (c (sb.bblock b)) (b % BPB)

/-- A block of the data area that the free map marks. -/
structure InUse (sb : Superblock) (c : Nat → Block) (b : Nat) : Prop where
  low : sb.dataStart ≤ b
  high : b < sb.size
  mark : marked sb c b = true

structure Sound (sb : Superblock) (c : Nat → Block) (dins : Nat → Dinode) (sz : Nat → Nat) :
    Prop where
  /-- Every pointer is to a block in use, and no block is pointed to twice. -/
  owned : Owned (ptrs c dins) (InUse sb c)
  /-- The free map marks everything before the data area. -/
  base : ∀ b, b < sb.dataStart → b < sb.size → marked sb c b = true
  /-- There is a block for every byte below the size. -/
  noHole : ∀ j bn, bn * BSIZE < sz j → ptrs c dins j (slotOf bn) ≠ 0
  small : ∀ j, sz j ≤ MAXFILE * BSIZE
  fits : ∀ j, (dins j).Fits

/-- The number of blocks that the free map does not mark. -/
def freeCount (sb : Superblock) (c : Nat → Block) : Nat :=
  ((Finset.range sb.size).filter fun b => marked sb c b = false).card

section Blocks

variable {sb : Superblock} {b x : Nat}

theorem bblock_lt (hb : b < sb.size) : sb.bblock b < sb.dataStart := by
  have : b / BPB ≤ sb.size / BPB := Nat.div_le_div_right hb.le
  simp only [Superblock.bblock, Superblock.dataStart]
  omega

theorem le_bblock : sb.bmapstart ≤ sb.bblock b := Nat.le_add_left _ _

theorem bmapstart_lt : sb.bmapstart < sb.dataStart :=
  Nat.lt_add_of_pos_right (Nat.succ_pos _)

theorem bblock_eq_iff (hx : x % BPB = b % BPB) : sb.bblock x = sb.bblock b ↔ x = b := by
  simp only [Superblock.bblock, BPB, BSIZE] at *
  omega

/-- The free map after a change of one bit. -/
theorem marked_update {c : Nat → Block} {d : Block} {v : Bool}
    (bits : ∀ k, bit d k = if k = b % BPB then v else bit (c (sb.bblock b)) k) :
    marked sb (Function.update c (sb.bblock b) d) x = if x = b then v else marked sb c x := by
  rw [marked, marked]
  by_cases same : sb.bblock x = sb.bblock b
  · rw [same, Function.update_self, bits]
    by_cases e : x % BPB = b % BPB
    · rw [if_pos e, if_pos ((bblock_eq_iff e).mp same)]
    · rw [if_neg e, if_neg (by rintro rfl; exact e rfl)]
  · rw [Function.update_of_ne same, if_neg (by rintro rfl; exact same rfl)]

/-- Data blocks are not part of the free map. -/
theorem marked_data {c : Nat → Block} {d : Block} (low : sb.dataStart ≤ x) (hb : b < sb.size) :
    marked sb (Function.update c x d) b = marked sb c b := by
  have := bblock_lt hb
  rw [marked, Function.update_of_ne (by omega), marked]

theorem freeCount_congr {c c' : Nat → Block}
    (same : ∀ b, b < sb.size → marked sb c' b = marked sb c b) :
    freeCount sb c' = freeCount sb c := by
  rw [freeCount, freeCount]
  congr 1
  exact Finset.filter_congr fun b hb => by rw [same b (Finset.mem_range.mp hb)]

end Blocks

/-! ## Allocation of a block -/

/-- What `balloc` makes of the blocks when it hands out `b`. -/
def allocBlock (sb : Superblock) (c : Nat → Block) (b : Nat) : Nat → Block :=
  Function.update (Function.update c (sb.bblock b) (setBit (c (sb.bblock b)) (b % BPB))) b
    Bytes.Buffer.zero

section Allocation

variable {sb : Superblock} {c c' : Nat → Block} {dins dins' : Nat → Dinode} {sz : Nat → Nat}
variable {b x n t : Nat}

theorem marked_setBit (x : Nat) :
    marked sb (Function.update c (sb.bblock b) (setBit (c (sb.bblock b)) (b % BPB))) x =
      if x = b then true else marked sb c x := by
  refine marked_update fun k => ?_
  rw [bit_setBit (Nat.mod_lt _ (by decide))]
  by_cases e : k = b % BPB
  · simp [e]
  · simp [e]

/-- A block that is not marked lies in the data area and nobody points to it. -/
theorem Sound.free_low (S : Sound sb c dins sz) (hb : b < sb.size) (free : marked sb c b = false) :
    sb.dataStart ≤ b := by
  by_contra low
  rw [S.base b (Nat.lt_of_not_le low) hb] at free
  cases free

theorem not_inUse (free : marked sb c b = false) : ¬ InUse sb c b := by
  intro use
  rw [use.mark] at free
  cases free

theorem marked_allocBlock (low : sb.dataStart ≤ b) (hx : x < sb.size) :
    marked sb (allocBlock sb c b) x = if x = b then true else marked sb c x := by
  rw [allocBlock, marked_data low hx, marked_setBit]

theorem allocBlock_self : allocBlock sb c b b = Bytes.Buffer.zero := Function.update_self ..

theorem allocBlock_of_ne (h : x ≠ b) (h' : x ≠ sb.bblock b) : allocBlock sb c b x = c x := by
  rw [allocBlock, Function.update_of_ne h, Function.update_of_ne h']

/-- Blocks in use are left alone. -/
theorem InUse.keep (use : InUse sb c x) (free : marked sb c b = false) (hb : b < sb.size) :
    allocBlock sb c b x = c x := by
  refine allocBlock_of_ne ?_ ?_
  · rintro rfl
    exact not_inUse free use
  · have := bblock_lt hb
    have := use.low
    omega

theorem Sound.ptrs_allocBlock (S : Sound sb c dins sz) (hb : b < sb.size)
    (free : marked sb c b = false) : ptrs (allocBlock sb c b) dins = ptrs c dins := by
  funext j u
  refine slotPtr_congr_ind fun ind => ?_
  have use : InUse sb c (ptrs c dins j NDIRECT) := S.owned.used (by rwa [ptrs, slotPtr_ind])
  rw [ptrs, slotPtr_ind] at use
  exact use.keep free hb

/-- A free block is marked and pointed to. -/
theorem Sound.alloc (S : Sound sb c dins sz) (hb : b < sb.size) (free : marked sb c b = false)
    (unset : ptrs c dins n t = 0) (pointer : ptrs c' dins' = setPtr (ptrs c dins) n t b)
    (map : ∀ x, x < sb.size → marked sb c' x = marked sb (allocBlock sb c b) x)
    (fits : ∀ j, (dins' j).Fits) : Sound sb c' dins' sz := by
  have low := S.free_low hb free
  have mark : ∀ x, x < sb.size → marked sb c' x = if x = b then true else marked sb c x :=
    fun x hx => (map x hx).trans (marked_allocBlock low hx)
  constructor
  · have grown := S.owned.alloc (i := n) (s := t) (not_inUse free)
    rw [← pointer] at grown
    refine ⟨fun set => ?_, grown.inj⟩
    rcases grown.used set with use | e
    · refine ⟨use.low, use.high, ?_⟩
      rw [mark _ use.high, use.mark, ite_self]
    · rw [e]
      exact ⟨low, hb, by rw [mark b hb, if_pos rfl]⟩
  · intro x hx hs
    rw [mark x hs, S.base x hx hs, ite_self]
  · intro j bn hbn
    have old := S.noHole j bn hbn
    rw [pointer, setPtr_apply]
    by_cases e : j = n ∧ slotOf bn = t
    · obtain ⟨rfl, rfl⟩ := e
      exact absurd unset old
    · rwa [if_neg e]
  · exact S.small
  · exact fits

theorem freeCount_allocBlock (low : sb.dataStart ≤ b) (hb : b < sb.size)
    (free : marked sb c b = false) : freeCount sb (allocBlock sb c b) + 1 = freeCount sb c := by
  have mem : b ∈ (Finset.range sb.size).filter fun x => marked sb c x = false :=
    Finset.mem_filter.mpr ⟨Finset.mem_range.mpr hb, free⟩
  have erase : ((Finset.range sb.size).filter fun x => marked sb (allocBlock sb c b) x = false) =
      ((Finset.range sb.size).filter fun x => marked sb c x = false).erase b := by
    ext x
    rw [Finset.mem_erase, Finset.mem_filter, Finset.mem_filter, Finset.mem_range]
    constructor
    · rintro ⟨hx, clear⟩
      rw [marked_allocBlock low hx] at clear
      by_cases e : x = b
      · simp [e] at clear
      · exact ⟨e, hx, by simpa [e] using clear⟩
    · rintro ⟨e, hx, clear⟩
      exact ⟨hx, by rw [marked_allocBlock low hx, if_neg e, clear]⟩
  rw [freeCount, erase]
  exact Finset.card_erase_add_one mem

end Allocation

/-! ## New pointers -/

/-- Block `b` is allocated for slot `t` of inode `n`, and no contents change. -/
structure Grown (sb : Superblock) (sz : Nat → Nat) (n t b : Nat) (c : Nat → Block)
    (dins : Nat → Dinode) (c' : Nat → Block) (dins' : Nat → Dinode) : Prop where
  sound : Sound sb c' dins' sz
  ptr : ptrs c' dins' = setPtr (ptrs c dins) n t b
  bytes : ∀ j off, fileByte c' (dins' j) off = fileByte c (dins j) off
  low : ∀ x, x < sb.bmapstart → c' x = c x
  free : freeCount sb c' + 1 = freeCount sb c

section Pointers

variable {sb : Superblock} {c c' : Nat → Block} {dins dins' : Nat → Dinode} {sz : Nat → Nat}
variable {b bn n t : Nat}

theorem allocBlock_low (low : sb.dataStart ≤ b) {x : Nat} (hx : x < sb.bmapstart) :
    allocBlock sb c b x = c x := by
  have := @le_bblock sb b
  have := @bmapstart_lt sb
  exact allocBlock_of_ne (by omega) (by omega)

theorem Dinode.Fits.setAddr {din : Dinode} (fits : din.Fits) (k : Nat) (hb : b < 2 ^ 32) :
    Dinode.Fits { din with addrs := din.addrs.set k b } := by
  refine ⟨fits.type, fits.major, fits.minor, fits.nlink, fits.size, ?_, ?_⟩
  · rw [List.length_set]
    exact fits.length
  · intro a ha
    rcases List.mem_or_eq_of_mem_set ha with old | rfl
    · exact fits.addrs a old
    · exact hb

/-- The pointer is in the inode itself. -/
theorem Sound.setAddr (S : Sound sb c dins sz) (L : Layout sb) (hb : b < sb.size)
    (free : marked sb c b = false) {k : Nat} (hk : k ≤ NDIRECT)
    (unset : (dins n).addrs.getD k 0 = 0) :
    Grown sb sz n k b c dins (allocBlock sb c b)
      (Function.update dins n { dins n with addrs := (dins n).addrs.set k b }) := by
  have low := S.free_low hb free
  have nonzero : b ≠ 0 := by
    have := @bmapstart_lt sb
    omega
  have slot : ptrs c dins n k = 0 := by rwa [ptrs, slotPtr_direct hk]
  have pointer : ptrs (allocBlock sb c b)
      (Function.update dins n { dins n with addrs := (dins n).addrs.set k b }) =
        setPtr (ptrs c dins) n k b := by
    rw [← S.ptrs_allocBlock hb free]
    funext j u
    rw [setPtr_apply]
    by_cases e : j = n
    · subst e
      rw [ptrs, Function.update_self]
      by_cases last : k = NDIRECT
      · subst last
        rw [slotPtr_setInd (S.fits j).length unset allocBlock_self]
        simp [ptrs]
      · rw [slotPtr_setDirect (S.fits j).length (by omega)]
        simp [ptrs]
    · rw [ptrs, Function.update_of_ne e, if_neg (by simp [e])]
      rfl
  have fits : ∀ j, (Function.update dins n { dins n with addrs := (dins n).addrs.set k b } j).Fits := by
    intro j
    by_cases e : j = n
    · subst e
      rw [Function.update_self]
      exact (S.fits j).setAddr k (lt_of_lt_of_le hb L.small)
    · rw [Function.update_of_ne e]
      exact S.fits j
  constructor
  · exact S.alloc hb free slot pointer (fun _ _ => rfl) fits
  · exact pointer
  · intro j off
    exact fileByte_alloc nonzero allocBlock_self slot pointer
      (fun j u _ set => (S.owned.used set).keep free hb) j off
  · intro x hx
    exact allocBlock_low low hx
  · exact freeCount_allocBlock low hb free

/-- The pointer is an entry of the indirect block. -/
theorem Sound.setEntry (S : Sound sb c dins sz) (L : Layout sb) (hb : b < sb.size)
    (free : marked sb c b = false) {k : Nat} (hk : k < NINDIRECT) (ind : (dins n).ind ≠ 0)
    (unset : (c (dins n).ind).num 4 (4 * k) = 0) :
    Grown sb sz n (NDIRECT + 1 + k) b c dins
      (Function.update (allocBlock sb c b) (dins n).ind ((c (dins n).ind).putNum 4 (4 * k) b))
      dins := by
  have low := S.free_low hb free
  have nonzero : b ≠ 0 := by
    have := @bmapstart_lt sb
    omega
  have slot : ptrs c dins n (NDIRECT + 1 + k) = 0 := by rwa [ptrs, slotPtr_entry hk ind]
  have indPtr : ptrs c dins n NDIRECT = (dins n).ind := slotPtr_ind
  have use : InUse sb c (dins n).ind := indPtr ▸ S.owned.used (indPtr ▸ ind)
  have apart : b ≠ (dins n).ind := by
    rintro rfl
    exact not_inUse free use
  have pointer : ptrs (Function.update (allocBlock sb c b) (dins n).ind
      ((c (dins n).ind).putNum 4 (4 * k) b)) dins = setPtr (ptrs c dins) n (NDIRECT + 1 + k) b := by
    rw [← S.ptrs_allocBlock hb free]
    funext j u
    rw [setPtr_apply]
    by_cases e : j = n
    · subst e
      have entry : Function.update (allocBlock sb c b) (dins j).ind
          ((c (dins j).ind).putNum 4 (4 * k) b) (dins j).ind =
            (allocBlock sb c b (dins j).ind).putNum 4 (4 * k) b := by
        rw [Function.update_self, use.keep free hb]
      rw [ptrs, slotPtr_putEntry hk ind (lt_of_lt_of_le hb L.small) entry]
      simp [ptrs]
    · rw [if_neg (by simp [e])]
      refine slotPtr_congr_ind fun other => Function.update_of_ne ?_ _ _
      intro same
      have := @Owned.inj _ _ S.owned j NDIRECT n NDIRECT
      simp only [ptrs, slotPtr_ind] at this
      exact e (this same other).1
  constructor
  · exact S.alloc hb free slot pointer (fun x hx => marked_data use.low hx) S.fits
  · exact pointer
  · intro j off
    refine fileByte_alloc nonzero ?_ slot pointer (fun j u hu set => ?_) j off
    · rw [Function.update_of_ne apart, allocBlock_self]
    · rw [Function.update_of_ne (Ne.symm (S.owned.ne_ind set hu n))]
      exact (S.owned.used set).keep free hb
  · intro x hx
    have := use.low
    have := @bmapstart_lt sb
    rw [Function.update_of_ne (by omega)]
    exact allocBlock_low low hx
  · rw [← freeCount_allocBlock low hb free]
    exact congrArg (· + 1) (freeCount_congr fun x hx => marked_data use.low hx)

end Pointers

/-! ## Contents -/

section Contents

variable {sb : Superblock} {c : Nat → Block} {dins : Nat → Dinode} {sz : Nat → Nat}
variable {bn n x : Nat}

/-- Data blocks may be overwritten. -/
theorem Sound.write (S : Sound sb c dins sz) (hx : x = ptrs c dins n (slotOf bn)) (set : x ≠ 0)
    (d : Block) : Sound sb (Function.update c x d) dins sz := by
  subst hx
  have use := S.owned.used set
  have same : ptrs (Function.update c (ptrs c dins n (slotOf bn)) d) dins = ptrs c dins :=
    S.owned.ptrs_update set (slotOf_ne bn) d
  constructor
  · rw [same]
    refine ⟨fun h => ?_, S.owned.inj⟩
    have old := S.owned.used h
    exact ⟨old.low, old.high, by rw [marked_data use.low old.high, old.mark]⟩
  · intro b hb hs
    rw [marked_data use.low hs, S.base b hb hs]
  · rw [same]
    exact S.noHole
  · exact S.small
  · exact S.fits

theorem Sound.write_low (S : Sound sb c dins sz) (set : ptrs c dins n (slotOf bn) ≠ 0) (d : Block)
    {b : Nat} (hb : b < sb.bmapstart) :
    Function.update c (ptrs c dins n (slotOf bn)) d b = c b := by
  have := (S.owned.used set).low
  have := @bmapstart_lt sb
  exact Function.update_of_ne (by omega) _ _

end Contents

/-! ## Release of a block -/

/-- What `bfree` makes of the blocks when it takes back `b`. -/
def freeBlock (sb : Superblock) (c : Nat → Block) (b : Nat) : Nat → Block :=
  Function.update c (sb.bblock b) (clearBit (c (sb.bblock b)) (b % BPB))

/-- The part of `Sound` that concerns the free map, for any record `R` of pointers. -/
structure Mapped (sb : Superblock) (c : Nat → Block) (R : Nat → Nat → Nat) : Prop where
  owned : Owned R (InUse sb c)
  base : ∀ b, b < sb.dataStart → b < sb.size → marked sb c b = true

section Release

variable {sb : Superblock} {c : Nat → Block} {R : Nat → Nat → Nat} {b n t x : Nat}

theorem marked_freeBlock (x : Nat) :
    marked sb (freeBlock sb c b) x = if x = b then false else marked sb c x := by
  refine marked_update fun k => ?_
  rw [bit_clearBit (Nat.mod_lt _ (by decide))]
  by_cases e : k = b % BPB
  · simp [e]
  · simp [e]

theorem freeCount_freeBlock (hb : b < sb.size) (used : marked sb c b = true) :
    freeCount sb (freeBlock sb c b) = freeCount sb c + 1 := by
  have insert : ((Finset.range sb.size).filter fun x => marked sb (freeBlock sb c b) x = false) =
      insert b ((Finset.range sb.size).filter fun x => marked sb c x = false) := by
    ext x
    rw [Finset.mem_insert, Finset.mem_filter, Finset.mem_filter, marked_freeBlock]
    by_cases e : x = b
    · simp [e, hb]
    · simp [e]
  rw [freeCount, insert]
  exact Finset.card_insert_of_notMem (by simp [used])

/-- A block that is pointed to is taken back. -/
theorem Mapped.release (M : Mapped sb c R) (set : R n t ≠ 0) :
    Mapped sb (freeBlock sb c (R n t)) (setPtr R n t 0) := by
  have use := M.owned.used set
  have keep : ∀ {j u}, setPtr R n t 0 j u ≠ 0 → setPtr R n t 0 j u = R j u ∧ R j u ≠ R n t := by
    intro j u h
    by_cases e : j = n ∧ u = t
    · rw [e.1, e.2, setPtr_same] at h
      exact absurd rfl h
    · have same : setPtr R n t 0 j u = R j u := setPtr_of_ne (by omega)
      refine ⟨same, fun eq => e ?_⟩
      exact M.owned.inj eq (same ▸ h)
  constructor
  · constructor
    · intro j u h
      obtain ⟨same, other⟩ := keep h
      rw [same] at h ⊢
      have old := M.owned.used h
      exact ⟨old.low, old.high, by rw [marked_freeBlock, if_neg other, old.mark]⟩
    · intro j u j' u' eq h
      have h' : setPtr R n t 0 j' u' ≠ 0 := eq ▸ h
      rw [(keep h).1, (keep h').1] at eq
      exact M.owned.inj eq ((keep h).1 ▸ h)
  · intro y hy hs
    have := use.low
    rw [marked_freeBlock, if_neg (by omega), M.base y hy hs]

end Release

end Xv6.Fs
