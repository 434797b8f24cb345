import Mathlib
import Xv6.Fs.Image
import Xv6.Mkfs.Model

/-!
# How mkfs builds files

mkfs hands out blocks in increasing order and fills the pointers of an inode in order, so
the number of bytes of a file says how many pointers it has. `Blocks` is the invariant of
the data area; `iappend` keeps it while the inode on the disk is behind the one in memory.
-/

namespace Xv6.Mkfs

open Fs Fallible

theorem nmeta_eq : nmeta = 46 := rfl

/-! ## Sectors -/

theorem sector_eq {x : Nat} (h : x < 2 ^ 22) : sector x = x := by
  simp only [sector, BSIZE]
  omega

theorem rsect_runs {m : Img} {x : Nat} (h : x < 2 ^ 22) :
    Runs (rsect x) m (x < m.len) (fun d m' => m' = m ∧ d = m.sect x ∧ x < m.len) := by
  have run : rsect x m = if x < m.len then .ok (m.sect x, m) else .error "read" := by
    rw [rsect, sector_eq h]
  constructor
  · intro hx
    exact ⟨m.sect x, m, by rw [run, if_pos hx], rfl, rfl, hx⟩
  · intro d m' ran
    rw [run] at ran
    by_contra hx
    rw [if_neg hx] at ran
    cases ran

theorem wsect_runs {m : Img} {x : Nat} (h : x < m.len) (small : x < 2 ^ 22) (d : Block) :
    Runs (wsect x d) m True (fun _ m' => m' = { m with sect := Function.update m.sect x d }) := by
  refine ⟨fun _ => ⟨(), _, rfl, ?_⟩, fun _ => trivial⟩
  rw [sector_eq small, max_eq_left h]

theorem nextBlock_runs {m : Img} :
    Runs nextBlock m True (fun b m' => b = m.freeblock ∧
      m' = { m with freeblock := m.freeblock + 1 }) :=
  ⟨fun _ => ⟨_, _, rfl, rfl, rfl⟩, fun _ => trivial⟩

/-! ## The data area -/

/-- The blocks handed out are exactly those pointed to, each once. Inode `i` has `k i`
pointers and the contents `c i`. -/
structure Blocks (m : Img) (dins : Nat → Dinode) (k : Nat → Nat) (c : Nat → List UInt8) : Prop where
  len : m.len = FSSIZE
  low : nmeta ≤ m.freeblock
  high : m.freeblock ≤ FSSIZE + 1
  owned : Owned (ptrs m.sect dins) (fun b => nmeta ≤ b ∧ b < m.freeblock)
  slots : ∀ i s, ptrs m.sect dins i s ≠ 0 ↔ s < k i
  onto : ∀ b, nmeta ≤ b → b < m.freeblock → ∃ i s, ptrs m.sect dins i s = b
  fresh : ∀ b, m.freeblock ≤ b → m.sect b = Bytes.Buffer.zero
  fits : ∀ i, (dins i).Fits
  bytes : ∀ i off, fileByte m.sect (dins i) off = (c i).getD off 0

section Blocks

variable {m : Img} {dins : Nat → Dinode} {k : Nat → Nat} {c : Nat → List UInt8} {i : Nat}

theorem Blocks.ptr_lt (B : Blocks m dins k c) {s : Nat} (h : s < k i) :
    ptrs m.sect dins i s < m.freeblock :=
  (B.owned.used ((B.slots i s).mpr h)).2

/-- The next pointer of an inode is set to the next free block. -/
theorem Blocks.grow (B : Blocks m dins k c) (room : m.freeblock ≤ FSSIZE) {sect : Nat → Block}
    {dins' : Nat → Dinode}
    (hP : ptrs sect dins' = setPtr (ptrs m.sect dins) i (k i) m.freeblock)
    (keep : ∀ b, (∀ j, b ≠ (dins j).ind) ∨ m.freeblock ≤ b → sect b = m.sect b)
    (fits : ∀ j, (dins' j).Fits) :
    Blocks { m with sect := sect, freeblock := m.freeblock + 1 } dins'
      (Function.update k i (k i + 1)) c := by
  have low := B.low
  have hn := nmeta_eq
  have unset : ptrs m.sect dins i (k i) = 0 := by
    by_contra h
    exact absurd ((B.slots i (k i)).mp h) (by omega)
  refine ⟨B.len, by simp only; omega, by simp only; omega, ?_, ?_, ?_, ?_, fits, ?_⟩
  · rw [hP]
    have O := B.owned.alloc (i := i) (s := k i) (b := m.freeblock) (by simp)
    refine ⟨fun h => ?_, O.inj⟩
    have := O.used h
    simp only
    omega
  · intro j s
    rw [hP, setPtr_apply]
    by_cases e : j = i
    · subst e
      have := B.slots j s
      simp only [true_and, Function.update_self]
      split <;> omega
    · simp only [e, false_and, if_false, ne_eq, not_false_eq_true, Function.update_of_ne]
      exact B.slots j s
  · intro b hb hb'
    rw [hP]
    simp only at hb'
    by_cases e : b = m.freeblock
    · exact ⟨i, k i, by rw [setPtr_same, e]⟩
    · obtain ⟨j, s, h⟩ := B.onto b hb (by omega)
      refine ⟨j, s, ?_⟩
      rw [setPtr_apply, if_neg, h]
      rintro ⟨rfl, rfl⟩
      rw [unset] at h
      omega
  · intro b hb
    simp only at hb
    simp only
    rw [keep b (Or.inr (by omega)), B.fresh b (by omega)]
  · intro j off
    rw [← B.bytes j off]
    refine fileByte_alloc (by omega) ?_ unset hP ?_ j off
    · rw [keep _ (Or.inr le_rfl), B.fresh _ le_rfl]
    · intro j t ht h
      exact keep _ (Or.inl fun j' => (B.owned.ne_ind h ht j').symm)

/-- Bytes are added to the last block of an inode. -/
theorem Blocks.store (B : Blocks m dins k c) {bytes : List UInt8} {x : Nat}
    (hs : slotOf ((c i).length / BSIZE) < k i)
    (hx : x = ptrs m.sect dins i (slotOf ((c i).length / BSIZE)))
    (room : (c i).length % BSIZE + bytes.length ≤ BSIZE) :
    Blocks
      { m with sect := Function.update m.sect x ((m.sect x).put ((c i).length % BSIZE) bytes) }
      dins k (Function.update c i (c i ++ bytes)) := by
  have set := (B.slots i _).mpr hs
  have hP := B.owned.ptrs_update set (slotOf_ne _) ((m.sect x).put ((c i).length % BSIZE) bytes)
  rw [← hx] at hP
  refine ⟨B.len, B.low, B.high, ?_, ?_, ?_, ?_, B.fits, ?_⟩
  · rw [hP]
    exact B.owned
  · rw [hP]
    exact B.slots
  · rw [hP]
    exact B.onto
  · intro b hb
    simp only at hb ⊢
    rw [Function.update_of_ne, B.fresh b hb]
    have := B.ptr_lt hs
    omega
  · intro j off
    simp only
    rw [B.owned.fileByte_put hx (hx ▸ set) room, B.bytes j off]
    by_cases e : j = i
    · subst e
      rw [Function.update_self]
      by_cases before : off < (c j).length
      · rw [if_neg (by omega), List.getD_append _ _ _ _ before]
      · rw [List.getD_append_right _ _ _ _ (by omega)]
        split
        · rfl
        · rw [List.getD_eq_default _ _ (by omega), List.getD_eq_default _ _ (by omega)]
    · rw [if_neg (by simp [e]), Function.update_of_ne e]

/-- What allocating blocks and writing data leave alone. -/
structure Frame (m m' : Img) : Prop where
  freeinode : m'.freeinode = m.freeinode
  below : ∀ b, b < nmeta → m'.sect b = m.sect b

theorem Frame.refl (m : Img) : Frame m m := ⟨rfl, fun _ _ => rfl⟩

theorem Frame.trans {m₁ m₂ m₃ : Img} (h₁ : Frame m₁ m₂) (h₂ : Frame m₂ m₃) : Frame m₁ m₃ :=
  ⟨h₂.freeinode.trans h₁.freeinode, fun b hb => (h₂.below b hb).trans (h₁.below b hb)⟩

/-- Two inodes that differ only in their pointers. -/
def SameBut (din din' : Dinode) : Prop := ∃ addrs, din' = { din with addrs := addrs }

theorem fits_set {din : Dinode} (fits : din.Fits) {s b : Nat} (hb : b < 2 ^ 32) :
    Dinode.Fits { din with addrs := din.addrs.set s b } where
  type := fits.type
  major := fits.major
  minor := fits.minor
  nlink := fits.nlink
  size := fits.size
  length := by simpa using fits.length
  addrs := by
    intro a ha
    rcases List.mem_or_eq_of_mem_set ha with h | rfl
    · exact fits.addrs a h
    · exact hb

theorem Blocks.fits_update (B : Blocks m dins k c) {din : Dinode} (h : din.Fits) (j : Nat) :
    (Function.update dins i din j).Fits := by
  by_cases e : j = i
  · subst e
    simpa using h
  · simpa [e] using B.fits j

/-- A pointer inside an inode is set to the next free block. -/
theorem Blocks.growInode (B : Blocks m dins k c) (room : m.freeblock ≤ FSSIZE) (hs : k i ≤ NDIRECT) :
    Blocks { m with freeblock := m.freeblock + 1 }
      (Function.update dins i { dins i with addrs := (dins i).addrs.set (k i) m.freeblock })
      (Function.update k i (k i + 1)) c := by
  have small : m.freeblock < 2 ^ 32 := by
    simp only [FSSIZE] at room
    omega
  refine B.grow room ?_ (fun _ _ => rfl) (B.fits_update (fits_set (B.fits i) small))
  funext j s
  rw [setPtr_apply, ptrs]
  by_cases e : j = i
  · subst e
    simp only [Function.update_self, true_and]
    rcases Nat.lt_or_eq_of_le hs with direct | ind
    · exact slotPtr_setDirect (B.fits j).length direct
    · rw [ind]
      refine slotPtr_setInd (B.fits j).length ?_ (B.fresh _ le_rfl)
      by_contra h
      have := (B.slots j NDIRECT).mp (by rwa [ptrs, slotPtr_ind])
      omega
  · simp [e, ptrs]

/-- An entry of the indirect block is set to the next free block. -/
theorem Blocks.growIndirect (B : Blocks m dins k c) (room : m.freeblock ≤ FSSIZE) {j : Nat}
    (hk : k i = NDIRECT + 1 + j) (hj : j < NINDIRECT) :
    Blocks { m with sect := Function.update m.sect (dins i).ind
                      ((m.sect (dins i).ind).putNum 4 (4 * j) m.freeblock)
                    freeblock := m.freeblock + 1 } dins (Function.update k i (k i + 1)) c := by
  have small : m.freeblock < 2 ^ 32 := by
    simp only [FSSIZE] at room
    omega
  have set : ptrs m.sect dins i NDIRECT ≠ 0 := (B.slots i NDIRECT).mpr (by omega)
  have hind : ptrs m.sect dins i NDIRECT = (dins i).ind := slotPtr_ind
  refine B.grow room ?_ ?_ B.fits
  · funext j' s
    rw [setPtr_apply, ptrs]
    by_cases e : j' = i
    · subst e
      simp only [true_and, hk]
      exact slotPtr_putEntry hj (hind ▸ set) small (Function.update_self ..)
    · rw [if_neg (by simp [e]), ptrs]
      by_cases same : (dins j').ind = (dins i).ind
      · have hind' : ptrs m.sect dins j' NDIRECT = (dins j').ind := slotPtr_ind
        exact absurd (B.owned.inj (hind'.trans (same.trans hind.symm))
          (hind' ▸ same ▸ hind ▸ set)).1 e
      · exact slotPtr_congr (Function.update_of_ne same _ _)
  · rintro b (h | h)
    · exact Function.update_of_ne (h i) _ _
    · refine Function.update_of_ne ?_ _ _
      have := B.ptr_lt (i := i) (s := NDIRECT) (by omega)
      omega

theorem indirectOf_runs (B : Blocks m dins k c) (room : m.freeblock ≤ FSSIZE) (hk : NDIRECT ≤ k i) :
    Runs (indirectOf (dins i)) m True (fun din m' =>
      Blocks m' (Function.update dins i din) (Function.update k i (max (k i) (NDIRECT + 1))) c ∧
      m'.freeblock = m.freeblock + (max (k i) (NDIRECT + 1) - k i) ∧ Frame m m' ∧
      SameBut (dins i) din ∧ (k i = NDIRECT → din.addrs.getD NDIRECT 0 = m.freeblock)) := by
  have hslot := B.slots i NDIRECT
  rw [ptrs, slotPtr_ind] at hslot
  rw [indirectOf]
  split
  · rename_i none
    have hk' : k i = NDIRECT := by
      have : ¬ NDIRECT < k i := fun h => hslot.mpr h none
      omega
    refine nextBlock_runs.seq fun b m' hb => .pure ?_
    obtain ⟨rfl, rfl⟩ := hb
    have := B.growInode room (i := i) (by omega)
    rw [hk'] at this
    rw [hk', max_eq_right (by omega)]
    exact ⟨this, by simp only; omega, ⟨rfl, fun _ _ => rfl⟩, ⟨_, rfl⟩, fun _ => by
      simp [(B.fits i).length]⟩
  · rename_i some
    have hk' := hslot.mp some
    rw [max_eq_left hk']
    refine .pure ⟨?_, by omega, .refl m, ⟨_, rfl⟩, fun h => by omega⟩
    rwa [Function.update_eq_self, Function.update_eq_self]

/-- The state of `k i` before a byte of block `bn` is stored: the block is there, or it is
the next one. -/
def Due (n bn : Nat) : Prop := n = slotOf bn + 1 ∨ n = if bn = NDIRECT then NDIRECT else slotOf bn

/-- What `iappend` finds in `x` and has done for it. -/
structure Placed (m m' : Img) (dins : Nat → Dinode) (k : Nat → Nat) (c : Nat → List UInt8)
    (i bn : Nat) (din : Dinode) (x : Nat) : Prop where
  blocks : Blocks m' (Function.update dins i din) (Function.update k i (slotOf bn + 1)) c
  block : x = ptrs m'.sect (Function.update dins i din) i (slotOf bn)
  freeblock : m'.freeblock = m.freeblock + (slotOf bn + 1 - k i)
  last : k i < slotOf bn + 1 → x + 1 = m'.freeblock
  frame : Frame m m'
  same : SameBut (dins i) din

/-- The block is there. -/
theorem Blocks.placed (B : Blocks m dins k c) {bn : Nat} (h : k i = slotOf bn + 1) :
    Placed m m dins k c i bn (dins i) (ptrs m.sect dins i (slotOf bn)) := by
  refine ⟨?_, ?_, by omega, by omega, .refl m, _, rfl⟩
  · rwa [← h, Function.update_eq_self, Function.update_eq_self]
  · rw [Function.update_eq_self]

theorem blockOf_direct_runs (B : Blocks m dins k c) (room : m.freeblock ≤ FSSIZE) {bn : Nat}
    (direct : bn < NDIRECT) (due : Due (k i) bn) :
    Runs (blockOf (dins i) bn) m True (fun r m' => Placed m m' dins k c i bn r.1 r.2) := by
  have hslot := B.slots i bn
  rw [ptrs, slotPtr_direct (by omega)] at hslot
  have hbn : slotOf bn = bn := if_pos direct
  rw [Due, hbn, if_neg (by omega)] at due
  rw [blockOf, if_pos direct]
  split
  · rename_i none
    have hk : k i = bn := by
      have : ¬ bn < k i := fun h => hslot.mpr h none
      omega
    refine nextBlock_runs.seq fun b m' hb => .pure ?_
    obtain ⟨rfl, rfl⟩ := hb
    have grown := B.growInode room (i := i) (by omega)
    rw [hk] at grown
    refine ⟨by rwa [hbn], ?_, by rw [hbn, hk]; simp, fun _ => rfl, ⟨rfl, fun _ _ => rfl⟩, _, rfl⟩
    rw [ptrs, Function.update_self, hbn, slotPtr_setDirect (B.fits i).length direct, if_pos rfl]
  · rename_i some
    have hk := hslot.mp some
    refine .pure ?_
    have : Placed m m dins k c i bn _ _ := B.placed (by omega)
    rwa [hbn, ptrs, slotPtr_direct (by omega)] at this

theorem blockOf_indirect_runs (B : Blocks m dins k c) (room : m.freeblock ≤ FSSIZE) {bn : Nat}
    (indirect : NDIRECT ≤ bn) (hbn : bn < MAXFILE) (due : Due (k i) bn) :
    Runs (blockOf (dins i) bn) m (k i = NDIRECT → m.freeblock < FSSIZE)
      (fun r m' => Placed m m' dins k c i bn r.1 r.2) := by
  have hslot : slotOf bn = bn + 1 := if_neg (by omega)
  have hj : bn - NDIRECT < NINDIRECT := by
    simp only [MAXFILE] at hbn
    omega
  rw [Due, hslot] at due
  have hk : NDIRECT ≤ k i := by
    rcases due with h | h
    · omega
    · split at h <;> omega
  rw [blockOf, if_neg (by omega)]
  refine (indirectOf_runs B room hk).seq fun din m₁ h₁ => ?_
  obtain ⟨B₁, hfree, frame₁, same, fresh⟩ := h₁
  have hdin : Function.update dins i din i = din := Function.update_self ..
  have hk₁ : Function.update k i (max (k i) (NDIRECT + 1)) i = max (k i) (NDIRECT + 1) :=
    Function.update_self ..
  have hind : ptrs m₁.sect (Function.update dins i din) i NDIRECT = din.addrs.getD NDIRECT 0 := by
    rw [ptrs, hdin, slotPtr_direct le_rfl]
  have below := B₁.ptr_lt (i := i) (s := NDIRECT) (by rw [hk₁]; omega)
  have set := (B₁.slots i NDIRECT).mpr (by rw [hk₁]; omega)
  rw [hind] at below set
  have high := B₁.high
  simp only [FSSIZE] at high
  -- reading the indirect block fails if it is new and behind the last block
  have iff : din.addrs.getD NDIRECT 0 < m₁.len ↔ (k i = NDIRECT → m.freeblock < FSSIZE) := by
    rw [B₁.len]
    by_cases new : k i = NDIRECT
    · rw [fresh new]
      simp [new]
    · rw [max_eq_left (by omega)] at hfree
      simp only [new, false_imp_iff, iff_true]
      omega
  refine ((rsect_runs (by omega)).bind (G := True) fun a m₂ h₂ => ?_).fits_iff (by rw [iff]; simp)
  obtain ⟨rfl, rfl, inside⟩ := h₂
  have room₁ : m₂.freeblock ≤ FSSIZE := by
    rw [B₁.len] at inside
    by_cases new : k i = NDIRECT
    · rw [new, max_eq_right (by omega)] at hfree
      rw [fresh new] at inside
      omega
    · rw [max_eq_left (by omega)] at hfree
      omega
  have hentry : slotPtr m₂.sect din (NDIRECT + 1 + (bn - NDIRECT)) =
      (m₂.sect din.ind).num 4 (4 * (bn - NDIRECT)) := slotPtr_entry hj set
  have hn : NDIRECT + 1 + (bn - NDIRECT) = bn + 1 := by omega
  have slot := B₁.slots i (bn + 1)
  rw [ptrs, hdin, ← hn, hentry, hk₁, hn, Dinode.ind] at slot
  split
  · rename_i none
    have hk₂ : max (k i) (NDIRECT + 1) = bn + 1 := by
      have : ¬ bn + 1 < max (k i) (NDIRECT + 1) := fun h => slot.mpr h none
      rcases due with h | h
      · omega
      · split at h <;> omega
    have grown := B₁.growIndirect room₁ (i := i) (j := bn - NDIRECT) (by rw [hk₁]; omega) hj
    rw [hdin, hk₁, Function.update_idem, hk₂] at grown
    refine nextBlock_runs.seq fun b m₃ hb => ?_
    obtain ⟨rfl, rfl⟩ := hb
    refine (wsect_runs (by exact inside) (by omega) _).seq fun _ m₄ h₄ => .pure ?_
    subst h₄
    refine ⟨by rwa [hslot], ?_, by simp only; omega, fun _ => rfl, ?_, same⟩
    · rw [ptrs, hdin, hslot, ← hn]
      refine Eq.symm ((slotPtr_putEntry hj set (by omega) (Function.update_self ..)).trans ?_)
      exact if_pos rfl
    · refine frame₁.trans ⟨rfl, fun b hb => ?_⟩
      refine Function.update_of_ne ?_ _ _
      have := (B₁.owned.used ((B₁.slots i NDIRECT).mpr (by rw [hk₁]; omega))).1
      rw [hind] at this
      omega
  · rename_i some
    have hk₂ : k i = bn + 2 := by
      have := slot.mp some
      rcases due with h | h
      · omega
      · split at h <;> omega
    rw [max_eq_left (by omega)] at B₁ hfree
    rw [Function.update_eq_self] at B₁
    refine .pure ⟨?_, ?_, by omega, by omega, frame₁, same⟩
    · rwa [hslot, show bn + 1 + 1 = k i by omega, Function.update_eq_self]
    · rw [ptrs, hdin, hslot, ← hn, hentry, Dinode.ind]

theorem blockOf_runs (B : Blocks m dins k c) (room : m.freeblock ≤ FSSIZE) {bn : Nat}
    (hbn : bn < MAXFILE) (due : Due (k i) bn) :
    Runs (blockOf (dins i) bn) m (k i = NDIRECT ∧ bn = NDIRECT → m.freeblock < FSSIZE)
      (fun r m' => Placed m m' dins k c i bn r.1 r.2) := by
  by_cases direct : bn < NDIRECT
  · refine (blockOf_direct_runs B room direct due).fits_iff ?_
    simp only [true_iff]
    omega
  · refine (blockOf_indirect_runs B room (by omega) hbn due).fits_iff ?_
    rw [Due] at due
    have : slotOf bn = bn + 1 := if_neg direct
    split at due <;> omega

theorem Placed.inside {m' : Img} {bn x : Nat} {din : Dinode} (P : Placed m m' dins k c i bn din x)
    (room : m.freeblock ≤ FSSIZE) :
    x < m'.len ↔ m.freeblock + (slotOf bn + 1 - k i) ≤ FSSIZE := by
  have hfree := P.freeblock
  have hlast := P.last
  have below := P.blocks.ptr_lt (i := i) (s := slotOf bn) (by simp)
  rw [← P.block] at below
  rw [P.blocks.len]
  omega

/-- The bytes `p` were added to inode `i`, which is now `din` in memory. -/
structure Appended (m m' : Img) (dins : Nat → Dinode) (c : Nat → List UInt8) (i : Nat)
    (p : List UInt8) (din : Dinode) : Prop where
  blocks : Blocks m' (Function.update dins i din)
    (fun j => slotsFor (Function.update c i (c i ++ p) j).length) (Function.update c i (c i ++ p))
  freeblock : m'.freeblock + slotsFor (c i).length = m.freeblock + slotsFor ((c i).length + p.length)
  room : m'.freeblock ≤ FSSIZE
  small : (c i).length + p.length ≤ MAXFILE * BSIZE
  frame : Frame m m'
  same : SameBut (dins i) din

/-- One round of `iappend` stores what fits into the current block. -/
theorem Placed.stored {m' : Img} {x : Nat} {din : Dinode} {p : List UInt8}
    (P : Placed m m' dins (fun j => slotsFor (c j).length) c i ((c i).length / BSIZE) din x)
    (room : m.freeblock ≤ FSSIZE) (hbn : (c i).length / BSIZE < MAXFILE) (inside : x < m'.len)
    (pos : 0 < p.length) (fit : (c i).length % BSIZE + p.length ≤ BSIZE) :
    Appended m
      { m' with sect := Function.update m'.sect x ((m'.sect x).put ((c i).length % BSIZE) p) }
      dins c i p din := by
  have stored := P.blocks.store (by simp) P.block fit
  have hslots := slotsFor_add pos fit
  have hfree := P.freeblock
  have hlow := slotsFor_mono (Nat.le_add_right (c i).length p.length)
  refine ⟨?_, by simp only; omega, ?_, ?_, P.frame.trans ⟨rfl, fun b hb => ?_⟩, P.same⟩
  · have hk : Function.update (fun j => slotsFor (c j).length) i (slotOf ((c i).length / BSIZE) + 1) =
        fun j => slotsFor (Function.update c i (c i ++ p) j).length := by
      funext j
      by_cases e : j = i
      · subst e
        simp [hslots]
      · simp [e]
    rwa [hk] at stored
  · rw [P.inside room] at inside
    simp only
    omega
  · simp only [MAXFILE, NDIRECT, NINDIRECT, BSIZE] at hbn fit ⊢
    omega
  · refine Function.update_of_ne ?_ _ _
    have := (P.blocks.owned.used ((P.blocks.slots i (slotOf ((c i).length / BSIZE))).mpr (by simp))).1
    rw [← P.block] at this
    omega

theorem Appended.nil (B : Blocks m dins (fun j => slotsFor (c j).length) c)
    (room : m.freeblock ≤ FSSIZE) (small : (c i).length ≤ MAXFILE * BSIZE) :
    Appended m m dins c i [] (dins i) := by
  refine ⟨?_, by simp, room, small, .refl m, _, rfl⟩
  simpa using B

theorem Appended.trans {m₁ m₂ : Img} {din din' : Dinode} {p q : List UInt8}
    (first : Appended m m₁ dins c i p din)
    (second : Appended m₁ m₂ (Function.update dins i din) (Function.update c i (c i ++ p)) i q din') :
    Appended m m₂ dins c i (p ++ q) din' := by
  obtain ⟨B, hfree, room, small, frame, addrs, hsame⟩ := second
  have hfree₁ := first.freeblock
  obtain ⟨addrs₁, rfl⟩ := first.same
  simp only [Function.update_self, List.append_assoc, Function.update_idem, List.length_append]
    at B hfree small hsame
  rw [Nat.add_assoc] at hfree small
  exact ⟨B, by rw [List.length_append]; omega, room, by rwa [List.length_append],
    first.frame.trans frame, addrs, hsame⟩

/-- The condition under which `n` bytes can be added to `off` bytes when `fb` is the next
free block. -/
def Room (fb off n : Nat) : Prop :=
  off + n ≤ MAXFILE * BSIZE ∧ fb + slotsFor (off + n) ≤ FSSIZE + slotsFor off

instance (fb off n : Nat) : Decidable (Room fb off n) := inferInstanceAs (Decidable (_ ∧ _))

theorem slotsFor_due (len : Nat) : Due (slotsFor len) (len / BSIZE) := by
  by_cases h : len % BSIZE = 0
  · exact Or.inr (slotsFor_of_full h)
  · exact Or.inl (slotsFor_of_mod h)

theorem room_zero {fb off : Nat} (room : fb ≤ FSSIZE) (small : off ≤ MAXFILE * BSIZE) :
    Room fb off 0 :=
  ⟨small, Nat.add_le_add_right room _⟩

/-- Room for all the bytes is room for the first block and then for the rest. -/
theorem room_iff {fb off n n₁ : Nat} (hn : n₁ ≤ n) (pos : 0 < n₁) (fit : off % BSIZE + n₁ ≤ BSIZE) :
    ((slotsFor off = NDIRECT ∧ off / BSIZE = NDIRECT → fb < FSSIZE) ∧
      fb + (slotOf (off / BSIZE) + 1 - slotsFor off) ≤ FSSIZE ∧
      Room (fb + (slotOf (off / BSIZE) + 1 - slotsFor off)) (off + n₁) (n - n₁)) ↔
    Room fb off n := by
  have h₁ := slotsFor_add pos fit
  have low := slotsFor_mono (Nat.le_add_right off n₁)
  have high := slotsFor_mono (Nat.add_le_add_left hn off)
  have ind : slotOf NDIRECT = NDIRECT + 1 := rfl
  rw [Room, Room, show off + n₁ + (n - n₁) = off + n by omega]
  constructor
  · rintro ⟨-, -, h, h'⟩
    exact ⟨h, by omega⟩
  · rintro ⟨h, h'⟩
    refine ⟨?_, by omega, h, by omega⟩
    rintro ⟨hs, hb⟩
    rw [hb] at h₁
    omega

theorem iappendFrom_runs {n : Nat} {p : List UInt8} (hn : p.length ≤ n)
    (B : Blocks m dins (fun j => slotsFor (c j).length) c) (room : m.freeblock ≤ FSSIZE)
    (small : (c i).length ≤ MAXFILE * BSIZE) :
    Runs (iappendFrom n (dins i) (c i).length p) m (Room m.freeblock (c i).length p.length)
      (fun r m' => Appended m m' dins c i p r.1 ∧ r.2 = (c i).length + p.length) := by
  induction n generalizing m dins c p with
  | zero =>
    obtain rfl : p = [] := List.length_eq_zero_iff.mp (Nat.le_zero.mp hn)
    exact (Runs.pure ⟨.nil B room small, rfl⟩).fits_iff (iff_of_true trivial (room_zero room small))
  | succ n ih =>
    rw [iappendFrom]
    split
    · rename_i empty
      subst empty
      exact (Runs.pure ⟨.nil B room small, rfl⟩).fits_iff (iff_of_true trivial (room_zero room small))
    · rename_i some
      have pos : 0 < p.length := List.length_pos_iff.mpr some
      split
      · rename_i hbn
        have hoff : (c i).length - (c i).length / BSIZE * BSIZE = (c i).length % BSIZE := by
          simp only [BSIZE]
          omega
        obtain ⟨n₁, hn₁⟩ : ∃ n₁, n₁ = min p.length (((c i).length / BSIZE + 1) * BSIZE - (c i).length) :=
          ⟨_, rfl⟩
        have fit : (c i).length % BSIZE + (p.take n₁).length ≤ BSIZE := by
          rw [List.length_take]
          simp only [BSIZE] at hn₁ ⊢
          omega
        have pos₁ : 0 < (p.take n₁).length := by
          rw [List.length_take]
          simp only [BSIZE] at hn₁
          omega
        have len₁ : (p.take n₁).length = n₁ := by
          rw [List.length_take]
          omega
        refine ((blockOf_runs B room hbn (slotsFor_due _)).bind (G :=
          m.freeblock + (slotOf ((c i).length / BSIZE) + 1 - slotsFor (c i).length) ≤ FSSIZE ∧
          Room (m.freeblock + (slotOf ((c i).length / BSIZE) + 1 - slotsFor (c i).length))
            ((c i).length + n₁) (p.length - n₁)) ?_).fits_iff ?_
        · rintro ⟨din, x⟩ m₁ P
          dsimp only at P ⊢
          rw [← hn₁, hoff]
          have small₁ : x < 2 ^ 22 := by
            have below := P.blocks.ptr_lt (i := i) (s := slotOf ((c i).length / BSIZE)) (by simp)
            have high := P.blocks.high
            rw [← P.block] at below
            simp only [FSSIZE] at high
            omega
          refine ((rsect_runs small₁).fits_iff (P.inside room)).bind fun buf m₂ h₂ => ?_
          obtain ⟨rfl, rfl, inside⟩ := h₂
          refine (wsect_runs inside small₁ _).seq fun _ m₃ h₃ => ?_
          have stored := P.stored room hbn inside pos₁ fit
          rw [← h₃] at stored
          have hfree : m₃.freeblock = m.freeblock +
              (slotOf ((c i).length / BSIZE) + 1 - slotsFor (c i).length) := by
            rw [h₃]
            exact P.freeblock
          have rest := ih (p := p.drop n₁) (by rw [List.length_drop]; omega) stored.blocks stored.room (by
            rw [Function.update_self, List.length_append]
            exact stored.small)
          simp only [Function.update_self, List.length_append, len₁, List.length_drop] at rest
          refine rest.conseq (by rw [hfree]) fun r m' h => ⟨?_, by omega⟩
          have both := stored.trans h.1
          rwa [List.take_append_drop] at both
        · exact room_iff (by omega) (len₁ ▸ pos₁) (len₁ ▸ fit)
      · refine (Runs.throw _).fits_iff (iff_of_false not_false ?_)
        rintro ⟨h, -⟩
        rename_i hbn
        simp only [MAXFILE, NDIRECT, NINDIRECT, BSIZE] at hbn h
        omega

end Blocks

end Xv6.Mkfs
