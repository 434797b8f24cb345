import Xv6.Mkfs.Build

/-!
# The files of the image

`Built m dins c`: the inodes handed out so far are on the disk, with the contents `c`. It is
kept by `ialloc` and `iappend`, hence by the loop over the arguments of mkfs, as long as the
inodes stay inside the inode blocks.
-/

namespace Xv6.Mkfs

open Fs Fallible

/-- The number of inodes that have a place in the inode blocks. -/
def inodeRoom : Nat := ninodeblocks * IPB

theorem inodeRoom_eq : inodeRoom = 208 := rfl

theorem iblock_eq (i : Nat) : sb.iblock i = i / 16 + 32 := rfl

theorem iblock_lt {i : Nat} (h : i < inodeRoom) : sb.iblock i < 45 := by
  rw [iblock_eq]
  rw [inodeRoom_eq] at h
  omega

/-! ## Inodes on the disk -/

section Inodes

variable {m : Img} {i : Nat}

theorem rinode_runs (hi : i < inodeRoom) (len : m.len = FSSIZE) :
    Runs (rinode i) m True (fun din m' => m' = m ∧ din = dinodeAt sb m.sect i) := by
  have hb := iblock_lt hi
  refine ((rsect_runs (by omega)).bind (G := True) fun buf m' h => .pure ?_).fits_iff ?_
  · obtain ⟨rfl, rfl, -⟩ := h
    exact ⟨rfl, rfl⟩
  · rw [len, and_true, iff_true]
    simp only [FSSIZE]
    omega

theorem winode_runs (hi : i < inodeRoom) (len : m.len = FSSIZE) (din : Dinode) :
    Runs (winode i din) m True (fun _ m' => m' = { m with
      sect := Function.update m.sect (sb.iblock i)
        (putDinode (m.sect (sb.iblock i)) (i % IPB) din) }) := by
  have hb := iblock_lt hi
  have inside : sb.iblock i < m.len := by
    rw [len]
    simp only [FSSIZE]
    omega
  refine ((rsect_runs (by omega)).bind (G := True) fun buf m' h => ?_).fits_iff
    (iff_of_true ⟨inside, trivial⟩ trivial)
  obtain ⟨rfl, rfl, -⟩ := h
  exact wsect_runs inside (by omega) _

/-- Writing one inode leaves the others alone. -/
theorem dinodeAt_putDinode {sect : Nat → Block} {din : Dinode} (fits : din.Fits) (j : Nat) :
    dinodeAt sb (Function.update sect (sb.iblock i) (putDinode (sect (sb.iblock i)) (i % IPB) din)) j =
      if j = i then din else dinodeAt sb sect j := by
  rw [dinodeAt, dinodeAt]
  by_cases e : j = i
  · subst e
    rw [if_pos rfl, Function.update_self]
    exact getDinode_putDinode_same fits (Nat.mod_lt _ (by decide))
  · rw [if_neg e]
    by_cases same : sb.iblock j = sb.iblock i
    · rw [same, Function.update_self]
      refine getDinode_putDinode_of_ne fits.length ?_
      rw [iblock_eq, iblock_eq] at same
      simp only [IPB, BSIZE, DINODE]
      omega
    · rw [Function.update_of_ne same]

end Inodes

/-! ## The invariant -/

/-- The bytes of the inodes `1 .. freeinode - 1` are `c`. -/
structure Built (m : Img) (dins : Nat → Dinode) (c : Nat → List UInt8) : Prop where
  blocks : Blocks m dins (fun j => slotsFor (c j).length) c
  room : m.freeblock ≤ FSSIZE
  area : ∀ j, j < inodeRoom → dinodeAt sb m.sect j = dins j
  used : ∀ j, 1 ≤ j → j < m.freeinode → (dins j).size = (c j).length ∧ (dins j).nlink = 1 ∧
    (dins j).type = if j = ROOTINO then T_DIR else T_FILE
  unused : ∀ j, j = 0 ∨ m.freeinode ≤ j → dins j = Dinode.zero ∧ c j = []
  small : ∀ j, (c j).length ≤ MAXFILE * BSIZE
  super : m.sect 1 = putSuperblock Bytes.Buffer.zero

section Built

variable {m m' : Img} {dins dins' : Nat → Dinode} {k : Nat → Nat} {c : Nat → List UInt8} {i : Nat}

/-- The data area does not depend on the metadata blocks, nor on an inode's other fields. -/
theorem Blocks.relabel (B : Blocks m dins k c) (len : m'.len = m.len)
    (free : m'.freeblock = m.freeblock) (data : ∀ b, nmeta ≤ b → m'.sect b = m.sect b)
    (addrs : ∀ j, (dins' j).addrs = (dins j).addrs) (fits : ∀ j, (dins' j).Fits) :
    Blocks m' dins' k c := by
  have hP : ptrs m'.sect dins' = ptrs m.sect dins := by
    funext j s
    have hind : (dins' j).ind = (dins j).ind := by rw [Dinode.ind, Dinode.ind, addrs]
    rw [ptrs, ptrs, slotPtr, slotPtr, addrs, hind]
    by_cases h : (dins j).ind = 0
    · simp [h]
    · have : nmeta ≤ (dins j).ind := by
        have used := (B.owned.used (i := j) (s := NDIRECT) (by rwa [ptrs, slotPtr_ind])).1
        rwa [ptrs, slotPtr_ind] at used
      rw [data _ this]
  have hbytes : ∀ j off, fileByte m'.sect (dins' j) off = fileByte m.sect (dins j) off := by
    intro j off
    have hp : slotPtr m'.sect (dins' j) (slotOf (off / BSIZE)) =
        slotPtr m.sect (dins j) (slotOf (off / BSIZE)) := congrFun (congrFun hP j) _
    rw [fileByte, fileByte, hp]
    split
    · rfl
    · rename_i set
      have used : nmeta ≤ slotPtr m.sect (dins j) (slotOf (off / BSIZE)) :=
        (B.owned.used (i := j) set).1
      rw [data _ used]
  refine ⟨len.trans B.len, free ▸ B.low, free ▸ B.high, ?_, ?_, ?_, ?_, fits, ?_⟩
  · rw [hP, free]
    exact B.owned
  · rw [hP]
    exact B.slots
  · rw [hP, free]
    exact B.onto
  · intro b hb
    rw [free] at hb
    rw [data b (B.low.trans hb), B.fresh b hb]
  · intro j off
    rw [hbytes, B.bytes]

theorem Blocks.putDinode (B : Blocks m dins k c) (hi : i < inodeRoom) {din : Dinode} (fits : din.Fits)
    (addrs : din.addrs = (dins i).addrs) (d : Block) :
    Blocks { m with sect := Function.update m.sect (sb.iblock i) d } (Function.update dins i din)
      k c := by
  refine B.relabel rfl rfl (fun b hb => Function.update_of_ne ?_ _ _) (fun j => ?_)
    (B.fits_update fits)
  · have := iblock_lt hi
    rw [nmeta_eq] at hb
    omega
  · by_cases e : j = i
    · subst e
      simp [addrs]
    · simp [e]

/-- Writing inode `i` back: the area again agrees with the inodes in memory. -/
theorem area_putDinode {sect : Nat → Block} (area : ∀ j, j < inodeRoom → j ≠ i → dinodeAt sb sect j = dins j)
    {din : Dinode} (fits : din.Fits) (j : Nat) (hj : j < inodeRoom) :
    dinodeAt sb (Function.update sect (sb.iblock i) (Fs.putDinode (sect (sb.iblock i)) (i % IPB) din)) j =
      Function.update dins i din j := by
  rw [dinodeAt_putDinode fits]
  by_cases e : j = i
  · subst e
    simp
  · rw [if_neg e, Function.update_of_ne e, area j hj e]

theorem super_putDinode {sect : Nat → Block} {d : Block} :
    Function.update sect (sb.iblock i) d 1 = sect 1 :=
  Function.update_of_ne (by rw [iblock_eq]; omega) _ _

theorem Fits_new (type : Nat) (h : type < 2 ^ 16) :
    Dinode.Fits { Dinode.zero with type := type, nlink := 1 } where
  type := h
  major := Nat.two_pow_pos 16
  minor := Nat.two_pow_pos 16
  nlink := Nat.one_lt_two_pow (by decide)
  size := Nat.two_pow_pos 32
  length := rfl
  addrs := by
    intro a ha
    rw [List.eq_of_mem_replicate ha]
    decide

theorem ialloc_runs (B : Built m dins c) (pos : 1 ≤ m.freeinode) (hi : m.freeinode < inodeRoom) {type : Nat}
    (htype : type = if m.freeinode = ROOTINO then T_DIR else T_FILE) :
    Runs (ialloc type) m True (fun inum m' => inum = m.freeinode ∧
      m'.freeinode = m.freeinode + 1 ∧ m'.freeblock = m.freeblock ∧
      Built m' (Function.update dins m.freeinode { Dinode.zero with type := type, nlink := 1 }) c) := by
  have fits : Dinode.Fits { Dinode.zero with type := type, nlink := 1 } := by
    refine Fits_new type ?_
    rw [htype]
    split <;> decide
  obtain ⟨hz, hc⟩ := B.unused m.freeinode (Or.inr le_rfl)
  have next : Runs nextInode m True (fun inum m' => inum = m.freeinode ∧
      m' = { m with freeinode := m.freeinode + 1 }) :=
    ⟨fun _ => ⟨_, _, rfl, rfl, rfl⟩, fun _ => trivial⟩
  refine next.seq fun inum m₁ h₁ => ?_
  obtain ⟨rfl, rfl⟩ := h₁
  refine (winode_runs hi (by exact B.blocks.len) _).seq fun _ m₂ h₂ => .pure ?_
  subst h₂
  refine ⟨rfl, rfl, rfl, ?_, B.room, ?_, ?_, ?_, B.small, ?_⟩
  · have counted : Blocks { m with freeinode := m.freeinode + 1 } dins
        (fun j => slotsFor (c j).length) c :=
      B.blocks.relabel rfl rfl (fun _ _ => rfl) (fun _ => rfl) B.blocks.fits
    exact counted.putDinode hi fits (by rw [hz]) _
  · exact area_putDinode (fun j hj _ => B.area j hj) fits
  · intro j hj hj'
    by_cases e : j = m.freeinode
    · subst e
      rw [Function.update_self, hc]
      exact ⟨rfl, rfl, htype⟩
    · rw [Function.update_of_ne e]
      exact B.used j hj (by simp only at hj'; omega)
  · intro j hj
    simp only at hj
    rw [Function.update_of_ne (by omega)]
    exact B.unused j (by omega)
  · dsimp only
    rw [super_putDinode, B.super]

theorem iappend_runs (B : Built m dins c) (low : 1 ≤ i) (high : i < m.freeinode)
    (hi : i < inodeRoom) (p : List UInt8) :
    Runs (iappend i p) m (Room m.freeblock (c i).length p.length) (fun _ m' =>
      m'.freeinode = m.freeinode ∧
      m'.freeblock + slotsFor (c i).length = m.freeblock + slotsFor ((c i).length + p.length) ∧
      ∃ dins', Built m' dins' (Function.update c i (c i ++ p))) := by
  obtain ⟨hsize, hlink, htype⟩ := B.used i low high
  refine (rinode_runs hi B.blocks.len).seq fun din m₁ h₁ => ?_
  obtain ⟨rfl, rfl⟩ := h₁
  rw [B.area i hi, hsize]
  refine ((iappendFrom_runs le_rfl B.blocks B.room (B.small i)).bind (G := True) ?_).fits_iff
    (by simp)
  rintro ⟨din, off⟩ m₂ ⟨A, rfl⟩
  dsimp only at A ⊢
  have fits := A.blocks.fits i
  rw [Function.update_self] at fits
  have small := A.small
  refine (winode_runs hi A.blocks.len _).mono fun _ m₃ h₃ => ?_
  subst h₃
  obtain ⟨addrs, hsame⟩ := A.same
  have hsize' : (c i).length + p.length < 2 ^ 32 := by
    simp only [MAXFILE, NDIRECT, NINDIRECT, BSIZE] at small
    omega
  have fits' : Dinode.Fits { din with size := (c i).length + p.length } :=
    { fits with size := hsize' }
  refine ⟨A.frame.freeinode, A.freeblock, Function.update dins i
    { din with size := (c i).length + p.length }, ?_, A.room, ?_, ?_, ?_, ?_, ?_⟩
  · have := A.blocks.putDinode hi (i := i) fits' (by simp)
      (putDinode (m₂.sect (sb.iblock i)) (i % IPB) { din with size := (c i).length + p.length })
    rwa [Function.update_idem] at this
  · refine area_putDinode (fun j hj _ => ?_) fits'
    have := iblock_lt hj
    rw [← B.area j hj, dinodeAt, dinodeAt, A.frame.below _ (by rw [nmeta_eq]; omega)]
  · intro j hj hj'
    by_cases e : j = i
    · subst e
      simp only [Function.update_self, List.length_append, hsame]
      exact ⟨trivial, hlink, htype⟩
    · rw [Function.update_of_ne e, Function.update_of_ne e]
      exact B.used j hj (A.frame.freeinode ▸ hj')
  · intro j hj
    simp only [A.frame.freeinode] at hj
    rw [Function.update_of_ne (by omega), Function.update_of_ne (by omega)]
    exact B.unused j hj
  · intro j
    by_cases e : j = i
    · subst e
      simpa using small
    · rw [Function.update_of_ne e]
      exact B.small j
  · dsimp only
    rw [super_putDinode, A.frame.below 1 (by decide), B.super]

end Built

/-! ## The loop over the arguments -/

/-- The next free block after `n` bytes were added to `off` bytes. -/
def grown (fb off n : Nat) : Nat := fb + (slotsFor (off + n) - slotsFor off)

theorem grown_of_eq {fb fb' off n : Nat} (h : fb' + slotsFor off = fb + slotsFor (off + n)) :
    fb' = grown fb off n := by
  have := slotsFor_mono (Nat.le_add_right off n)
  rw [grown]
  omega

theorem grown_add (fb off n n' : Nat) : grown (grown fb off n) (off + n) n' = grown fb off (n + n') := by
  have h₁ := slotsFor_mono (Nat.le_add_right off n)
  have h₂ := slotsFor_mono (Nat.le_add_right (off + n) n')
  simp only [grown, ← Nat.add_assoc]
  omega

theorem room_add {fb off n n' : Nat} :
    Room fb off n ∧ Room (grown fb off n) (off + n) n' ↔ Room fb off (n + n') := by
  have h₁ := slotsFor_mono (Nat.le_add_right off n)
  have h₂ := slotsFor_mono (Nat.le_add_right (off + n) n')
  simp only [Room, grown, ← Nat.add_assoc]
  omega

section Loop

variable {m : Img} {c : Nat → List UInt8} {i : Nat}

/-- The image holds the files `c`. -/
def Holds (m : Img) (c : Nat → List UInt8) : Prop := ∃ dins, Built m dins c

/-- What adding `n` bytes to `off` bytes leaves. -/
structure Grew (m m' : Img) (off n : Nat) : Prop where
  freeinode : m'.freeinode = m.freeinode
  freeblock : m'.freeblock = grown m.freeblock off n

theorem iappend_grew (H : Holds m c) (low : 1 ≤ i) (high : i < m.freeinode) (hi : i < inodeRoom)
    (p : List UInt8) :
    Runs (iappend i p) m (Room m.freeblock (c i).length p.length) (fun _ m' =>
      Grew m m' (c i).length p.length ∧ Holds m' (Function.update c i (c i ++ p))) := by
  obtain ⟨dins, B⟩ := H
  refine (iappend_runs B low high hi p).mono ?_
  rintro - m' ⟨hi', hfree, held⟩
  exact ⟨⟨hi', grown_of_eq hfree⟩, held⟩

theorem copyFile_grew (H : Holds m c) (low : 1 ≤ i) (high : i < m.freeinode) (hi : i < inodeRoom)
    (chunks : List { p : List UInt8 // 0 < p.length ∧ p.length ≤ BSIZE }) :
    Runs (copyFile i chunks) m
      (Room m.freeblock (c i).length (chunks.map Subtype.val).flatten.length) (fun _ m' =>
      Grew m m' (c i).length (chunks.map Subtype.val).flatten.length ∧
      Holds m' (Function.update c i (c i ++ (chunks.map Subtype.val).flatten))) := by
  induction chunks generalizing m c with
  | nil =>
    obtain ⟨dins, B⟩ := H
    refine (Runs.pure ⟨⟨rfl, by simp [grown]⟩, dins, by simpa using B⟩).fits_iff
      (iff_of_true trivial (room_zero B.room (B.small i)))
  | cons p ps ih =>
    refine ((iappend_grew H low high hi p.val).bind fun _ m₁ h₁ => ?_).fits_iff
      (F := _ ∧ Room (grown m.freeblock (c i).length p.val.length)
        ((c i).length + p.val.length) (ps.map Subtype.val).flatten.length) ?_
    · obtain ⟨G, H₁⟩ := h₁
      have rest := ih H₁ (by rw [G.freeinode]; exact high)
      simp only [Function.update_self, List.length_append, G.freeblock, Function.update_idem,
        List.append_assoc] at rest
      refine rest.mono ?_
      rintro - m' ⟨G', H'⟩
      refine ⟨⟨G'.freeinode.trans G.freeinode, ?_⟩, by simpa using H'⟩
      rw [G'.freeblock, G.freeblock, grown_add]
      simp
    · rw [room_add]
      simp

/-- The directory entry of an argument. -/
def entry (inum : Nat) (f : Input) : List UInt8 :=
  putDirent ⟨inum, strncpy DIRSIZ (skipUnderscore (shortname f.name))⟩

theorem length_entry (inum : Nat) (f : Input) : (entry inum f).length = DIRENT :=
  length_putDirent _ _

/-- The files after some arguments, the first of which gets inode `inum`. -/
def addTo (c : Nat → List UInt8) (inum : Nat) : List Input → Nat → List UInt8
  | [] => c
  | f :: fs => addTo (Function.update (Function.update c ROOTINO (c ROOTINO ++ entry inum f)) inum
      f.bytes) (inum + 1) fs

/-- The arguments can be added when `fb` is the next free block and the root directory has
`r` bytes. -/
def Fit (fb r : Nat) : List Input → Prop
  | [] => True
  | f :: fs => slash ∉ shortname f.name ∧ Room fb r DIRENT ∧
      Room (grown fb r DIRENT) 0 f.bytes.length ∧
      Fit (grown (grown fb r DIRENT) 0 f.bytes.length) (r + DIRENT) fs

theorem addFile_runs (H : Holds m c) (low : ROOTINO < m.freeinode) (high : m.freeinode < inodeRoom)
    (f : Input) :
    Runs (addFile ROOTINO f) m
      (slash ∉ shortname f.name ∧ Room m.freeblock (c ROOTINO).length DIRENT ∧
        Room (grown m.freeblock (c ROOTINO).length DIRENT) 0 f.bytes.length)
      (fun _ m' => m'.freeinode = m.freeinode + 1 ∧
        m'.freeblock = grown (grown m.freeblock (c ROOTINO).length DIRENT) 0 f.bytes.length ∧
        Holds m' (addTo c m.freeinode [f])) := by
  obtain ⟨dins, B⟩ := H
  rw [addFile]
  split
  · rename_i bad
    exact (Runs.throw _).fits_iff (iff_of_false not_false fun h => h.1 bad)
  · rename_i good
    refine Runs.fits_iff (F := Room m.freeblock (c ROOTINO).length DIRENT ∧
      Room (grown m.freeblock (c ROOTINO).length DIRENT) 0 f.bytes.length) ?_ (by simp [good])
    have htype : T_FILE = if m.freeinode = ROOTINO then T_DIR else T_FILE :=
      (if_neg (by omega)).symm
    refine (ialloc_runs B (by omega) high htype).seq fun inum m₁ h₁ => ?_
    obtain ⟨rfl, hi₁, hb₁, B₁⟩ := h₁
    have append := iappend_grew ⟨_, B₁⟩ (i := ROOTINO) le_rfl (by omega) (by decide)
      (entry m.freeinode f)
    rw [hb₁, length_entry] at append
    refine append.bind fun _ m₂ h₂ => ?_
    obtain ⟨G, H₂⟩ := h₂
    have empty : Function.update c ROOTINO (c ROOTINO ++ entry m.freeinode f) m.freeinode = [] := by
      rw [Function.update_of_ne (by omega)]
      exact (B.unused _ (Or.inr le_rfl)).2
    have copy := copyFile_grew H₂ (i := m.freeinode) (by omega) (by rw [G.freeinode]; omega) high f.chunks
    rw [empty, G.freeblock, hb₁] at copy
    refine copy.mono ?_
    rintro - m₃ ⟨G', H₃⟩
    refine ⟨by rw [G'.freeinode, G.freeinode, hi₁], by rw [G'.freeblock, G.freeblock, hb₁]; rfl, H₃⟩

theorem addFiles_runs (H : Holds m c) (low : ROOTINO < m.freeinode) (fs : List Input)
    (high : m.freeinode + fs.length ≤ inodeRoom) :
    Runs (addFiles ROOTINO fs) m (Fit m.freeblock (c ROOTINO).length fs) (fun _ m' =>
      m'.freeinode = m.freeinode + fs.length ∧ Holds m' (addTo c m.freeinode fs)) := by
  induction fs generalizing m c with
  | nil => exact Runs.pure ⟨rfl, H⟩
  | cons f fs ih =>
    rw [List.length_cons] at high
    have first := addFile_runs H low (by omega) f
    refine (first.bind fun _ m₁ h₁ => ?_).fits_iff (F := _ ∧
      Fit (grown (grown m.freeblock (c ROOTINO).length DIRENT) 0 f.bytes.length)
        ((c ROOTINO).length + DIRENT) fs) (by simp only [Fit, and_assoc])
    obtain ⟨hi₁, hb₁, H₁⟩ := h₁
    have rest := ih H₁ (by omega) (by omega)
    have hroot : (addTo c m.freeinode [f] ROOTINO).length = (c ROOTINO).length + DIRENT := by
      simp only [addTo]
      rw [Function.update_of_ne (by omega), Function.update_self, List.length_append, length_entry]
    rw [hroot, hb₁] at rest
    refine rest.mono ?_
    rintro - m₂ ⟨hi₂, H₂⟩
    refine ⟨by rw [hi₂, hi₁, List.length_cons]; omega, ?_⟩
    rw [hi₁] at H₂
    exact H₂

end Loop

/-! ## The program -/

theorem zeroBlocks_runs (n : Nat) (hn : n ≤ FSSIZE) :
    Runs (zeroBlocks n) Img.start True (fun _ m => m = { Img.start with len := n }) := by
  induction n with
  | zero => exact Runs.pure rfl
  | succ n ih =>
    refine (ih (by omega)).seq fun _ m h => ?_
    subst h
    refine ⟨fun _ => ⟨(), _, rfl, ?_⟩, fun _ => trivial⟩
    have hs : sector n = n := sector_eq (by simp only [FSSIZE] at hn; omega)
    rw [hs, max_eq_right (by simp only; omega)]
    simp only [Img.start, Function.update_eq_self]

/-- The image before the first inode. -/
def blank : Img where
  sect := Function.update (fun _ => Bytes.Buffer.zero) 1 (putSuperblock Bytes.Buffer.zero)
  len := FSSIZE
  freeinode := 1
  freeblock := nmeta

theorem blank_sect {b : Nat} (h : b ≠ 1) : blank.sect b = Bytes.Buffer.zero := by
  simp [blank, h]

theorem blank_holds : Holds blank (fun _ => []) := by
  have hP : ptrs blank.sect (fun _ => Dinode.zero) = fun _ _ => 0 := by
    funext i s
    exact slotPtr_zero
  refine ⟨fun _ => Dinode.zero, ⟨rfl, le_rfl, by decide, ?_, ?_, ?_, ?_, ?_, ?_⟩, by decide, ?_, ?_, ?_, ?_, rfl⟩
  · rw [hP]
    exact ⟨fun h => absurd rfl h, fun _ h => absurd rfl h⟩
  · intro i s
    simp [hP, slotsFor_zero]
  · intro b h h'
    exact absurd h' (Nat.not_lt.mpr h)
  · intro b h
    have : nmeta ≤ b := h
    rw [nmeta_eq] at this
    exact blank_sect (by omega)
  · intro i
    have := getDinode_fits (Bytes.Buffer.zero) 0
    rwa [getDinode_zero] at this
  · intro i off
    rw [fileByte, if_pos slotPtr_zero]
    simp
  · intro j hj
    rw [dinodeAt, blank_sect (by rw [iblock_eq]; omega), getDinode_zero]
  · intro j h h'
    simp only [blank] at h'
    omega
  · exact fun _ _ => ⟨rfl, rfl⟩
  · exact fun _ => Nat.zero_le _

/-- The image on exit: the size of the root directory is rounded up, and the free map is
there. -/
structure Finished (m : Img) (dins : Nat → Dinode) (c : Nat → List UInt8) : Prop where
  blocks : Blocks m dins (fun j => slotsFor (c j).length) c
  room : m.freeblock ≤ FSSIZE
  area : ∀ j, j < inodeRoom → dinodeAt sb m.sect j = dins j
  root : ROOTINO < m.freeinode ∧ (dins ROOTINO).type = T_DIR ∧
    (dins ROOTINO).size = ((c ROOTINO).length / BSIZE + 1) * BSIZE
  rootLink : (dins ROOTINO).nlink = 1
  files : ∀ j, ROOTINO < j → j < m.freeinode →
    (dins j).type = T_FILE ∧ (dins j).nlink = 1 ∧ (dins j).size = (c j).length
  unused : ∀ j, j = 0 ∨ m.freeinode ≤ j → dins j = Dinode.zero ∧ c j = []
  small : ∀ j, (c j).length ≤ MAXFILE * BSIZE
  super : m.sect 1 = putSuperblock Bytes.Buffer.zero
  bitmap : m.sect sb.bmapstart = markUsed Bytes.Buffer.zero m.freeblock

variable {m : Img} {dins : Nat → Dinode} {c : Nat → List UInt8}

theorem balloc_runs {used : Nat} (h : used < BSIZE * 8) (len : m.len = FSSIZE) :
    Runs (balloc used) m True (fun _ m' => m' = { m with
      sect := Function.update m.sect sb.bmapstart (markUsed Bytes.Buffer.zero used) }) := by
  rw [balloc, if_pos h]
  refine wsect_runs ?_ (by decide) _
  rw [len]
  decide

theorem finish_runs (B : Built m dins c) (low : ROOTINO < m.freeinode) :
    Runs (do fixRoot ROOTINO; let used ← getFreeblock; balloc used) m True (fun _ m' =>
      m'.freeinode = m.freeinode ∧ ∃ dins', Finished m' dins' c) := by
  obtain ⟨hsize, hlink, htype⟩ := B.used ROOTINO le_rfl low
  have small := B.small ROOTINO
  have hi : ROOTINO < inodeRoom := by decide
  have size : ((c ROOTINO).length / BSIZE + 1) * BSIZE < 2 ^ 32 := by
    simp only [MAXFILE, NDIRECT, NINDIRECT, BSIZE] at small ⊢
    omega
  obtain ⟨din, hdin⟩ : ∃ din, din =
      { dins ROOTINO with size := ((c ROOTINO).length / BSIZE + 1) * BSIZE } := ⟨_, rfl⟩
  have fits : din.Fits := hdin ▸ { B.blocks.fits ROOTINO with size := size }
  have fix : Runs (fixRoot ROOTINO) m True (fun _ m' => m' = { m with
      sect := Function.update m.sect (sb.iblock ROOTINO)
        (putDinode (m.sect (sb.iblock ROOTINO)) (ROOTINO % IPB) din) }) := by
    refine (rinode_runs hi B.blocks.len).seq fun d m₁ h₁ => ?_
    obtain ⟨rfl, rfl⟩ := h₁
    rw [B.area ROOTINO hi, hsize, ← hdin]
    exact winode_runs hi B.blocks.len din
  refine fix.seq fun _ m₁ h₁ => ?_
  have hget : Runs getFreeblock m₁ True (fun used m' => used = m₁.freeblock ∧ m' = m₁) :=
    ⟨fun _ => ⟨_, _, rfl, rfl, rfl⟩, fun _ => trivial⟩
  refine hget.seq fun used m₂ h₂ => ?_
  obtain ⟨rfl, rfl⟩ := h₂
  have hfree : m₂.freeblock = m.freeblock := by rw [h₁]
  have hinode : m₂.freeinode = m.freeinode := by rw [h₁]
  have room := B.room
  have B₁ : Blocks m₂ (Function.update dins ROOTINO din) (fun j => slotsFor (c j).length) c := by
    rw [h₁]
    exact B.blocks.putDinode hi fits (by rw [hdin]) _
  refine (balloc_runs (by rw [hfree]; simp only [FSSIZE, BSIZE] at room ⊢; omega) B₁.len).mono ?_
  rintro - m' rfl
  refine ⟨hinode, Function.update dins ROOTINO din, ?_, hfree.le.trans room, ?_, ?_, ?_, ?_, ?_,
    B.small, ?_, ?_⟩
  · refine B₁.relabel rfl rfl (fun b hb => Function.update_of_ne ?_ _ _) (fun _ => rfl) B₁.fits
    rintro rfl
    exact absurd hb (by decide)
  · intro j hj
    have hb := iblock_lt hj
    rw [← area_putDinode (fun j hj _ => B.area j hj) fits j hj, dinodeAt, dinodeAt]
    dsimp only
    rw [Function.update_of_ne (by intro e; rw [e] at hb; exact absurd hb (by decide)), h₁]
  · rw [Function.update_self, hdin]
    exact ⟨hinode ▸ low, htype, rfl⟩
  · rw [Function.update_self, hdin]
    exact hlink
  · intro j hj hj'
    rw [Function.update_of_ne (by omega)]
    obtain ⟨h, h', h''⟩ := B.used j (by omega) (hinode ▸ hj')
    rw [if_neg (by omega)] at h''
    exact ⟨h'', h', h⟩
  · intro j hj
    dsimp only at hj
    rw [hinode] at hj
    have other : j ≠ ROOTINO := by
      simp only [ROOTINO] at low ⊢
      omega
    rw [Function.update_of_ne other]
    exact B.unused j hj
  · dsimp only
    rw [Function.update_of_ne (by decide), h₁]
    dsimp only
    rw [super_putDinode, B.super]
  · simp

/-- The contents of the root directory before the first argument. -/
def dots : List UInt8 :=
  putDirent ⟨ROOTINO, strncpy DIRSIZ [dot]⟩ ++ putDirent ⟨ROOTINO, strncpy DIRSIZ [dot, dot]⟩

/-- The files of the image. -/
def contents (files : List Input) : Nat → List UInt8 :=
  addTo (Function.update (fun _ => []) ROOTINO dots) (ROOTINO + 1) files

theorem main_runs {files : List Input} (few : files.length + 2 ≤ inodeRoom) :
    Runs (main files) Img.start (Fit (nmeta + 1) (2 * DIRENT) files) (fun _ m =>
      m.freeinode = files.length + 2 ∧ ∃ dins, Finished m dins (contents files)) := by
  refine (zeroBlocks_runs FSSIZE le_rfl).seq fun _ m₁ h₁ => ?_
  subst h₁
  refine (wsect_runs (by decide) (by decide) _).seq fun _ m₂ h₂ => ?_
  obtain rfl : m₂ = blank := h₂
  obtain ⟨dins, B⟩ := blank_holds
  refine (ialloc_runs B le_rfl (by decide) rfl).seq fun root m₃ h₃ => ?_
  obtain ⟨rfl, hi₃, hb₃, B₃⟩ := h₃
  have root : blank.freeinode = ROOTINO := rfl
  rw [root] at hi₃
  rw [root, if_pos rfl]
  -- "." and ".." go into the first block of the root directory
  have first := iappend_grew ⟨_, B₃⟩ (i := ROOTINO) le_rfl (by omega) (by decide)
    (putDirent ⟨ROOTINO, strncpy DIRSIZ [dot]⟩)
  rw [length_putDirent, hb₃] at first
  refine (first.fits_iff (iff_of_true (by decide) trivial)).seq fun _ m₄ h₄ => ?_
  obtain ⟨G₄, H₄⟩ := h₄
  have hb₄ : m₄.freeblock = nmeta + 1 := G₄.freeblock.trans (by rw [hb₃]; rfl)
  have second := iappend_grew H₄ (i := ROOTINO) le_rfl (by rw [G₄.freeinode]; omega) (by decide)
    (putDirent ⟨ROOTINO, strncpy DIRSIZ [dot, dot]⟩)
  simp only [List.nil_append, Function.update_self, Function.update_idem, length_putDirent, hb₄]
    at second
  refine (second.fits_iff (iff_of_true (by decide) trivial)).seq fun _ m₅ h₅ => ?_
  obtain ⟨G₅, H₅⟩ := h₅
  have hb₅ : m₅.freeblock = nmeta + 1 := G₅.freeblock.trans (by rw [hb₄]; rfl)
  have hi₅ : m₅.freeinode = ROOTINO + 1 := by rw [G₅.freeinode, G₄.freeinode, hi₃]
  have hroot : ROOTINO = 1 := rfl
  have loop := addFiles_runs H₅ (by omega) files (by omega)
  rw [Function.update_self, hb₅, hi₅, List.length_append, length_putDirent, length_putDirent] at loop
  refine (loop.bind (G := True) fun _ m₆ h₆ => ?_).fits_iff (by simp; rfl)
  obtain ⟨hi₆, dins₆, B₆⟩ := h₆
  refine (finish_runs B₆ (by omega)).mono ?_
  rintro - m ⟨hi, finished⟩
  exact ⟨by omega, finished⟩

theorem mkfs_ok {files : List Input} {m : Img} (few : files.length + 2 ≤ inodeRoom)
    (h : mkfs files = .ok m) :
    m.freeinode = files.length + 2 ∧ ∃ dins, Finished m dins (contents files) := by
  rw [mkfs] at h
  cases hmain : main files Img.start with
  | error e =>
    rw [hmain] at h
    cases h
  | ok p =>
    rw [hmain] at h
    obtain rfl : p.2 = m := by simpa [Except.map] using h
    exact (main_runs few).post (a := p.1) hmain

/-- mkfs succeeds if everything fits. -/
theorem mkfs_succeeds {files : List Input} (few : files.length + 2 ≤ inodeRoom)
    (fit : Fit (nmeta + 1) (2 * DIRENT) files) : ∃ m, mkfs files = .ok m := by
  obtain ⟨_, m, run, -⟩ := (main_runs few).ok fit
  exact ⟨m, by rw [mkfs, run]; rfl⟩

end Xv6.Mkfs
