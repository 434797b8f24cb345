import Xv6.Fs.Alloc
import Xv6.Fs.Alone

/-!
# Blocks of a file (`balloc`, `bfree` and `bmap`, run alone)

Every specification is in terms of the contents of the blocks, as `Xv6.Fs.Alloc` changes
them. `Room` accounts for the blocks that the transaction logs.
-/

namespace Xv6.Fs

open Interleave Log

/-! ## Room in the log -/

/-- The log takes every block of `K` and `n` others: either a full log is excused, or there
is a bound on what the transaction logs. -/
structure Room (P : Policy) (sb : Superblock) (K : Finset Nat) (n : Nat) (log : LogVar) : Prop where
  inOp : 1 ≤ log.outstanding
  area : log.start + log.size ≤ sb.inodestart
  outside : ∀ b ∈ log.lh, sb.inodestart ≤ b
  short : log.lh.length ≤ LOGSIZE ∧ log.lh.length < log.size
  room : ((∀ lh b, P.admits lh b) ∧ P.excuses "too big a transaction") ∨
    ((∀ lh b, b ∈ lh ∨ lh.length < MAXOPBLOCKS → P.admits lh b) ∧ log.lh.Nodup ∧
      (∀ b ∈ log.lh, b ∈ K) ∧ K.card + n ≤ MAXOPBLOCKS ∧ MAXOPBLOCKS + 1 < log.size)

section Room

variable {P : Policy} {sb : Superblock} {K K' : Finset Nat} {n m b : Nat} {log : LogVar}

theorem Room.takes (R : Room P sb K n log) (h : b ∈ K ∨ 0 < n) : P.Takes log b := by
  rcases R.room with ⟨all, excused⟩ | ⟨some, nodup, sub, card, size⟩
  · exact ⟨all _ b, Or.inl excused, R.inOp⟩
  · have le : log.lh.length ≤ K.card := by
      rw [← List.toFinset_card_of_nodup nodup]
      exact Finset.card_le_card fun x hx => sub x (List.mem_toFinset.mp hx)
    have lt : b ∈ log.lh ∨ log.lh.length < MAXOPBLOCKS := by
      by_cases mem : b ∈ log.lh
      · exact Or.inl mem
      refine Or.inr ?_
      rcases h with hb | pos
      · have : log.lh.length < K.card := by
          rw [← List.toFinset_card_of_nodup nodup]
          refine Finset.card_lt_card ⟨fun x hx => sub x (List.mem_toFinset.mp hx), fun all => ?_⟩
          exact mem (List.mem_toFinset.mp (all hb))
        omega
      · omega
    simp only [MAXOPBLOCKS] at card size
    exact ⟨some _ b lt, Or.inr (by simp only [LogVar.HasRoom, LOGSIZE, MAXOPBLOCKS]; omega), R.inOp⟩

/-- Blocks may be set aside before they are logged. -/
theorem Room.widen (R : Room P sb K n log) (sub : K ⊆ K') (card : K'.card + m ≤ K.card + n) :
    Room P sb K' m log := by
  refine ⟨R.inOp, R.area, R.outside, R.short, R.room.imp id ?_⟩
  rintro ⟨some, nodup, mem, room, size⟩
  exact ⟨some, nodup, fun b hb => sub (mem b hb), by omega, size⟩

theorem Room.reserve (R : Room P sb K (n + 1) log) (b : Nat) : Room P sb (insert b K) n log :=
  R.widen (Finset.subset_insert b K) (by have := Finset.card_insert_le b K; omega)

theorem Room.less (R : Room P sb K n log) (h : m ≤ n) : Room P sb K m log :=
  R.widen subset_rfl (by omega)

theorem Room.add (R : Room P sb K n log) (hb : b ∈ K) (low : sb.inodestart ≤ b)
    (fit : log.HasRoom) : Room P sb K n (log.add b) := by
  refine ⟨R.inOp, R.area, fun x hx => ?_, ?_, R.room.imp id ?_⟩
  · rcases LogVar.mem_add.mp hx with old | rfl
    · exact R.outside x old
    · exact low
  · have := R.short
    simp only [LogVar.HasRoom] at fit
    simp only [LogVar.add]
    by_cases h : b ∈ log.lh
    · rwa [if_pos h]
    · rw [if_neg h, List.length_append, List.length_singleton]
      omega
  rintro ⟨some, nodup, mem, room, size⟩
  refine ⟨some, ?_, ?_, room, size⟩
  · rw [LogVar.add]
    by_cases h : b ∈ log.lh
    · rwa [if_pos h]
    · rw [if_neg h]
      exact List.nodup_append.mpr ⟨nodup, List.nodup_singleton b, by
        rintro x hx y hy rfl
        exact h (List.mem_singleton.mp hy ▸ hx)⟩
  · intro x hx
    rcases LogVar.mem_add.mp hx with old | rfl
    · exact mem x old
    · exact hb

end Room

/-! ## The free map -/

section FreeBit

variable {size b k bi r : Nat} {d : Block}

theorem freeBit_some (h : freeBit size d b k bi = some r) :
    bi ≤ r ∧ r < bi + k ∧ b + r < size ∧ bit d r = false := by
  induction k generalizing bi with
  | zero => cases h
  | succ k ih =>
    rw [freeBit] at h
    split at h
    · split at h
      · obtain ⟨low, high, small, clear⟩ := ih h
        exact ⟨by omega, by omega, small, clear⟩
      · obtain rfl : bi = r := Option.some.inj h
        rename_i small clear
        exact ⟨le_rfl, by omega, small, by simpa using clear⟩
    · cases h

theorem freeBit_none (h : freeBit size d b k bi = none) (low : bi ≤ r) (high : r < bi + k)
    (small : b + r < size) : bit d r = true := by
  induction k generalizing bi with
  | zero => omega
  | succ k ih =>
    rw [freeBit, if_pos (by omega)] at h
    split at h
    · rename_i set
      by_cases e : r = bi
      · rwa [e]
      · exact ih h (by omega) (by omega)
    · cases h

end FreeBit

/-- The state in which `balloc` returns `b`. -/
def balloced {ι : Type} (sb : Superblock) (s : KSt ι) (b : Nat) : KSt ι :=
  (s.store (sb.bblock b) (setBit (s.cache (sb.bblock b)) (b % BPB))).store b Bytes.Buffer.zero

section Balloc

variable {ι α : Type} [DecidableEq ι] {P : Policy} {i : ι} {sb : Superblock} {s : KSt ι}
variable {Q : α → KSt ι → Prop} {K : Finset Nat} {n b : Nat}

omit [DecidableEq ι] in
@[simp] theorem balloced_cache : (balloced sb s b).cache = allocBlock sb s.cache b := rfl
omit [DecidableEq ι] in
@[simp] theorem balloced_aux : (balloced sb s b).aux = s.aux := rfl
omit [DecidableEq ι] in
@[simp] theorem balloced_hold : (balloced sb s b).hold = s.hold := rfl

theorem run_bzero {f : Unit → FsCode ι α} (calm : Calm s) (seat : P.Seat s b) (unheld : s.Unheld b)
    (takes : P.Takes s.log b)
    (rest : s.log.HasRoom → Run P i (f ()) (s.store b Bytes.Buffer.zero) Q) :
    Run P i (bzero b >>= f) s Q := by
  rw [bzero]
  simp only [Prog.bind_assoc]
  refine run_bread calm seat unheld fun h free => ?_
  exact run_setData calm free (run_log calm free takes rest)

/-- What `balloc` needs: no buffer of the free map or of a free block is held. -/
structure CanAlloc (P : Policy) (sb : Superblock) (s : KSt ι) : Prop where
  calm : Calm s
  few : s.held < NBUF
  excused : P.excuses "bget: no buffers"
  map : ∀ x, x < sb.size → s.Unheld (sb.bblock x)
  fresh : ∀ x, x < sb.size → marked sb s.cache x = false → s.Unheld x

theorem run_ballocFrom {f : Nat → FsCode ι α} (L : Layout sb) (can : CanAlloc P sb s)
    (room : Room P sb K (n + 1) s.log) (map : ∀ x, x < sb.size → sb.bblock x ∈ K)
    (base : ∀ b, b < sb.dataStart → b < sb.size → marked sb s.cache b = true)
    (enough : P.excuses "balloc: out of blocks" ∨ 0 < freeCount sb s.cache)
    (rest : ∀ b, b < sb.size → marked sb s.cache b = false → Calm (balloced sb s b) →
      Room P sb (insert b K) n (balloced sb s b).log → Run P i (f b) (balloced sb s b) Q)
    {k b : Nat} (aligned : b % BPB = 0) (rounds : sb.size ≤ b + k * BPB)
    (below : ∀ x, x < b → x < sb.size → marked sb s.cache x = true) :
    Run P i (ballocFrom sb k b >>= f) s Q := by
  have full : (∀ x, x < sb.size → marked sb s.cache x = true) → P.excuses "balloc: out of blocks" := by
    intro all
    refine enough.resolve_right fun pos => ?_
    obtain ⟨x, hx⟩ := Finset.card_pos.mp pos
    obtain ⟨hx, clear⟩ := Finset.mem_filter.mp hx
    rw [all x (Finset.mem_range.mp hx)] at clear
    cases clear
  induction k generalizing b with
  | zero => exact run_panic_bind (full fun x hx => below x (by omega) hx)
  | succ k ih =>
    rw [ballocFrom]
    by_cases hb : b < sb.size
    · rw [if_pos hb]
      simp only [Prog.bind_assoc]
      refine run_bread can.calm ⟨can.few, Or.inl can.excused⟩ (can.map b hb) fun h free => ?_
      refine run_getData can.calm free ?_
      cases found : freeBit sb.size (s.cache (sb.bblock b)) b BPB 0 with
      | some bi =>
        obtain ⟨-, hbi, small, clear⟩ := freeBit_some found
        have block : sb.bblock (b + bi) = sb.bblock b := by
          simp only [Superblock.bblock, BPB, BSIZE] at *
          omega
        have index : (b + bi) % BPB = bi := by
          simp only [BPB, BSIZE] at *
          omega
        have clear : marked sb s.cache (b + bi) = false := by rwa [marked, block, index]
        have unheld := can.fresh _ small clear
        have mem := map b hb
        simp only [Prog.bind_assoc]
        refine run_setData can.calm free ?_
        refine run_log can.calm free (room.takes (Or.inl mem)) fun fit => ?_
        have order := L.order
        have room₁ := room.add mem (by have := @le_bblock sb b; omega) fit
        refine run_bzero can.calm.store ⟨can.few, Or.inl can.excused⟩ unheld
          (room₁.takes (Or.inr (Nat.succ_pos n))) fun fit' => ?_
        have state : (s.store (sb.bblock b) (setBit (s.cache (sb.bblock b)) bi)).store (b + bi)
            Bytes.Buffer.zero = balloced sb s (b + bi) := by
          rw [balloced, block, index]
        rw [state]
        refine rest _ small clear (state ▸ can.calm.store.store) ?_
        rw [← state]
        refine (room₁.reserve (b + bi)).add (Finset.mem_insert_self _ _) ?_ fit'
        by_contra low
        have := @bmapstart_lt sb
        rw [base (b + bi) (by omega) small] at clear
        cases clear
      | none =>
        refine run_brelse can.calm free rfl ?_
        refine ih (by simp only [BPB, BSIZE] at *; omega) (by rw [Nat.succ_mul] at rounds; omega) ?_
        intro x hx hs
        by_cases low : x < b
        · exact below x low hs
        · have set := freeBit_none found (r := x - b) (Nat.zero_le _) (by omega) (by omega)
          rw [marked]
          convert set using 2
          · simp only [Superblock.bblock, BPB, BSIZE] at *
            congr 1
            omega
          · simp only [BPB, BSIZE] at *
            omega
    · rw [if_neg hb]
      exact run_panic_bind (full fun x hx => below x (by omega) hx)

theorem run_balloc {f : Nat → FsCode ι α} (L : Layout sb) (can : CanAlloc P sb s)
    (room : Room P sb K (n + 1) s.log) (map : ∀ x, x < sb.size → sb.bblock x ∈ K)
    (base : ∀ b, b < sb.dataStart → b < sb.size → marked sb s.cache b = true)
    (enough : P.excuses "balloc: out of blocks" ∨ 0 < freeCount sb s.cache)
    (rest : ∀ b, b < sb.size → marked sb s.cache b = false → Calm (balloced sb s b) →
      Room P sb (insert b K) n (balloced sb s b).log → Run P i (f b) (balloced sb s b) Q) :
    Run P i (balloc sb >>= f) s Q := by
  refine run_ballocFrom L can room map base enough rest rfl ?_ (fun x hx => absurd hx (Nat.not_lt_zero x))
  have := Nat.div_add_mod sb.size BPB
  have := Nat.mod_lt sb.size (show 0 < BPB by decide)
  rw [Nat.add_mul]
  simp only [BPB, BSIZE] at *
  omega

theorem run_bfree {f : Unit → FsCode ι α} (calm : Calm s) (seat : P.Seat s (sb.bblock b))
    (unheld : s.Unheld (sb.bblock b)) (takes : P.Takes s.log (sb.bblock b))
    (set : marked sb s.cache b = true)
    (rest : s.log.HasRoom → Run P i (f ()) (s.store (sb.bblock b)
      (clearBit (s.cache (sb.bblock b)) (b % BPB))) Q) :
    Run P i (bfree sb b >>= f) s Q := by
  rw [bfree]
  simp only [Prog.bind_assoc]
  refine run_bread calm seat unheld fun h free => ?_
  refine run_getData calm free ?_
  rw [marked] at set
  rw [if_pos set]
  simp only [Prog.bind_assoc]
  exact run_setData calm free (run_log calm free takes rest)

end Balloc

/-! ## New blocks of an inode -/

section Extends

variable {ι : Type} {sb : Superblock} {s s' : KSt ι} {ip : IPtr} {n b : Nat}
variable {dins dins' : Nat → Dinode} {sz : Nat → Nat}

/-- Inode `n` may have got new blocks, at most `k`, and nothing else has changed. -/
structure Extends (sb : Superblock) (sz : Nat → Nat) (ip : IPtr) (n k : Nat) (s : KSt ι)
    (dins : Nat → Dinode) (s' : KSt ι) (dins' : Nat → Dinode) : Prop where
  sound : Sound sb s'.cache dins' sz
  calm : Calm s'
  hold : s'.hold = s.hold
  aux : s'.aux = (putDin s ip (dins' n)).aux
  other : ∀ j, j ≠ n → dins' j = dins j
  same : dins' n = { dins n with addrs := (dins' n).addrs }
  bytes : ∀ j off, fileByte s'.cache (dins' j) off = fileByte s.cache (dins j) off
  low : ∀ x, x < sb.bmapstart → s'.cache x = s.cache x
  keep : ∀ j u, ptrs s.cache dins j u ≠ 0 → ptrs s'.cache dins' j u = ptrs s.cache dins j u
  log : s'.log = { s.log with lh := s'.log.lh }
  free : freeCount sb s.cache ≤ freeCount sb s'.cache + k

theorem Extends.refl (S : Sound sb s.cache dins sz) (calm : Calm s)
    (hdin : (s.aux.inode ip).din = dins n) : Extends sb sz ip n 0 s dins s dins where
  sound := S
  calm := calm
  hold := rfl
  aux := by rw [← hdin, putDin_self]
  other := fun _ _ => rfl
  same := rfl
  bytes := fun _ _ => rfl
  low := fun _ _ => rfl
  keep := fun _ _ _ => rfl
  log := rfl
  free := le_rfl

theorem Extends.din {k : Nat} (E : Extends sb sz ip n k s dins s' dins') :
    s'.aux.inode ip = { s.aux.inode ip with din := dins' n } := by
  rw [E.aux, putDin_inode]

theorem Extends.trans {k k' : Nat} {s'' : KSt ι} {dins'' : Nat → Dinode}
    (E : Extends sb sz ip n k s dins s' dins') (E' : Extends sb sz ip n k' s' dins' s'' dins'') :
    Extends sb sz ip n (k + k') s dins s'' dins'' where
  sound := E'.sound
  calm := E'.calm
  hold := E'.hold.trans E.hold
  aux := by
    rw [E'.aux, ← @putDin_putDin ι s ip (dins' n) (dins'' n)]
    simp only [putDin, E.aux]
  other := fun j hj => (E'.other j hj).trans (E.other j hj)
  same := by rw [E'.same, E.same]
  bytes := fun j off => (E'.bytes j off).trans (E.bytes j off)
  low := fun x hx => (E'.low x hx).trans (E.low x hx)
  keep := fun j u h => (E'.keep j u (E.keep j u h ▸ h)).trans (E.keep j u h)
  log := by rw [E'.log, E.log]
  free := by
    have := E.free
    have := E'.free
    omega

/-- One block is allocated and pointed to. -/
theorem Grown.extends {t : Nat} (G : Grown sb sz n t b s.cache dins s'.cache dins')
    (unset : ptrs s.cache dins n t = 0) (calm : Calm s') (hold : s'.hold = s.hold)
    (aux : s'.aux = (putDin s ip (dins' n)).aux) (other : ∀ j, j ≠ n → dins' j = dins j)
    (same : dins' n = { dins n with addrs := (dins' n).addrs })
    (log : s'.log = { s.log with lh := s'.log.lh }) : Extends sb sz ip n 1 s dins s' dins' where
  sound := G.sound
  calm := calm
  hold := hold
  aux := aux
  other := other
  same := same
  bytes := G.bytes
  low := G.low
  keep := by
    intro j u h
    rw [G.ptr]
    refine setPtr_of_ne ?_
    by_contra e
    obtain ⟨rfl, rfl⟩ : j = n ∧ u = t := by
      constructor
      · by_contra ne
        exact e (Or.inl ne)
      · by_contra ne
        exact e (Or.inr ne)
    exact h unset
  log := log
  free := by rw [← G.free]

end Extends

/-! ## `bmap` -/

section Bmap

variable {ι α : Type} [DecidableEq ι] {P : Policy} {i : ι} {sb : Superblock} {s : KSt ι}
variable {Q : α → KSt ι → Prop} {K : Finset Nat} {ip : IPtr} {n m bn : Nat}
variable {dins : Nat → Dinode} {sz : Nat → Nat}

theorem slotOf_indirect (h : NDIRECT ≤ bn) : slotOf bn = NDIRECT + 1 + (bn - NDIRECT) := by
  rw [slotOf, if_neg (by omega)]
  omega

theorem slotOf_direct (h : bn < NDIRECT) : slotOf bn = bn := if_pos h

/-- A block that exists is found without any change. -/
theorem run_bmap_set {f : Nat → FsCode ι α} {din : Dinode} (calm : Calm s)
    (seat : P.Seat s din.ind) (unheld : s.Unheld din.ind) (hdin : (s.aux.inode ip).din = din)
    (set : slotPtr s.cache din (slotOf bn) ≠ 0)
    (rest : Run P i (f (slotPtr s.cache din (slotOf bn))) s Q) :
    Run P i (bmap sb ip bn >>= f) s Q := by
  rw [bmap, Prog.bind_assoc]
  refine run_info calm ?_
  simp only [Inode.info, hdin]
  by_cases direct : bn < NDIRECT
  · rw [if_pos direct]
    rw [slotOf_direct direct, slotPtr_direct direct.le] at set rest
    rw [if_neg set]
    exact rest
  · rw [slotOf_indirect (by omega)] at set rest
    have small : bn - NDIRECT < NINDIRECT := by
      by_contra large
      exact set (slotPtr_of_le (by simp only [SLOTS]; omega))
    have ind : din.ind ≠ 0 := by
      intro none
      rw [slotPtr, if_neg (by omega), if_neg (by simp [none])] at set
      exact set rfl
    rw [slotPtr_entry small ind] at set rest
    rw [if_neg direct, if_pos small, indirectBlock, if_neg (by exact ind)]
    simp only [Prog.bind_assoc, Prog.pure_bind]
    refine run_bread calm seat unheld fun h free => ?_
    refine run_getData calm free ?_
    rw [if_neg (by exact set)]
    simp only [Prog.bind_assoc, Prog.pure_bind]
    exact run_brelse calm free rfl rest

/-- What the functions that write rely on throughout. -/
structure Writer (P : Policy) (sb : Superblock) (K : Finset Nat) : Prop where
  layout : Layout sb
  bget : P.excuses "bget: no buffers"
  map : ∀ x, x < sb.size → sb.bblock x ∈ K

omit [DecidableEq ι] in
theorem canAlloc_of_idle (calm : Calm s) (idle : Idle s)
    (excused : P.excuses "bget: no buffers") : CanAlloc P sb s := by
  refine ⟨calm, ?_, excused, fun x _ => idle.unheld _, fun x _ _ => idle.unheld x⟩
  rw [idle.held]
  decide

omit [DecidableEq ι] in
/-- `balloc` may be called with the buffer of an indirect block held. -/
theorem CanAlloc.edit (can : CanAlloc P sb s) (few : s.held + 1 < NBUF) {h : Handle}
    (free : s.hold h = none) (use : InUse sb s.cache bn) :
    CanAlloc P sb (s.edit i h bn (s.cache bn)) where
  calm := can.calm.edit free
  few := by rwa [held_edit free]
  excused := can.excused
  map := by
    intro x hx
    refine (can.map x hx).edit ?_
    have := bblock_lt hx
    have := use.low
    omega
  fresh := by
    intro x hx clear
    rw [edit_cache, Function.update_eq_self] at clear
    refine (can.fresh x hx clear).edit ?_
    rintro rfl
    exact not_inUse clear use

/-- Logging the indirect block costs nothing once it is among the blocks provided for. -/
def indCost (K : Finset Nat) (din : Dinode) : Nat := if din.ind ≠ 0 ∧ din.ind ∈ K then 0 else 1

theorem indCost_mono {K' : Finset Nat} {din din' : Dinode} (sub : K ⊆ K') (same : din'.ind = din.ind) :
    indCost K' din' ≤ indCost K din := by
  rw [indCost, indCost, same]
  by_cases h : din.ind ≠ 0 ∧ din.ind ∈ K
  · rw [if_pos h, if_pos ⟨h.1, sub h.2⟩]
  · rw [if_neg h]
    split <;> omega

theorem Room.withInd {din : Dinode} {log : LogVar} (R : Room P sb K (m + indCost K din) log) :
    Room P sb (insert din.ind K) m log := by
  by_cases mem : din.ind ∈ K
  · rw [Finset.insert_eq_self.mpr mem]
    exact R.less (Nat.le_add_right _ _)
  · rw [indCost, if_neg (by simp [mem])] at R
    exact R.reserve din.ind

theorem Writer.mono {K' : Finset Nat} (W : Writer P sb K) (sub : K ⊆ K') : Writer P sb K' :=
  ⟨W.layout, W.bget, fun x hx => sub (W.map x hx)⟩

theorem indCost_zero {din : Dinode} (ind : din.ind ≠ 0) (mem : din.ind ∈ K) : indCost K din = 0 :=
  if_pos ⟨ind, mem⟩

/-- The end of `bmap` for a missing entry of the indirect block. -/
theorem run_bmap_entry {f : Nat → FsCode ι α} (W : Writer P sb K) (S : Sound sb s.cache dins sz)
    (calm : Calm s) (idle : Idle s) (hdin : (s.aux.inode ip).din = dins n)
    (ind : (dins n).ind ≠ 0) (mem : (dins n).ind ∈ K) {k : Nat} (hk : k < NINDIRECT)
    (unset : (s.cache (dins n).ind).num 4 (4 * k) = 0) (room : Room P sb K (m + 1) s.log)
    (enough : P.excuses "balloc: out of blocks" ∨ 0 < freeCount sb s.cache)
    (rest : ∀ s' b, Extends sb sz ip n 1 s dins s' dins →
      ptrs s'.cache dins n (NDIRECT + 1 + k) = b → b ≠ 0 →
      Room P sb (insert b K) m s'.log → Run P i (f b) s' Q) :
    Run P i (bread (dins n).ind >>= fun bp => getData bp >>= fun a =>
      (if a.num 4 (4 * k) = 0 then do
        let addr ← balloc sb
        setData bp (a.putNum 4 (4 * k) addr)
        logWrite bp
        brelse bp
        return addr
      else do
        brelse bp
        return a.num 4 (4 * k)) >>= f) s Q := by
  have can : CanAlloc P sb s := canAlloc_of_idle calm idle W.bget
  have indPtr : ptrs s.cache dins n NDIRECT = (dins n).ind := slotPtr_ind
  have use : InUse sb s.cache (dins n).ind := indPtr ▸ S.owned.used (indPtr ▸ ind)
  refine run_bread calm ⟨can.few, Or.inl W.bget⟩ (idle.unheld _) fun h free => ?_
  refine run_getData calm free ?_
  rw [if_pos unset]
  simp only [Prog.bind_assoc, Prog.pure_bind]
  have few : s.held + 1 < NBUF := by
    rw [idle.held]
    decide
  refine run_balloc W.layout (can.edit few free use) room W.map ?_ ?_ ?_
  · rw [edit_cache, Function.update_eq_self]
    exact S.base
  · rwa [edit_cache, Function.update_eq_self]
  · intro b hb clear calm' room'
    rw [edit_cache, Function.update_eq_self] at clear
    have low := S.free_low hb clear
    have apart : b ≠ (dins n).ind := by
      rintro rfl
      exact not_inUse clear use
    have apart' : sb.bblock b ≠ (dins n).ind := by
      have := bblock_lt hb
      have := use.low
      omega
    have state : balloced sb (s.edit i h (dins n).ind (s.cache (dins n).ind)) b =
        (balloced sb s b).edit i h (dins n).ind (s.cache (dins n).ind) := by
      rw [balloced, edit_cache, Function.update_eq_self, edit_store apart', edit_store apart]
      rfl
    rw [state] at room' ⊢
    have calm₁ : Calm (balloced sb s b) := calm.store.store
    refine run_setData calm₁ free ?_
    have mem' := Finset.mem_insert_of_mem (a := (dins n).ind) (b := b) mem
    refine run_log calm₁ free (room'.takes (Or.inl mem')) fun fit => ?_
    have G := S.setEntry W.layout hb clear hk ind unset
    have slot : ptrs s.cache dins n (NDIRECT + 1 + k) = 0 := by rwa [ptrs, slotPtr_entry hk ind]
    refine rest _ b (G.extends slot calm₁.store rfl ?_ (fun _ _ => rfl) rfl rfl) ?_ ?_ ?_
    · rw [← hdin, putDin_self]
      rfl
    · exact (congrFun (congrFun G.ptr n) _).trans setPtr_same
    · have := @bmapstart_lt sb
      omega
    · refine room'.add mem' ?_ fit
      have := use.low
      have := @bmapstart_lt sb
      have := W.layout.order
      omega

/-- How many blocks `bmap` allocates. -/
def bmapNeed (c : Nat → Block) (din : Dinode) (bn : Nat) : Nat :=
  (if slotPtr c din (slotOf bn) = 0 then 1 else 0) +
    if NDIRECT ≤ bn ∧ din.ind = 0 then 1 else 0

theorem run_bmap_alloc {f : Nat → FsCode ι α} (W : Writer P sb K) (S : Sound sb s.cache dins sz)
    (calm : Calm s) (idle : Idle s) (hdin : (s.aux.inode ip).din = dins n) (hbn : bn < MAXFILE)
    (unset : ptrs s.cache dins n (slotOf bn) = 0)
    (room : Room P sb K (m + 1 + indCost K (dins n)) s.log)
    (enough : P.excuses "balloc: out of blocks" ∨
      bmapNeed s.cache (dins n) bn ≤ freeCount sb s.cache)
    (rest : ∀ s' dins' b K', Extends sb sz ip n (bmapNeed s.cache (dins n) bn) s dins s' dins' →
      ptrs s'.cache dins' n (slotOf bn) = b → b ≠ 0 → K ⊆ K' → b ∈ K' →
      Room P sb K' (m + indCost K' (dins' n)) s'.log → Run P i (f b) s' Q) :
    Run P i (bmap sb ip bn >>= f) s Q := by
  have can : CanAlloc P sb s := canAlloc_of_idle calm idle W.bget
  rw [bmap, Prog.bind_assoc]
  refine run_info calm ?_
  simp only [Inode.info, hdin]
  by_cases direct : bn < NDIRECT
  · have need : bmapNeed s.cache (dins n) bn = 1 := by
      have : slotPtr s.cache (dins n) (slotOf bn) = 0 := unset
      rw [bmapNeed, if_pos this, if_neg (by omega)]
    rw [need] at enough rest
    rw [slotOf_direct direct] at unset rest
    have clear : (dins n).addrs.getD bn 0 = 0 := by rwa [ptrs, slotPtr_direct direct.le] at unset
    rw [if_pos direct, if_pos clear]
    simp only [Prog.bind_assoc, Prog.pure_bind]
    have room : Room P sb K (m + indCost K (dins n) + 1) s.log := room.less (by omega)
    refine run_balloc W.layout can room W.map S.base enough fun b hb free calm' room' => ?_
    refine run_setDin calm' ?_
    have G := S.setAddr W.layout hb free direct.le clear
    have same : (Function.update dins n { dins n with addrs := (dins n).addrs.set bn b }) n =
        { dins n with addrs := (dins n).addrs.set bn b } := Function.update_self ..
    refine rest _ _ b (insert b K) (G.extends unset calm'.putDin rfl ?_ ?_ ?_ rfl) ?_ ?_
      (Finset.subset_insert b K) (Finset.mem_insert_self b K) (room'.less ?_)
    · rw [same]
      rfl
    · exact fun j hj => Function.update_of_ne hj _ _
    · rw [same]
    · exact (congrFun (congrFun G.ptr n) _).trans setPtr_same
    · have := S.free_low hb free
      have := @bmapstart_lt sb
      omega
    · refine Nat.add_le_add_left (indCost_mono (Finset.subset_insert b K) ?_) m
      rw [same]
      simp [Dinode.ind, List.getElem?_set_ne (Nat.ne_of_lt direct)]
  · have small : bn - NDIRECT < NINDIRECT := by
      simp only [MAXFILE] at hbn
      omega
    have indirect := slotOf_indirect (Nat.le_of_not_lt direct)
    rw [if_neg direct, if_pos small, indirectBlock]
    by_cases ind : (dins n).ind = 0
    · -- the indirect block is allocated first
      have need : bmapNeed s.cache (dins n) bn = 1 + 1 := by
        have : slotPtr s.cache (dins n) (slotOf bn) = 0 := unset
        rw [bmapNeed, if_pos this, if_pos ⟨by omega, ind⟩]
      rw [need] at enough rest
      rw [if_pos (by exact ind)]
      simp only [Prog.bind_assoc, Prog.pure_bind]
      have room : Room P sb K (m + 1 + 1) s.log := by
        rwa [indCost, if_neg (by simp [ind])] at room
      have none : ptrs s.cache dins n NDIRECT = 0 := by rwa [ptrs, slotPtr_ind]
      refine run_balloc W.layout can room W.map S.base (enough.imp id (by omega)) fun b hb free calm' room' => ?_
      refine run_setDin calm' ?_
      have G := S.setAddr W.layout hb free (Nat.le_refl NDIRECT) (by exact ind)
      have same : (Function.update dins n { dins n with addrs := (dins n).addrs.set NDIRECT b }) n =
          { dins n with addrs := (dins n).addrs.set NDIRECT b } := Function.update_self ..
      have indB : ((Function.update dins n
          { dins n with addrs := (dins n).addrs.set NDIRECT b }) n).ind = b := by
        rw [same]
        simp [Dinode.ind, (S.fits n).length]
      have nonzero : b ≠ 0 := by
        have := S.free_low hb free
        have := @bmapstart_lt sb
        omega
      have calm₂ : Calm (putDin (balloced sb s b) ip
          { dins n with addrs := (dins n).addrs.set NDIRECT b }) := calm'.putDin
      have E := G.extends none calm₂ rfl
        (by rw [same]; rfl) (fun j hj => Function.update_of_ne hj _ _) (by rw [same]) rfl
      have entry := @run_bmap_entry ι α _ P i sb _ Q (insert b K) ip n m _ sz f
        (W.mono (Finset.subset_insert b K)) E.sound calm'.putDin idle
        (by rw [E.din]) (by rw [indB]; exact nonzero)
        (by rw [indB]; exact Finset.mem_insert_self b K) _ small
        (by rw [indB]; exact (congrArg (fun d => Bytes.Buffer.num d 4 _) allocBlock_self).trans
              (Bytes.Buffer.num_zero 4 _))
        room' (enough.imp id fun two => by have := E.free; omega)
      rw [indB] at entry
      refine entry fun s' x E' ptr set room'' => ?_
      refine rest s' _ x _ (E.trans E') (by rw [indirect]; exact ptr) set
        ((Finset.subset_insert b K).trans (Finset.subset_insert x _)) (Finset.mem_insert_self x _) ?_
      rw [indCost_zero (by rw [indB]; exact nonzero)
        (by rw [indB]; exact Finset.mem_insert_of_mem (Finset.mem_insert_self b K))]
      exact room''
    · have need : bmapNeed s.cache (dins n) bn = 1 := by
        have : slotPtr s.cache (dins n) (slotOf bn) = 0 := unset
        rw [bmapNeed, if_pos this, if_neg (by simp [ind])]
      rw [need] at enough rest
      rw [if_neg (by exact ind)]
      simp only [Prog.bind_assoc, Prog.pure_bind]
      have clear : (s.cache (dins n).ind).num 4 (4 * (bn - NDIRECT)) = 0 := by
        rwa [indirect, ptrs, slotPtr_entry small ind] at unset
      have mem := Finset.mem_insert_self (dins n).ind K
      refine run_bmap_entry (W.mono (Finset.subset_insert _ K)) S calm idle hdin ind mem small clear
        room.withInd enough fun s' x E ptr set room' => ?_
      refine rest s' dins x (insert x (insert (dins n).ind K)) E (by rw [indirect]; exact ptr) set
        ((Finset.subset_insert _ K).trans (Finset.subset_insert x _)) (Finset.mem_insert_self x _) ?_
      rw [indCost_zero ind (Finset.mem_insert_of_mem mem)]
      exact room'

theorem bmapNeed_set {c : Nat → Block} {din : Dinode} (set : slotPtr c din (slotOf bn) ≠ 0) :
    bmapNeed c din bn = 0 := by
  rw [bmapNeed, if_neg set, if_neg]
  rintro ⟨indirect, none⟩
  rw [slotPtr, if_neg (by rw [slotOf_indirect indirect]; omega), if_neg (by simp [none])] at set
  exact set rfl

theorem run_bmap {f : Nat → FsCode ι α} (W : Writer P sb K) (S : Sound sb s.cache dins sz)
    (calm : Calm s) (idle : Idle s) (hdin : (s.aux.inode ip).din = dins n) (hbn : bn < MAXFILE)
    (room : Room P sb K (m + 1 + indCost K (dins n)) s.log)
    (enough : P.excuses "balloc: out of blocks" ∨
      bmapNeed s.cache (dins n) bn ≤ freeCount sb s.cache)
    (rest : ∀ s' dins' b K', Extends sb sz ip n (bmapNeed s.cache (dins n) bn) s dins s' dins' →
      ptrs s'.cache dins' n (slotOf bn) = b → b ≠ 0 → K ⊆ K' → b ∈ K' →
      Room P sb K' (m + indCost K' (dins' n)) s'.log → Run P i (f b) s' Q) :
    Run P i (bmap sb ip bn >>= f) s Q := by
  by_cases set : slotPtr s.cache (dins n) (slotOf bn) = 0
  · exact run_bmap_alloc W S calm idle hdin hbn set room enough rest
  · have can : CanAlloc P sb s := canAlloc_of_idle calm idle W.bget
    refine run_bmap_set calm ⟨can.few, Or.inl W.bget⟩ (idle.unheld _) hdin set ?_
    rw [bmapNeed_set set] at rest
    refine rest s dins _ (insert _ K) (Extends.refl S calm hdin) rfl set (Finset.subset_insert _ K)
      (Finset.mem_insert_self _ K) ?_
    have room : Room P sb K (m + indCost K (dins n) + 1) s.log := room.less (by omega)
    exact (room.reserve _).less (Nat.add_le_add_left (indCost_mono (Finset.subset_insert _ K) rfl) m)

end Bmap

end Xv6.Fs
