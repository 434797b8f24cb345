import Xv6.Fs.Writei

/-!
# Truncating a file (`itrunc`, run alone)

`itrunc` gives back the blocks of an inode one by one. The pointers themselves lag behind:
the entries of the indirect block are never cleared. So the loops are verified against a
record of the pointers that are still to be given back.
-/

namespace Xv6.Fs

open Interleave Log

/-- The number of blocks of an inode. -/
def blockCount (R : Nat → Nat → Nat) (n : Nat) : Nat :=
  ((Finset.range SLOTS).filter fun t => R n t ≠ 0).card

section Count

variable {R : Nat → Nat → Nat} {n t : Nat}

theorem blockCount_release (ht : t < SLOTS) (set : R n t ≠ 0) :
    blockCount (setPtr R n t 0) n + 1 = blockCount R n := by
  have mem : t ∈ (Finset.range SLOTS).filter fun u => R n u ≠ 0 :=
    Finset.mem_filter.mpr ⟨Finset.mem_range.mpr ht, set⟩
  have erase : ((Finset.range SLOTS).filter fun u => setPtr R n t 0 n u ≠ 0) =
      ((Finset.range SLOTS).filter fun u => R n u ≠ 0).erase t := by
    ext u
    rw [Finset.mem_erase, Finset.mem_filter, Finset.mem_filter, setPtr_apply]
    by_cases e : u = t
    · simp [e]
    · simp [e]
  rw [blockCount, erase]
  exact Finset.card_erase_add_one mem

theorem blockCount_zero (none : ∀ u, R n u = 0) : blockCount R n = 0 := by
  simp [blockCount, none]

theorem ptr_lt {c : Nat → Block} {dins : Nat → Dinode} (set : ptrs c dins n t ≠ 0) : t < SLOTS := by
  by_contra large
  exact set (slotPtr_of_le (Nat.le_of_not_lt large))

/-- An inode has the blocks that its size asks for. -/
theorem Sound.slotsFor_le {sb : Superblock} {c : Nat → Block} {dins : Nat → Dinode} {sz : Nat → Nat}
    (S : Sound sb c dins sz) (n : Nat) : slotsFor (sz n) ≤ blockCount (ptrs c dins) n := by
  by_cases empty : sz n = 0
  · rw [empty, slotsFor_zero]
    exact Nat.zero_le _
  have sub : Finset.range (slotsFor (sz n)) ⊆
      (Finset.range SLOTS).filter fun t => ptrs c dins n t ≠ 0 := by
    intro t ht
    have set : ptrs c dins n t ≠ 0 := by
      rw [Finset.mem_range, slotsFor, if_neg empty] at ht
      have block : ∀ bn, bn ≤ (sz n - 1) / BSIZE → ptrs c dins n (slotOf bn) ≠ 0 := by
        intro bn hbn
        refine S.noHole n bn ?_
        simp only [BSIZE] at *
        omega
      by_cases ind : t = NDIRECT
      · -- an entry of the indirect block is set, so there is one
        intro none
        rw [ind, ptrs, slotPtr_ind] at none
        have last := block _ le_rfl
        have indirect : NDIRECT ≤ (sz n - 1) / BSIZE := by
          by_contra direct
          rw [slotOf_direct (Nat.lt_of_not_le direct)] at ht
          omega
        rw [slotOf_indirect indirect, ptrs, slotPtr, if_neg (by omega), if_neg (by simp [none])] at last
        exact last rfl
      · have : t = slotOf (if t < NDIRECT then t else t - 1) := by
          simp only [slotOf, NDIRECT] at *
          split_ifs <;> omega
        rw [this]
        refine block _ ?_
        simp only [slotOf, NDIRECT] at *
        split_ifs at * <;> omega
    exact Finset.mem_filter.mpr ⟨Finset.mem_range.mpr (ptr_lt set), set⟩
  have := Finset.card_le_card sub
  rwa [Finset.card_range] at this

end Count

/-- Blocks of inode `n` are being given back; `R` are the pointers that are left, `din` is
the inode in memory. -/
structure Freeing {ι : Type} (sb : Superblock) (ip : IPtr) (n : Nat) (s₀ : KSt ι)
    (dins : Nat → Dinode) (R : Nat → Nat → Nat) (din : Dinode) (s : KSt ι) : Prop where
  mapped : Mapped sb s.cache R
  calm : Calm s
  hold : s.hold = s₀.hold
  aux : s.aux = (putDin s₀ ip din).aux
  cache : ∀ x, x < sb.bmapstart ∨ sb.dataStart ≤ x → s.cache x = s₀.cache x
  same : din = { dins n with addrs := din.addrs }
  length : din.addrs.length = NDIRECT + 1
  count : freeCount sb s.cache + blockCount R n =
    freeCount sb s₀.cache + blockCount (ptrs s₀.cache dins) n
  other : ∀ j, j ≠ n → R j = ptrs s₀.cache dins j
  left : ∀ t, R n t ≠ 0 → R n t = ptrs s₀.cache dins n t
  log : s.log = { s₀.log with lh := s.log.lh }

section Freeing

variable {ι : Type} {sb : Superblock} {ip : IPtr} {n t : Nat} {s₀ s : KSt ι}
variable {dins : Nat → Dinode} {R : Nat → Nat → Nat} {din : Dinode}

theorem Freeing.start {sz : Nat → Nat} (S : Sound sb s.cache dins sz) (calm : Calm s)
    (hdin : (s.aux.inode ip).din = dins n) :
    Freeing sb ip n s dins (ptrs s.cache dins) (dins n) s where
  mapped := ⟨S.owned, S.base⟩
  calm := calm
  hold := rfl
  aux := by rw [← hdin, putDin_self]
  cache := fun _ _ => rfl
  same := rfl
  length := (S.fits n).length
  count := rfl
  other := fun _ _ => rfl
  left := fun _ _ => rfl
  log := rfl

/-- One block is given back. -/
theorem Freeing.release (F : Freeing sb ip n s₀ dins R din s) (set : R n t ≠ 0) :
    Freeing sb ip n s₀ dins (setPtr R n t 0) din
      (s.store (sb.bblock (R n t)) (clearBit (s.cache (sb.bblock (R n t))) (R n t % BPB))) := by
  have use := F.mapped.owned.used set
  have was : ptrs s₀.cache dins n t ≠ 0 := F.left t set ▸ set
  have ht : t < SLOTS := ptr_lt was
  constructor
  · exact F.mapped.release set
  · exact F.calm.store
  · exact F.hold
  · exact F.aux
  · intro x hx
    have := bblock_lt use.high
    have := @le_bblock sb (R n t)
    rw [store_cache, Function.update_of_ne (by omega)]
    exact F.cache x hx
  · exact F.same
  · exact F.length
  · have released := blockCount_release ht set
    have freed : freeCount sb (s.store (sb.bblock (R n t))
        (clearBit (s.cache (sb.bblock (R n t))) (R n t % BPB))).cache = freeCount sb s.cache + 1 :=
      freeCount_freeBlock use.high use.mark
    have := F.count
    omega
  · intro j hj
    rw [← F.other j hj, setPtr, Function.update_of_ne hj]
  · intro u hu
    rw [setPtr_apply] at hu ⊢
    by_cases e : n = n ∧ u = t
    · rw [if_pos e] at hu
      exact absurd rfl hu
    · rw [if_neg e] at hu ⊢
      exact F.left u hu
  · rw [store_log, F.log]
    rfl

theorem Freeing.setAddr (F : Freeing sb ip n s₀ dins R din s) (k b : Nat) :
    Freeing sb ip n s₀ dins R { din with addrs := din.addrs.set k b }
      (putDin s ip { din with addrs := din.addrs.set k b }) := by
  refine ⟨F.mapped, F.calm.putDin, F.hold, ?_, F.cache, ?_, ?_, F.count, F.other, F.left, F.log⟩
  · rw [← @putDin_putDin ι s₀ ip din]
    simp only [putDin, F.aux]
  · rw [F.same]
  · rw [List.length_set]
    exact F.length

theorem Freeing.inode_eq (F : Freeing sb ip n s₀ dins R din s) :
    s.aux.inode ip = { s₀.aux.inode ip with din := din } := by
  rw [F.aux, putDin_inode]

end Freeing

section Loops

variable {ι α : Type} [DecidableEq ι] {P : Policy} {i : ι} {sb : Superblock} {s₀ s : KSt ι}
variable {Q : α → KSt ι → Prop} {K : Finset Nat} {ip : IPtr} {n m : Nat}
variable {dins : Nat → Dinode} {R : Nat → Nat → Nat} {din : Dinode}

/-- `bfree` of a block that is still pointed to. -/
theorem run_release {f : Unit → FsCode ι α} {t : Nat} (W : Writer P sb K) (idle : Idle s₀)
    (F : Freeing sb ip n s₀ dins R din s) (set : R n t ≠ 0) (room : Room P sb K m s.log)
    (rest : ∀ s', Freeing sb ip n s₀ dins (setPtr R n t 0) din s' → Room P sb K m s'.log →
      Run P i (f ()) s' Q) :
    Run P i (bfree sb (R n t) >>= f) s Q := by
  have use := F.mapped.owned.used set
  have idle' : Idle s := by
    intro h
    rw [F.hold]
    exact idle h
  have can : CanAlloc P sb s := canAlloc_of_idle F.calm idle' W.bget
  have mem := W.map _ use.high
  refine run_bfree F.calm ⟨can.few, Or.inl W.bget⟩ (idle'.unheld _) (room.takes (Or.inl mem)) use.mark
    fun fit => rest _ (F.release set) (room.add mem ?_ fit)
  exact W.layout.order.trans le_bblock

/-- The same while the buffer of the indirect block is held. -/
theorem run_release_held {f : Unit → FsCode ι α} {t x : Nat} {h : Handle} {d : Block}
    (W : Writer P sb K) (idle : Idle s₀) (F : Freeing sb ip n s₀ dins R din s) (set : R n t ≠ 0)
    (data : sb.dataStart ≤ x) (room : Room P sb K m s.log)
    (rest : ∀ s', Freeing sb ip n s₀ dins (setPtr R n t 0) din s' → Room P sb K m s'.log →
      Run P i (f ()) (s'.edit i h x d) Q) :
    Run P i (bfree sb (R n t) >>= f) (s.edit i h x d) Q := by
  have use := F.mapped.owned.used set
  have idle' : Idle s := by
    intro h
    rw [F.hold]
    exact idle h
  have apart : sb.bblock (R n t) ≠ x := by
    have := bblock_lt use.high
    omega
  have map : (s.edit i h x d).cache (sb.bblock (R n t)) = s.cache (sb.bblock (R n t)) := by
    rw [edit_cache, Function.update_of_ne apart]
  have mem := W.map _ use.high
  have few : (s.edit i h x d).held < NBUF := by
    rw [held_edit (idle' h), idle'.held]
    decide
  refine run_bfree (F.calm.edit (idle' h)) ⟨few, Or.inl W.bget⟩ ((idle'.unheld _).edit apart)
    (room.takes (Or.inl mem)) ?_ ?_
  · rw [marked, map]
    exact use.mark
  · intro fit
    rw [map, edit_store apart]
    exact rest _ (F.release set) (room.add mem (W.layout.order.trans le_bblock) fit)

/-- The pointers of the inode in memory agree with the record from entry `k` on; those
before have been given back. -/
structure Upto (R : Nat → Nat → Nat) (n : Nat) (din : Dinode) (k : Nat) : Prop where
  done : ∀ t, t < k → R n t = 0 ∧ din.addrs.getD t 0 = 0
  rest : ∀ t, k ≤ t → t ≤ NDIRECT → din.addrs.getD t 0 = R n t

theorem getD_set {l : List Nat} {k b t : Nat} (hk : k < l.length) :
    (l.set k b).getD t 0 = if t = k then b else l.getD t 0 := by
  by_cases e : t = k
  · simp [e, hk]
  · simp [e, List.getElem?_set_ne (Ne.symm e)]

theorem Upto.next {k : Nat} (U : Upto R n din k) (hk : k ≤ NDIRECT)
    (length : din.addrs.length = NDIRECT + 1) :
    Upto (setPtr R n k 0) n { din with addrs := din.addrs.set k 0 } (k + 1) := by
  constructor
  · intro t ht
    by_cases e : t = k
    · subst e
      exact ⟨setPtr_same, by rw [getD_set (by omega), if_pos rfl]⟩
    · rw [setPtr_of_ne (Or.inr e), getD_set (by omega), if_neg e]
      exact U.done t (by omega)
  · intro t low high
    rw [setPtr_of_ne (Or.inr (by omega)), getD_set (by omega), if_neg (by omega)]
    exact U.rest t (by omega) high

theorem Upto.skip {k : Nat} (U : Upto R n din k) (hk : k ≤ NDIRECT) (none : din.addrs.getD k 0 = 0) :
    Upto R n din (k + 1) := by
  constructor
  · intro t ht
    by_cases e : t = k
    · subst e
      exact ⟨(U.rest t le_rfl hk).symm.trans none, none⟩
    · exact U.done t (by omega)
  · exact fun t low high => U.rest t (by omega) high

theorem run_itruncDirect {f : Unit → FsCode ι α} (W : Writer P sb K) (idle : Idle s₀) {k j : Nat}
    (hk : k + j = NDIRECT) (F : Freeing sb ip n s₀ dins R din s) (U : Upto R n din j)
    (high : ∀ t, NDIRECT ≤ t → R n t = ptrs s₀.cache dins n t) (room : Room P sb K m s.log)
    (rest : ∀ s' R' din', Freeing sb ip n s₀ dins R' din' s' → Upto R' n din' NDIRECT →
      (∀ t, NDIRECT ≤ t → R' n t = ptrs s₀.cache dins n t) → Room P sb K m s'.log →
      Run P i (f ()) s' Q) :
    Run P i (itruncDirect sb ip k j >>= f) s Q := by
  induction k generalizing s R din j with
  | zero =>
    obtain rfl : j = NDIRECT := by omega
    exact rest s R din F U high room
  | succ k ih =>
    rw [itruncDirect, Prog.bind_assoc]
    refine run_info F.calm ?_
    simp only [Inode.info, F.inode_eq]
    by_cases none : din.addrs.getD j 0 = 0
    · rw [if_pos none]
      exact ih (by omega) F (U.skip (by omega) none) high room
    · rw [if_neg none]
      simp only [Prog.bind_assoc]
      have ptr := U.rest j le_rfl (by omega)
      rw [ptr] at none ⊢
      refine run_release W idle F none room fun s₁ F₁ room₁ => ?_
      refine run_setDin F₁.calm ?_
      refine ih (by omega) (F₁.setAddr j 0) (U.next (by omega) F.length) ?_ room₁
      intro t ht
      rw [setPtr_of_ne (Or.inr (by omega))]
      exact high t ht

theorem run_itruncIndirect {f : Unit → FsCode ι α} {x : Nat} {h : Handle} {d a : Block}
    (W : Writer P sb K) (idle : Idle s₀) (data : sb.dataStart ≤ x) {k j : Nat}
    (hk : k + j = NINDIRECT) (F : Freeing sb ip n s₀ dins R din s)
    (done : ∀ u, u < j → R n (NDIRECT + 1 + u) = 0)
    (left : ∀ u, j ≤ u → u < NINDIRECT → a.num 4 (4 * u) = R n (NDIRECT + 1 + u))
    (room : Room P sb K m s.log)
    (rest : ∀ s' R', Freeing sb ip n s₀ dins R' din s' →
      (∀ u, u < NINDIRECT → R' n (NDIRECT + 1 + u) = 0) → (∀ t, t ≤ NDIRECT → R' n t = R n t) →
      Room P sb K m s'.log → Run P i (f ()) (s'.edit i h x d) Q) :
    Run P i (itruncIndirect sb a k j >>= f) (s.edit i h x d) Q := by
  induction k generalizing s R j with
  | zero => exact rest s R F (fun u hu => done u (by omega)) (fun _ _ => rfl) room
  | succ k ih =>
    rw [itruncIndirect]
    have entry := left j le_rfl (by omega)
    by_cases none : a.num 4 (4 * j) = 0
    · rw [if_pos none]
      refine ih (by omega) F (fun u hu => ?_) (fun u low high => left u (by omega) high) room rest
      by_cases e : u = j
      · rw [e, ← entry, none]
      · exact done u (by omega)
    · rw [if_neg none]
      simp only [Prog.bind_assoc]
      rw [entry] at none ⊢
      refine run_release_held W idle F none data room fun s₁ F₁ room₁ => ?_
      have keep : ∀ {t}, t ≠ NDIRECT + 1 + j → setPtr R n (NDIRECT + 1 + j) 0 n t = R n t :=
        fun ht => setPtr_of_ne (Or.inr ht)
      refine ih (by omega) F₁ (fun u hu => ?_) (fun u low high => ?_) room₁
        fun s₂ R₂ F₂ gone same room₂ => rest s₂ R₂ F₂ gone (fun t ht => ?_) room₂
      · by_cases e : u = j
        · rw [e, setPtr_same]
        · rw [keep (by omega)]
          exact done u (by omega)
      · rw [keep (by omega)]
        exact left u (by omega) high
      · rw [same t ht, keep (by omega)]

/-- The middle of `itrunc`: the indirect block and what it points to are given back. -/
theorem run_itruncBlock {f : Unit → FsCode ι α} (W : Writer P sb K) (idle : Idle s₀)
    (F : Freeing sb ip n s₀ dins R din s) (U : Upto R n din NDIRECT)
    (high : ∀ t, NDIRECT ≤ t → R n t = ptrs s₀.cache dins n t) (room : Room P sb K m s.log)
    (rest : ∀ s' R' din', Freeing sb ip n s₀ dins R' din' s' → Upto R' n din' (NDIRECT + 1) →
      (∀ t, R' n t = 0) → Room P sb K m s'.log → Run P i (f ()) s' Q) :
    Run P i (info ip >>= fun x => onlyIf (x.din.addrs.getD NDIRECT 0 ≠ 0) (do
        let bp ← bread (x.din.addrs.getD NDIRECT 0)
        let a ← getData bp
        itruncIndirect sb a NINDIRECT 0
        brelse bp
        bfree sb (x.din.addrs.getD NDIRECT 0)
        setDin ip { x.din with addrs := x.din.addrs.set NDIRECT 0 }) >>= f) s Q := by
  refine run_info F.calm ?_
  simp only [Inode.info, F.inode_eq, onlyIf]
  have ptr := U.rest NDIRECT le_rfl le_rfl
  have mine : (dins n).ind = R n NDIRECT := slotPtr_ind.symm.trans (high NDIRECT le_rfl).symm
  by_cases none : din.addrs.getD NDIRECT 0 = 0
  · rw [if_neg (by simp only [ne_eq, none, not_true, not_false_iff])]
    refine rest s R din F (U.skip le_rfl none) (fun t => ?_) room
    by_cases low : t ≤ NDIRECT
    · by_cases e : t = NDIRECT
      · rw [e, ← ptr, none]
      · exact (U.done t (by omega)).1
    · have zero : (dins n).ind = 0 := by rw [mine, ← ptr, none]
      rw [high t (by omega), ptrs, slotPtr, if_neg low, if_neg (by simp [zero])]
  · rw [if_pos none]
    simp only [Prog.bind_assoc]
    rw [ptr] at none ⊢
    have use := F.mapped.owned.used none
    have idle' : Idle s := fun h => by
      rw [F.hold]
      exact idle h
    have can : CanAlloc P sb s := canAlloc_of_idle F.calm idle' W.bget
    refine run_bread F.calm ⟨can.few, Or.inl W.bget⟩ (idle'.unheld _) fun h free => ?_
    refine run_getData F.calm free ?_
    have entries : ∀ u, 0 ≤ u → u < NINDIRECT →
        (s.cache (R n NDIRECT)).num 4 (4 * u) = R n (NDIRECT + 1 + u) := by
      intro u _ hu
      rw [high (NDIRECT + 1 + u) (by omega), ptrs, slotPtr_entry hu (mine ▸ none), mine,
        F.cache _ (Or.inr use.low)]
    refine run_itruncIndirect W idle use.low rfl F (fun u hu => absurd hu (Nat.not_lt_zero u)) entries
      room fun s₁ R₁ F₁ gone same room₁ => ?_
    have contents : s.cache (R n NDIRECT) = s₁.cache (R n NDIRECT) := by
      rw [F.cache _ (Or.inr use.low), F₁.cache _ (Or.inr use.low)]
    refine run_brelse F₁.calm ?_ contents ?_
    · rw [F₁.hold]
      exact idle h
    rw [← same NDIRECT le_rfl] at none ⊢
    refine run_release W idle F₁ none room₁ fun s₂ F₂ room₂ => ?_
    refine run_setDin F₂.calm ?_
    have U₁ : Upto R₁ n din NDIRECT :=
      ⟨fun t ht => by rw [same t (by omega)]; exact U.done t ht,
        fun t low high => by rw [same t high]; exact U.rest t low high⟩
    refine rest _ _ _ (F₂.setAddr NDIRECT 0) (U₁.next le_rfl F.length) (fun t => ?_) room₂
    by_cases e : t = NDIRECT
    · rw [e, setPtr_same]
    · rw [setPtr_of_ne (Or.inr e)]
      by_cases low : t < NDIRECT
      · exact (U₁.done t low).1
      · by_cases entry : t - (NDIRECT + 1) < NINDIRECT
        · have := gone _ entry
          rwa [Nat.add_sub_cancel' (by omega)] at this
        · by_contra set
          have was : ptrs s₀.cache dins n t ≠ 0 := F₁.left t set ▸ set
          have := ptr_lt was
          simp only [SLOTS] at this
          omega


end Loops

/-! ## `itrunc` -/

/-- What `itrunc` does. -/
structure Truncated {ι : Type} (sb : Superblock) (sz : Nat → Nat) (ip : IPtr) (n : Nat)
    (s : KSt ι) (dins : Nat → Dinode) (s' : KSt ι) (dins' : Nat → Dinode) : Prop
    extends Updated sb (Function.update sz n 0) ip n s dins s' dins' where
  same : dins' n = { dins n with addrs := List.replicate (NDIRECT + 1) 0, size := 0 }
  bytes : ∀ j o, j ≠ n → fileByte s'.cache (dins' j) o = fileByte s.cache (dins j) o
  free : freeCount sb s.cache + slotsFor (sz n) ≤ freeCount sb s'.cache

section Itrunc

variable {ι α : Type} [DecidableEq ι] {P : Policy} {i : ι} {sb : Superblock} {s : KSt ι}
variable {Q : α → KSt ι → Prop} {K : Finset Nat} {ip : IPtr} {n m : Nat}
variable {dins : Nat → Dinode} {sz : Nat → Nat}

omit [DecidableEq ι] in
/-- When all blocks are given back, the inode in memory has no pointers left. -/
theorem Freeing.addrs_eq {R : Nat → Nat → Nat} {din : Dinode} {s' : KSt ι}
    (F : Freeing sb ip n s dins R din s') (U : Upto R n din (NDIRECT + 1)) :
    din.addrs = List.replicate (NDIRECT + 1) 0 := by
  refine List.ext_getElem (by rw [F.length, List.length_replicate]) fun k h₁ h₂ => ?_
  have := (U.done k (F.length ▸ h₁)).2
  rw [List.getElem_replicate]
  simpa [h₁] using this

omit [DecidableEq ι] in
/-- The file system is sound again with an inode that has no blocks. -/
theorem Freeing.sound {R : Nat → Nat → Nat} {din : Dinode} {s' : KSt ι}
    (F : Freeing sb ip n s dins R din s') (S : Sound sb s.cache dins sz) (gone : ∀ t, R n t = 0)
    {din' : Dinode} (addrs : din'.addrs = List.replicate (NDIRECT + 1) 0) (fits : din'.Fits) :
    Sound sb s'.cache (Function.update dins n din') (Function.update sz n 0) := by
  have pointers : ptrs s'.cache (Function.update dins n din') = R := by
    funext j t
    by_cases e : j = n
    · subst e
      have none : din'.ind = 0 := by rw [Dinode.ind, addrs]; rfl
      rw [ptrs, Function.update_self, gone, slotPtr, addrs]
      by_cases low : t ≤ NDIRECT
      · rw [if_pos low]
        simp [show t < NDIRECT + 1 by omega]
      · rw [if_neg low, if_neg (by simp [none])]
    · rw [ptrs, Function.update_of_ne e, F.other j e]
      refine slotPtr_congr_ind fun ind => F.cache _ (Or.inr ?_)
      have indPtr : ptrs s.cache dins j NDIRECT = (dins j).ind := slotPtr_ind
      have use := S.owned.used (i := j) (s := NDIRECT) (by rwa [indPtr])
      exact indPtr ▸ use.low
  constructor
  · rw [pointers]
    exact F.mapped.owned
  · exact F.mapped.base
  · intro j bn hbn
    by_cases e : j = n
    · rw [e, Function.update_self] at hbn
      omega
    · rw [Function.update_of_ne e] at hbn
      rw [pointers, F.other j e]
      exact S.noHole j bn hbn
  · intro j
    by_cases e : j = n
    · rw [e, Function.update_self]
      exact Nat.zero_le _
    · rw [Function.update_of_ne e]
      exact S.small j
  · intro j
    by_cases e : j = n
    · rw [e, Function.update_self]
      exact fits
    · rw [Function.update_of_ne e]
      exact S.fits j

omit [DecidableEq ι] in
theorem Freeing.bytes {R : Nat → Nat → Nat} {din : Dinode} {s' : KSt ι}
    (F : Freeing sb ip n s dins R din s') (S : Sound sb s.cache dins sz) {j : Nat} (o : Nat) :
    fileByte s'.cache (dins j) o = fileByte s.cache (dins j) o := by
  have keep : ∀ t, ptrs s.cache dins j t ≠ 0 →
      s'.cache (ptrs s.cache dins j t) = s.cache (ptrs s.cache dins j t) :=
    fun t set => F.cache _ (Or.inr (S.owned.used set).low)
  have same : slotPtr s'.cache (dins j) (slotOf (o / BSIZE)) =
      slotPtr s.cache (dins j) (slotOf (o / BSIZE)) := by
    refine slotPtr_congr_ind fun ind => ?_
    have := keep NDIRECT
    rw [ptrs, slotPtr_ind] at this
    exact this ind
  rw [fileByte, fileByte, same]
  by_cases set : slotPtr s.cache (dins j) (slotOf (o / BSIZE)) = 0
  · rw [if_pos set, if_pos set]
  · rw [if_neg set, if_neg set, show s'.cache (slotPtr s.cache (dins j) (slotOf (o / BSIZE))) =
      s.cache (slotPtr s.cache (dins j) (slotOf (o / BSIZE))) from keep _ set]

theorem run_itrunc {f : Unit → FsCode ι α} (W : Writer P sb K) (S : Sound sb s.cache dins sz)
    (calm : Calm s) (idle : Idle s) (hn : n < sb.ninodes) (inum : (s.aux.inode ip).inum = n)
    (hdin : (s.aux.inode ip).din = dins n) (mem : sb.iblock n ∈ K) (room : Room P sb K m s.log)
    (rest : ∀ s' dins', Truncated sb sz ip n s dins s' dins' → Room P sb K m s'.log →
      Run P i (f ()) s' Q) :
    Run P i (itrunc sb ip >>= f) s Q := by
  have U : Upto (ptrs s.cache dins) n (dins n) 0 :=
    ⟨fun t ht => absurd ht (Nat.not_lt_zero t), fun t _ high => (slotPtr_direct high).symm⟩
  rw [itrunc]
  simp only [Prog.bind_assoc]
  refine run_itruncDirect W idle rfl (Freeing.start S calm hdin) U (fun _ _ => rfl) room ?_
  intro s₁ R₁ din₁ F₁ U₁ high₁ room₁
  refine run_itruncBlock W idle F₁ U₁ high₁ room₁ ?_
  intro s₂ R₂ din₂ F₂ U₂ gone room₂
  refine run_info F₂.calm ?_
  simp only [Inode.info, F₂.inode_eq]
  refine run_setDin F₂.calm ?_
  obtain ⟨din, hdin'⟩ : ∃ din, din = { din₂ with size := 0 } := ⟨_, rfl⟩
  rw [← hdin']
  have addrs : din.addrs = List.replicate (NDIRECT + 1) 0 := by
    rw [hdin']
    exact F₂.addrs_eq U₂
  have fields : din = { dins n with addrs := List.replicate (NDIRECT + 1) 0, size := 0 } := by
    rw [hdin', F₂.same, F₂.addrs_eq U₂]
  have fits : din.Fits := by
    have old := S.fits n
    rw [fields]
    refine ⟨old.type, old.major, old.minor, old.nlink, Nat.two_pow_pos 32, by simp, ?_⟩
    intro a ha
    rw [List.eq_of_mem_replicate ha]
    exact Nat.two_pow_pos 32
  have self : Function.update dins n din n = din := Function.update_self ..
  have changed : Changed sb (Function.update sz n 0) ip n s dins (putDin s₂ ip din)
      (Function.update dins n din) := by
    refine ⟨F₂.sound S gone addrs fits, F₂.calm.putDin, F₂.hold, ?_,
      fun j hj => Function.update_of_ne hj _ _, fun x hx => F₂.cache x (Or.inl hx), F₂.log⟩
    rw [self, ← @putDin_putDin ι s ip din₂ din]
    simp only [putDin, F₂.aux]
  refine run_writeBack W idle hn inum changed room₂ mem fun s' updated above room' => ?_
  refine rest s' _ ⟨updated, ?_, ?_, ?_⟩ room'
  · rw [self, fields]
  · intro j o hj
    refine (changed.sound.fileByte_above above j o).trans ?_
    rw [Function.update_of_ne hj]
    exact F₂.bytes S o
  · have count : freeCount sb s'.cache = freeCount sb s₂.cache := above.freeCount
    have freed := F₂.count
    rw [blockCount_zero gone] at freed
    have := S.slotsFor_le n
    omega

end Itrunc

end Xv6.Fs
