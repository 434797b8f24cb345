import Xv6.Fs.Files

/-!
# Short writes

`writei` stops where `copyin` fails. What it has written until then is in the file, and nothing else
changes, unless `copyin` has stored part of a block's bytes before it failed.
-/

namespace Xv6.Fs

open Interleave Log

/-- A run may end in a panic. -/
def unlessPanic : Policy where
  admits _ _ := True
  excuses _ := True
  waits := False

/-- For every block that bytes `tot` to `len` of a write at `off` meet: the bytes that go to the block
are mapped, or the first of them is not. -/
def WholePieces (mem : UMem) (va off len tot : Nat) : Prop :=
  ∀ t, tot ≤ t → t < len → t = tot ∨ (off + (t - tot)) % BSIZE = 0 →
    mem ((va + t) % 2 ^ 64 / PGSIZE) = none ∨ mem.Covers (va + t) (min (len - t) (BSIZE - (off + (t - tot)) % BSIZE))

theorem WholePieces.next {mem : UMem} {va off len tot a : Nat} (whole : WholePieces mem va off len tot)
    (ha : a = min (len - tot) (BSIZE - off % BSIZE)) : WholePieces mem va (off + a) len (tot + a) := by
  intro t low high place
  have behind : off + a + (t - (tot + a)) = off + (t - tot) := by omega
  rw [behind] at place ⊢
  refine whole t (by omega) high (Or.inr ?_)
  rcases place with rfl | aligned
  · simp only [BSIZE] at ha ⊢
    omega
  · exact aligned

section Writei

variable {ι α : Type} [DecidableEq ι] {i : ι} {sb : Superblock} {s : KSt ι}
variable {Q : α → KSt ι → Prop} {K : Finset Nat} {ip : IPtr} {n off len va : Nat}
variable {dins : Nat → Dinode} {sz : Nat → Nat}

omit [DecidableEq ι] in
theorem Extends.writes {k : Nat} {s' : KSt ι} {dins' : Nat → Dinode} (E : Extends sb sz ip n k s dins s' dins')
    (low : off ≤ sz n) : Writes sb sz ip n k off [] s dins s' dins' where
  sound := by
    rw [List.length_nil, Nat.add_zero, max_eq_left low, Function.update_eq_self]
    exact E.sound
  calm := E.calm
  hold := E.hold
  aux := E.aux
  other := E.other
  same := E.same
  bytes j o := by
    rw [E.bytes, if_neg (by simp only [List.length_nil]; omega)]
  low := E.low
  log := E.log
  free := E.free

/-- A round in which `copyin` stores nothing. -/
theorem run_writeRound_fails {f : Bool → FsCode ι α} {tot a : Nat} (W : Writer unlessPanic sb K)
    (S : Sound sb s.cache dins sz) (calm : Calm s) (idle : Idle s) (hdin : (s.aux.inode ip).din = dins n)
    (unmapped : (s.aux.proc i).mem ((va + tot) % 2 ^ 64 / PGSIZE) = none) (pos : 0 < a) (low : off ≤ sz n)
    (high : off < MAXFILE * BSIZE) (room : Room unlessPanic sb K (1 + indCost K (dins n)) s.log)
    (rest : ∀ s' dins' K' k, Writes sb sz ip n k off [] s dins s' dins' → K ⊆ K' → Room unlessPanic sb K' 0 s'.log →
      Run unlessPanic i (f false) s' Q) :
    Run unlessPanic i (bmap sb ip (off / BSIZE) >>= fun addr => bread addr >>= fun bp =>
      writeBlock bp (.user va) tot (off % BSIZE) a >>= f) s Q := by
  have hbn : off / BSIZE < MAXFILE := Nat.div_lt_of_lt_mul (by rwa [Nat.mul_comm])
  refine run_bmap (m := 0) W S calm idle hdin hbn (room.less (by omega)) (Or.inl trivial) ?_
  intro s₁ dins₁ b K' E ptr set sub mem room₁
  have idle₁ : Idle s₁ := by
    intro h
    rw [E.hold]
    exact idle h
  have can : CanAlloc unlessPanic sb s₁ := canAlloc_of_idle E.calm idle₁ trivial
  refine run_bread E.calm ⟨can.few, Or.inl trivial⟩ (idle₁.unheld b) fun h free => ?_
  have proc : s₁.aux.proc = s.aux.proc := by
    rw [E.aux]
    rfl
  -- `copyin` finds no page and stores nothing
  have none : copyin (s₁.aux.proc i).mem ((va + tot) % 2 ^ 64) a = ([], false) := by
    rw [proc]
    refine Prod.ext ((copyin_nil_iff pos).mpr (by rwa [Nat.mod_mod])) ?_
    rw [← Bool.not_eq_true, copyin_ok_iff]
    intro covers
    refine covers 0 pos ?_
    rwa [Nat.add_zero, Nat.mod_mod]
  rw [writeBlock]
  simp only [Prog.bind_assoc]
  refine run_fs (E.calm.edit free) (Or.inr ⟨_, _, rfl, rfl⟩) ?_
  rintro r t ⟨rfl, rfl⟩
  rw [edit_aux, none]
  simp only [storeBytes, onlyIf]
  rw [if_neg (by simp), if_neg (by decide)]
  simp only [Prog.bind_assoc, Prog.pure_bind]
  exact run_brelse E.calm free rfl (rest s₁ dins₁ K' _ (E.writes low) sub (room₁.less (Nat.zero_le _)))

/-- The log has room for anything if a full log is excused. -/
theorem Room.any {K' : Finset Nat} {a b : Nat} {log : LogVar} (R : Room unlessPanic sb K a log) :
    Room unlessPanic sb K' b log :=
  ⟨R.inOp, R.area, R.outside, R.short, Or.inl ⟨fun _ _ => trivial, trivial⟩⟩

/-- The loop of `writei` puts the first `l` bytes into the file. -/
theorem run_writeiSome {f : Nat × Nat → FsCode ι α} {k tot : Nat} (W : Writer unlessPanic sb K)
    (S : Sound sb s.cache dins sz) (calm : Calm s) (idle : Idle s) (hdin : (s.aux.inode ip).din = dins n)
    (whole : WholePieces (s.aux.proc i).mem va off len tot) (hk : len ≤ tot + k) (htot : tot ≤ len) (low : off ≤ sz n)
    (high : off + (len - tot) ≤ MAXFILE * BSIZE) (room : Room unlessPanic sb K 0 s.log)
    (rest : ∀ s' dins' K' l t, tot + l ≤ len → (s.aux.proc i).mem.Covers (va + tot) l →
      Writes sb sz ip n t off ((s.aux.proc i).mem.bytes (va + tot) l) s dins s' dins' → K ⊆ K' →
      Room unlessPanic sb K' 0 s'.log → Run unlessPanic i (f (tot + l, off + l)) s' Q) :
    Run unlessPanic i (writeiFrom sb ip (.user va) len k tot off >>= f) s Q := by
  have stop : Run unlessPanic i (f (tot, off)) s Q :=
    rest s dins K 0 0 htot (fun _ h => absurd h (Nat.not_lt_zero _)) (Writes.nil S calm hdin low) subset_rfl room
  induction k generalizing s K tot off dins sz with
  | zero => exact stop
  | succ k ih =>
    rw [writeiFrom]
    by_cases more : tot < len
    · rw [if_pos more]
      simp only [Prog.bind_assoc]
      obtain ⟨a, ha⟩ : ∃ a, a = min (len - tot) (BSIZE - off % BSIZE) := ⟨_, rfl⟩
      rw [← ha]
      have pos : 0 < a := by
        simp only [BSIZE] at ha
        omega
      have inside : off % BSIZE + a ≤ BSIZE := by
        simp only [BSIZE] at ha ⊢
        omega
      have piece := whole tot le_rfl more (Or.inl rfl)
      rw [Nat.sub_self, Nat.add_zero, ← ha] at piece
      rcases piece with unmapped | covers
      · refine run_writeRound_fails W S calm idle hdin unmapped pos low (by omega) room.any ?_
        intro s₁ dins₁ K₁ t W₁ sub room₁
        rw [if_neg (by decide)]
        exact rest s₁ dins₁ K₁ 0 t htot (fun _ h => absurd h (Nat.not_lt_zero _)) W₁ sub room₁
      · have has : Src.Has (s.aux.proc i).mem (.user va) tot a := covers
        refine run_writeRound (m := 0) W S calm idle hdin has pos inside low (by omega) room.any (Or.inl trivial) ?_
        intro s₁ dins₁ K₁ W₁ sub room₁
        have small : off + a < 2 ^ 32 := by
          simp only [MAXFILE, NDIRECT, NINDIRECT, BSIZE] at high
          omega
        have proc : s₁.aux.proc = s.aux.proc := by
          rw [W₁.aux]
          rfl
        have length := has.length_piece
        have sound := W₁.sound
        rw [length] at sound
        have size : Function.update sz n (max (sz n) (off + a)) n = max (sz n) (off + a) := Function.update_self ..
        rw [if_pos rfl, addU_of_lt small]
        have after : ∀ s' dins' K' l t, tot + a + l ≤ len → (s₁.aux.proc i).mem.Covers (va + (tot + a)) l →
            Writes sb (Function.update sz n (max (sz n) (off + a))) ip n t (off + a)
              ((s₁.aux.proc i).mem.bytes (va + (tot + a)) l) s₁ dins₁ s' dins' → K₁ ⊆ K' →
            Room unlessPanic sb K' 0 s'.log → Run unlessPanic i (f (tot + a + l, off + a + l)) s' Q := by
          intro s₂ dins₂ K₂ l t fits covers₂ W₂ sub₂ room₂
          rw [proc] at covers₂ W₂
          have grown := W₁.append (by rw [length]; exact W₂)
          rw [Src.piece, ← Nat.add_assoc va, ← UMem.bytes_add] at grown
          rw [Nat.add_assoc tot, Nat.add_assoc off]
          refine rest s₂ dins₂ K₂ (a + l) _ (by omega) ?_ grown (sub.trans sub₂) room₂
          intro j hj
          by_cases first : j < a
          · exact covers j first
          · have second := covers₂ (j - a) (by omega)
            rwa [show va + (tot + a) + (j - a) = va + tot + j by omega] at second
        refine ih (W.mono sub) sound W₁.calm (fun h => by rw [W₁.hold]; exact idle h) (by rw [W₁.din])
          (by rw [proc]; exact whole.next ha) (by omega) (by omega) (by rw [size]; omega) (by omega) room₁.any after ?_
        exact after s₁ dins₁ K₁ 0 0 (by omega) (fun _ h => absurd h (Nat.not_lt_zero _))
          (Writes.nil sound W₁.calm (by rw [W₁.din]) (by rw [size]; omega)) subset_rfl room₁.any
    · rw [if_neg more]
      exact stop

theorem run_writei_some {f : Int → FsCode ι α} (W : Writer unlessPanic sb K) (S : Sound sb s.cache dins sz) (calm : Calm s)
    (idle : Idle s) (hn : n < sb.ninodes) (inum : (s.aux.inode ip).inum = n) (hdin : (s.aux.inode ip).din = dins n)
    (size : (dins n).size = sz n) (hoff : off < 2 ^ 32) (hlen : len < 2 ^ 32)
    (whole : WholePieces (s.aux.proc i).mem va off len 0) (mem : sb.iblock n ∈ K) (room : Room unlessPanic sb K 0 s.log)
    (fails : Run unlessPanic i (f (-1)) s Q)
    (rest : ∀ s' dins' k (l : Nat), l ≤ len → off ≤ sz n → (s.aux.proc i).mem.Covers va l →
      WroteSome sb sz ip n k off ((s.aux.proc i).mem.bytes va l) s dins s' dins' → Run unlessPanic i (f l) s' Q) :
    Run unlessPanic i (writei sb ip (.user va) off len >>= f) s Q := by
  rw [writei, Prog.bind_assoc]
  refine run_info calm ?_
  simp only [Inode.info, hdin]
  by_cases outside : (dins n).size < off ∨ addU off len < off
  · rw [if_pos outside]
    exact fails
  rw [if_neg outside]
  by_cases large : MAXFILE * BSIZE < addU off len
  · rw [if_pos large]
    exact fails
  rw [if_neg large]
  have nowrap : off + len < 2 ^ 32 := by
    simp only [addU] at outside
    omega
  rw [addU_of_lt nowrap] at large
  have low : off ≤ sz n := by omega
  simp only [Prog.bind_assoc, Prog.pure_bind]
  refine run_writeiSome W S calm idle hdin whole (by omega) (Nat.zero_le _) low (by omega) room ?_
  intro s₁ dins₁ K₁ l t fits covers wrote sub room₁
  rw [Nat.add_zero] at covers wrote
  rw [Nat.zero_add] at fits
  have bound : l < 2 ^ 31 := by
    simp only [MAXFILE, NDIRECT, NINDIRECT, BSIZE] at large
    omega
  simp only [Nat.zero_add]
  rw [toInt_of_lt bound]
  have finish := @run_writeiEnd ι α _ unlessPanic i sb s Q K₁ ip n 0 off dins sz (fun _ => f l) _ s₁ dins₁ t (W.mono sub)
    idle hn inum size wrote room₁ (sub mem) fun s' dins' stored _ => rest s' dins' t l fits low covers stored
  rwa [UMem.length_bytes] at finish

end Writei

/-! ## What is in the file -/

section Claim

variable {ι : Type} {i : ι} {sb : Superblock} {s : KSt ι} {entry : Nat → IPtr} {opened : Nat → Prop}

/-- The first `r` bytes of the user memory at `va` are in file `inum` at `off`, and nothing else has
changed. -/
structure WroteBytes (sb : Superblock) (i : ι) (inum off va r : Nat) (s s' : KSt ι) : Prop where
  mapped : (s.aux.proc i).mem.Covers va r
  written : ∀ k < r, ((arrays sb i s').file inum).getD (off + k) 0 = ((arrays sb i s).mem (va + k)).getD 0
  kept : ∀ o, ¬(off ≤ o ∧ o < off + r) →
    ((arrays sb i s').file inum).getD o 0 = ((arrays sb i s).file inum).getD o 0
  size : ((arrays sb i s').file inum).length = max ((arrays sb i s).file inum).length (off + r)
  others : ∀ j, j ≠ inum → (arrays sb i s').file j = (arrays sb i s).file j

theorem writer_unlessPanic (L : Layout sb) : Writer unlessPanic sb (Finset.range sb.dataStart) where
  layout := L
  bget := trivial
  map _ hx := Finset.mem_range.mpr (bblock_lt hx)

variable [DecidableEq ι]

end Claim

/-! ## A source that is partly mapped -/

section Partly

/-- The code returns the expected answers. -/
theorem solo_expect (ops : List FileOp) (answers : List (Int × List UInt8)) (n : Nat)
    (h : (fsAlone.run 0 n smallState ((expect ops answers).interp impl)).any (fun x =>
      match x.2 with | .ret () => true | _ => false) = true) :
    ∃ o s', (aloneSys fsExec).Solo 0 smallState ((expect ops answers).interp impl) o s' (.ret ()) := by
  cases ran : fsAlone.run 0 n smallState ((expect ops answers).interp impl) with
  | none =>
    rw [ran] at h
    cases h
  | some x =>
    obtain ⟨s', p'⟩ := x
    rw [ran] at h
    obtain ⟨o, solo⟩ := fsAlone.run_solo ran
    cases p' with
    | ret x => exact ⟨o, s', solo⟩
    | act a k => cases h

end Partly

end Xv6.Fs
