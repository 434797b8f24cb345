import Xv6.Fs.Table

/-!
# Directories (`dirlookup` and `dirlink`, run alone)
-/

namespace Xv6.Fs

open Interleave Log

/-- The `k`-th entry of a directory. -/
def direntAt (c : Nat → Block) (din : Dinode) (k : Nat) : Dirent :=
  getDirent (fileBytes c din (DIRENT * k) DIRENT)

/-- The entry is in use and has the name. -/
def Dirent.Matches (de : Dirent) (name : List UInt8) : Prop := de.inum ≠ 0 ∧ namecmp name de.name = 0

instance (de : Dirent) (name : List UInt8) : Decidable (de.Matches name) :=
  inferInstanceAs (Decidable (_ ∧ _))

section Lookup

variable {ι α : Type} [DecidableEq ι] {P : Policy} {i : ι} {sb : Superblock} {s : KSt ι}
variable {Q : α → KSt ι → Prop} {dp : IPtr} {din : Dinode} {name : List UInt8}

/-- `readi` of one entry. -/
theorem run_readDirent {f : Int × List UInt8 → FsCode ι α} {k : Nat} (R : Reader P s)
    (hdin : (s.aux.inode dp).din = din) (whole : Whole s.cache din) (inside : DIRENT * k < din.size)
    (rest : DIRENT * k + DIRENT ≤ din.size →
      Run P i (f ((DIRENT : Nat), fileBytes s.cache din (DIRENT * k) DIRENT)) s Q)
    (short : din.size < DIRENT * k + DIRENT → ∀ r l, r ≠ (DIRENT : Int) → Run P i (f (r, l)) s Q) :
    Run P i (readi sb dp .kernel (DIRENT * k) DIRENT >>= f) s Q := by
  have small := whole.small
  simp only [MAXFILE, NDIRECT, NINDIRECT, BSIZE] at small
  simp only [DIRENT] at inside
  refine run_readi_kernel R hdin whole (by simp only [DIRENT]; omega) (by decide) ?_
  by_cases room : DIRENT * k + DIRENT ≤ din.size
  · have count : readCount din.size (DIRENT * k) DIRENT = DIRENT := by
      simp only [readCount, DIRENT] at *
      rw [if_pos (by omega), min_eq_left (by omega)]
    rw [count]
    exact rest room
  · refine short (Nat.lt_of_not_le room) _ _ ?_
    simp only [readCount, DIRENT] at *
    rw [if_pos (by omega)]
    omega

theorem run_dirlookupFrom {f : Option (IPtr × Nat) → FsCode ι α} {dev : Nat} (R : Reader P s)
    (hdin : (s.aux.inode dp).din = din) (whole : Whole s.cache din)
    (even : P.excuses "dirlookup read" ∨ DIRENT ∣ din.size)
    (found : ∀ k, DIRENT * k + DIRENT ≤ din.size → (direntAt s.cache din k).Matches name →
      (∀ j < k, ¬ (direntAt s.cache din j).Matches name) →
      Run P i (iget dev (direntAt s.cache din k).inum >>= fun ip => f (some (ip, DIRENT * k))) s Q)
    (missing : (∀ k, DIRENT * k < din.size → ¬ (direntAt s.cache din k).Matches name) →
      Run P i (f none) s Q) {n k : Nat} (fuel : din.size ≤ DIRENT * (k + n))
    (before : ∀ j < k, ¬ (direntAt s.cache din j).Matches name) :
    Run P i (dirlookupFrom sb dp name dev din.size n (DIRENT * k) >>= f) s Q := by
  induction n generalizing k with
  | zero =>
    refine missing fun j hj => before j ?_
    simp only [DIRENT] at fuel hj
    omega
  | succ n ih =>
    rw [dirlookupFrom]
    by_cases inside : DIRENT * k < din.size
    · rw [if_pos inside]
      simp only [Prog.bind_assoc]
      refine run_readDirent R hdin whole inside (fun room => ?_) fun short r l differs => ?_
      · have de : getDirent (fileBytes s.cache din (DIRENT * k) DIRENT) = direntAt s.cache din k := rfl
        rw [if_neg (fun h => h rfl)]
        simp only [de]
        have next : ¬ (direntAt s.cache din k).Matches name →
            Run P i (dirlookupFrom sb dp name dev din.size n (DIRENT * k + DIRENT) >>= f) s Q := by
          intro other
          rw [← Nat.mul_succ]
          refine ih (by rw [show k.succ + n = k + (n + 1) by omega]; exact fuel) fun j hj => ?_
          rcases Nat.lt_succ_iff_lt_or_eq.mp hj with h | rfl
          · exact before j h
          · exact other
        by_cases empty : (direntAt s.cache din k).inum = 0
        · rw [if_pos empty]
          exact next fun h => h.1 empty
        · rw [if_neg empty]
          by_cases same : namecmp name (direntAt s.cache din k).name = 0
          · rw [if_pos same]
            simp only [Prog.bind_assoc]
            exact found k room ⟨empty, same⟩ before
          · rw [if_neg same]
            exact next fun h => same h.2
      · simp only [if_pos differs]
        refine run_panic_bind (even.resolve_right ?_)
        rintro ⟨q, hq⟩
        simp only [DIRENT] at *
        omega
    · rw [if_neg inside]
      refine missing fun j hj => before j ?_
      simp only [DIRENT] at inside hj
      omega

theorem run_dirlookup {f : Option (IPtr × Nat) → FsCode ι α} (R : Reader P s)
    (hdin : (s.aux.inode dp).din = din) (whole : Whole s.cache din)
    (dir : P.excuses "dirlookup not DIR" ∨ din.type = T_DIR)
    (even : P.excuses "dirlookup read" ∨ DIRENT ∣ din.size)
    (found : ∀ k, DIRENT * k + DIRENT ≤ din.size → (direntAt s.cache din k).Matches name →
      (∀ j < k, ¬ (direntAt s.cache din j).Matches name) →
      Run P i (iget (s.aux.inode dp).dev (direntAt s.cache din k).inum >>= fun ip =>
        f (some (ip, DIRENT * k))) s Q)
    (missing : (∀ k, DIRENT * k < din.size → ¬ (direntAt s.cache din k).Matches name) →
      Run P i (f none) s Q) :
    Run P i (dirlookup sb dp name >>= f) s Q := by
  rw [dirlookup, Prog.bind_assoc]
  refine run_info R.calm ?_
  simp only [Inode.info, hdin]
  by_cases type : din.type = T_DIR
  · rw [if_neg (fun h => h type)]
    refine @run_dirlookupFrom ι α _ P i sb s Q dp din name f _ R hdin whole even found missing _ 0 ?_
      (fun j hj => absurd hj (Nat.not_lt_zero j))
    simp only [DIRENT]
    omega
  · rw [if_pos type]
    exact run_panic_bind (dir.resolve_right type)

end Lookup

end Xv6.Fs
