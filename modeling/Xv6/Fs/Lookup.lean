import Mathlib
import Xv6.Fs.Directory

/-!
# Looking up a name in the root directory

The kernel right after boot, before any inode is in use: what `namei` and `dirlookup` find
in the root directory of an image, and what `readi` then returns.
-/

namespace Xv6.Fs

open Interleave Log

/-! ## Names -/

section Names

variable {p x : List UInt8} {n : Nat}

theorem strncpy_cons {b : UInt8} (hb : b ≠ 0) : strncpy (n + 1) (b :: x) = b :: strncpy n x := by
  rw [strncpy]
  exact if_neg hb

/-- A name compared with one that `strncpy` has stored. -/
theorem strncmp_strncpy (hp : 0 ∉ p) (hx : 0 ∉ x) :
    strncmp n p (strncpy n x) = 0 ↔ p.take n = x.take n := by
  induction n generalizing p x with
  | zero => simp [strncmp]
  | succ n ih =>
    have pos : ∀ {b : UInt8}, b ≠ 0 → b.toNat ≠ 0 := fun hb h => hb (UInt8.toNat_inj.mp h)
    rw [strncmp]
    cases p with
    | nil =>
      cases x with
      | nil => simp [strncpy, List.replicate_succ]
      | cons b x =>
        have hb : b ≠ 0 := fun h => hx (by simp [h])
        simp [strncpy_cons hb, pos hb]
    | cons a p =>
      have ha : a ≠ 0 := fun h => hp (by simp [h])
      cases x with
      | nil => simp [strncpy, List.replicate_succ, ha, pos ha]
      | cons b x =>
        have hb : b ≠ 0 := fun h => hx (by simp [h])
        rw [strncpy_cons hb]
        by_cases e : a = b
        · subst e
          simp only [List.headD_cons, ne_eq, ha, not_false_eq_true, and_self, if_true, List.tail_cons,
            List.take_succ_cons, List.cons.injEq, true_and]
          exact ih (fun h => hp (List.mem_cons_of_mem a h)) fun h => hx (List.mem_cons_of_mem a h)
        · have differ : (a.toNat : Int) - b.toNat ≠ 0 := by
            intro h
            exact e (UInt8.toNat_inj.mp (by omega))
          simp [e, differ]

theorem namecmp_strncpy (hp : 0 ∉ p) (hx : 0 ∉ x) :
    namecmp p (strncpy DIRSIZ x) = 0 ↔ p.take DIRSIZ = x.take DIRSIZ :=
  strncmp_strncpy hp hx

theorem getDirent_putDirent {inum : Nat} (h : inum < 2 ^ 16) (x : List UInt8) :
    getDirent (putDirent ⟨inum, strncpy DIRSIZ x⟩) = ⟨inum, strncpy DIRSIZ x⟩ := by
  have len : (Bytes.leBytes 2 inum).length = 2 := Bytes.length_leBytes 2 inum
  rw [getDirent, putDirent, List.take_left' len, List.drop_left' len,
    Bytes.leValue_leBytes_of_lt (by simpa using h),
    List.take_of_length_le (length_strncpy DIRSIZ x).le]

/-- A path of one element. -/
theorem skipelem_slash (ne : p ≠ []) (h : slash ∉ p) :
    skipelem (slash :: p) = some ([], p.take DIRSIZ) := by
  obtain ⟨a, q, rfl⟩ := List.exists_cons_of_ne_nil ne
  have ha : a ≠ slash := fun e => h (by simp [e])
  have all : ∀ c ∈ a :: q, decide (c ≠ slash) = true := by
    intro c hc
    exact decide_eq_true fun e => h (e ▸ hc)
  have front : (slash :: a :: q).dropWhile (· = slash) = a :: q := by
    simp [ha]
  have take : (a :: q).takeWhile (· ≠ slash) = a :: q := List.takeWhile_eq_self_iff.mpr all
  have drop : (a :: q).dropWhile (· ≠ slash) = [] := List.dropWhile_eq_nil_iff.mpr all
  rw [skipelem, front]
  show some (((a :: q).dropWhile (· ≠ slash)).dropWhile (· = slash), _) = _
  rw [drop, take]
  rfl

end Names

/-! ## After boot -/

/-- No inode is in use and nothing is logged. -/
structure Booted {ι : Type} (sb : Superblock) (s : KSt ι) : Prop where
  ready : Ready sb s
  fresh : ∀ ip, (s.aux.inode ip).ref = 0 ∧ (s.aux.inode ip).lock = none
  quiet : s.log.lh = []

/-- The root directory can be searched. -/
structure RootOk (sb : Superblock) (c : Nat → Block) : Prop where
  number : ROOTINO < sb.ninodes
  type : (diskInodes sb c ROOTINO).type = T_DIR
  linked : (diskInodes sb c ROOTINO).nlink ≠ 0
  even : DIRENT ∣ (diskInodes sb c ROOTINO).size

variable {ι : Type}

/-- Look up a path and read the file. -/
def lookupFile (sb : Superblock) (path : List UInt8) :
    FsCode ι (Option (Nat × Nat × Nat × List UInt8)) := do
  match ← namei sb path with
  | none => return none
  | some ip => do
    ilock sb ip
    let n ← info ip
    let (_, bytes) ← readi sb ip .kernel 0 n.din.size
    return some (n.din.type, n.din.nlink, n.din.size, bytes)

/-- Look up a name in the root directory: the inode number found. -/
def lookupRoot (sb : Superblock) (name : List UInt8) : FsCode ι (Option Nat) := do
  let dp ← iget ROOTDEV ROOTINO
  ilock sb dp
  match ← dirlookup sb dp name with
  | none => return none
  | some (ip, _) => do
    let n ← info ip
    return some n.inum

section Lookup

variable {α : Type} [DecidableEq ι] {i : ι} {sb : Superblock} {s : KSt ι} {Q : α → KSt ι → Prop}
variable {dp : IPtr} {name : List UInt8}

/-- The root directory is locked in entry `dp`, and no other inode is in use. -/
structure RootLocked (sb : Superblock) (i : ι) (c : Nat → Block) (dp : IPtr) (s : KSt ι) : Prop where
  ready : Ready sb s
  cache : s.cache = c
  quiet : s.log.lh = []
  entry : s.aux.inode dp = ⟨ROOTDEV, ROOTINO, 1, some i, true, diskInodes sb c ROOTINO⟩
  other : ∀ ip, ip ≠ dp → (s.aux.inode ip).ref = 0 ∧ (s.aux.inode ip).lock = none

omit [DecidableEq ι] in
theorem reader_of_quiet (R : Ready sb s) (quiet : s.log.lh = []) : Reader strict s :=
  ⟨R.calm, R.idle, Or.inr (by rw [quiet]; decide)⟩

theorem run_lockRoot {f : IPtr → FsCode ι α} (B : Booted sb s) (root : RootOk sb s.cache)
    (rest : ∀ dp s', RootLocked sb i s.cache dp s' → Run strict i (f dp) s' Q) :
    Run strict i (iget ROOTDEV ROOTINO >>= fun dp => ilock sb dp >>= fun _ => f dp) s Q := by
  refine run_iget B.ready.calm (Or.inr ⟨0, (B.fresh 0).1⟩) fun dp t gets => ?_
  have R₁ := B.ready.gets root.number gets
  cases gets with
  | hit live =>
    rw [(B.fresh dp).1] at live
    exact absurd live (lt_irrefl 0)
  | recycled free absent =>
    obtain ⟨n, hn⟩ : ∃ n : Inode ι, n = { s.aux.inode dp with
        dev := ROOTDEV, inum := ROOTINO, ref := 1, valid := false } := ⟨_, rfl⟩
    rw [← hn] at R₁ ⊢
    have entry : (putInode s dp n).aux.inode dp = n := putInode_inode
    have type : (diskInodes sb s.cache n.inum).type ≠ 0 := by
      rw [hn, show (diskInodes sb s.cache ROOTINO).type = T_DIR from root.type]
      decide
    refine run_ilock R₁ (reader_of_quiet R₁ B.quiet) (Or.inr ?_) (Or.inr ?_) (Or.inr ?_) ?_
    · show 0 < ((putInode s dp n).aux.inode dp).ref
      rw [entry, hn]
      exact Int.one_pos
    · show ((putInode s dp n).aux.inode dp).lock = none
      rw [entry, hn]
      exact (B.fresh dp).2
    · show (diskInodes sb s.cache ((putInode s dp n).aux.inode dp).inum).type ≠ 0
      rwa [entry]
    · intro live _ _
      refine rest dp _ ⟨R₁.locked live ?_, rfl, B.quiet, ?_, fun ip h => ?_⟩
      · show (diskInodes sb s.cache ((putInode s dp n).aux.inode dp).inum).type ≠ 0
        rwa [entry]
      · rw [putInode_inode, locked]
        show Inode.mk _ _ _ _ _ (diskInodes sb s.cache ((putInode s dp n).aux.inode dp).inum) = _
        rw [show ({ s with aux := s.aux.setInode dp n } : KSt ι).aux.inode dp = n from entry, entry, hn]
      · show (((s.aux.setInode dp n).setInode dp _).inode ip).ref = 0 ∧ _
        rw [putInode, setInode_of_ne h]
        show ((s.aux.setInode dp n).inode ip).ref = 0 ∧ ((s.aux.setInode dp n).inode ip).lock = none
        rw [setInode_of_ne h]
        exact B.fresh ip

/-- `dirlookup` has found inode `inum` in entry `ip`, which may be the directory itself. -/
structure Found (sb : Superblock) (i : ι) (c : Nat → Block) (dp ip : IPtr) (inum : Nat)
    (s : KSt ι) : Prop where
  ready : Ready sb s
  cache : s.cache = c
  quiet : s.log.lh = []
  dir : (s.aux.inode dp).lock = some i ∧ 0 < (s.aux.inode dp).ref ∧
    (s.aux.inode dp).din = diskInodes sb c ROOTINO
  number : (s.aux.inode ip).inum = inum
  twice : ip = dp → (s.aux.inode ip).ref = 2
  once : ip ≠ dp → (s.aux.inode ip).ref = 1 ∧ (s.aux.inode ip).lock = none

theorem run_searchRoot {c : Nat → Block} {f : Option (IPtr × Nat) → FsCode ι α}
    (L : RootLocked sb i c dp s) (root : RootOk sb c)
    (small : ∀ k, DIRENT * k < (diskInodes sb c ROOTINO).size →
      (direntAt c (diskInodes sb c ROOTINO) k).inum < sb.ninodes)
    (found : ∀ k ip s', DIRENT * k < (diskInodes sb c ROOTINO).size →
      (direntAt c (diskInodes sb c ROOTINO) k).Matches name →
      (∀ j < k, ¬ (direntAt c (diskInodes sb c ROOTINO) j).Matches name) →
      Found sb i c dp ip (direntAt c (diskInodes sb c ROOTINO) k).inum s' →
      Run strict i (f (some (ip, DIRENT * k))) s' Q)
    (missing : (∀ k, DIRENT * k < (diskInodes sb c ROOTINO).size →
      ¬ (direntAt c (diskInodes sb c ROOTINO) k).Matches name) → Run strict i (f none) s Q) :
    Run strict i (dirlookup sb dp name >>= f) s Q := by
  obtain ⟨R, rfl, quiet, entry, other⟩ := L
  have hdin : (s.aux.inode dp).din = diskInodes sb s.cache ROOTINO := by rw [entry]
  refine run_dirlookup (reader_of_quiet R quiet) hdin (R.sound.whole rfl) (Or.inr root.type)
    (Or.inr root.even) (fun k room here first => ?_) missing
  have inside : DIRENT * k < (diskInodes sb s.cache ROOTINO).size :=
    lt_of_lt_of_le (Nat.lt_add_of_pos_right (by decide)) room
  rw [show (s.aux.inode dp).dev = ROOTDEV by rw [entry]]
  obtain ⟨e, he⟩ := exists_ne dp
  refine run_iget R.calm (Or.inr ⟨e, (other e he).1⟩) fun ip t gets => ?_
  have R' := R.gets (small k inside) gets
  obtain ⟨-, hinum, href, -⟩ := gets.entry
  refine found k ip _ inside here first ⟨R', rfl, quiet, ?_, hinum, ?_, ?_⟩
  · have live : 0 < (s.aux.inode dp).ref := by
      rw [entry]
      exact Int.one_pos
    obtain ⟨ref, -, -, din⟩ := gets.kept live
    refine ⟨?_, lt_of_lt_of_le live ref, din.trans hdin⟩
    rw [gets.lock, entry]
  · rintro rfl
    show (t.inode ip).ref = 2
    rw [href, entry]
    rfl
  · intro h
    refine ⟨?_, gets.lock.trans (other ip h).2⟩
    show (t.inode ip).ref = 1
    rw [href, (other ip h).1]
    rfl

/-- What `dirlookup` answers for a name in the root directory. -/
theorem run_lookupRoot (B : Booted sb s) (root : RootOk sb s.cache)
    (small : ∀ k, DIRENT * k < (diskInodes sb s.cache ROOTINO).size →
      (direntAt s.cache (diskInodes sb s.cache ROOTINO) k).inum < sb.ninodes) :
    Run strict i (lookupRoot sb name) s fun r _ => ∀ inum, r = some inum ↔
      ∃ k, DIRENT * k < (diskInodes sb s.cache ROOTINO).size ∧
        (direntAt s.cache (diskInodes sb s.cache ROOTINO) k).Matches name ∧
        (∀ j < k, ¬ (direntAt s.cache (diskInodes sb s.cache ROOTINO) j).Matches name) ∧
        (direntAt s.cache (diskInodes sb s.cache ROOTINO) k).inum = inum := by
  rw [lookupRoot]
  refine run_lockRoot B root fun dp s₁ L => ?_
  refine run_searchRoot L root small ?_ ?_
  · intro k ip s₂ inside here first F
    refine run_info F.ready.calm fun inum => ?_
    rw [Inode.info, F.number, Option.some.injEq]
    constructor
    · exact fun h => ⟨k, inside, here, first, h⟩
    · rintro ⟨k', -, here', first', rfl⟩
      rcases Nat.lt_trichotomy k k' with h | rfl | h
      · exact absurd here (first' k h)
      · rfl
      · exact absurd here' (first k' h)
  · intro none inum
    refine iff_of_false (by simp) ?_
    rintro ⟨k, inside, here, -, -⟩
    exact none k inside here

/-- `iunlockput` of the directory leaves the inode that was found. -/
theorem run_leaveRoot {c : Nat → Block} {ip : IPtr} {inum : Nat} {f : Unit → FsCode ι α}
    (F : Found sb i c dp ip inum s) (root : RootOk sb c)
    (rest : ∀ s', Ready sb s' → s'.cache = c → s'.log.lh = [] → (s'.aux.inode ip).inum = inum →
      0 < (s'.aux.inode ip).ref → (s'.aux.inode ip).lock = none → Run strict i (f ()) s' Q) :
    Run strict i (iunlockput sb dp >>= f) s Q := by
  rw [iunlockput, Prog.bind_assoc]
  refine run_iunlock F.ready.calm (Or.inr ⟨F.dir.1, F.dir.2.1⟩) fun _ => ?_
  have R₁ : Ready sb (putInode s dp { s.aux.inode dp with lock := none }) := F.ready.unlocked
  have entry : (putInode s dp { s.aux.inode dp with lock := none }).aux.inode dp =
      { s.aux.inode dp with lock := none } := putInode_inode
  have used : ((putInode s dp { s.aux.inode dp with lock := none }).aux.inode dp).unused = false := by
    rw [entry, Inode.unused]
    have : (s.aux.inode dp).din.nlink ≠ 0 := by
      rw [F.dir.2.2]
      exact root.linked
    simp [this]
  refine run_iput_keep R₁.calm used ?_
  have R₂ := @Ready.dropped _ _ _ dp R₁
  rw [entry, putInode_putInode] at R₂ ⊢
  refine rest _ R₂ F.cache F.quiet ?_ ?_ ?_
  · by_cases e : ip = dp
    · rw [e, putInode_inode, ← e, F.number]
    · rw [putInode, setInode_of_ne e, F.number]
  · by_cases e : ip = dp
    · rw [e, putInode_inode, ← e]
      show 0 < (s.aux.inode ip).ref - 1
      rw [F.twice e]
      decide
    · rw [putInode, setInode_of_ne e, (F.once e).1]
      decide
  · by_cases e : ip = dp
    · rw [e, putInode_inode]
    · rw [putInode, setInode_of_ne e, (F.once e).2]

/-- `namei` of a name in the root directory. -/
theorem run_namei_root {f : Option IPtr → FsCode ι α} (B : Booted sb s) (root : RootOk sb s.cache)
    (small : ∀ k, DIRENT * k < (diskInodes sb s.cache ROOTINO).size →
      (direntAt s.cache (diskInodes sb s.cache ROOTINO) k).inum < sb.ninodes)
    (ne : name ≠ []) (flat : slash ∉ name) {k : Nat}
    (inside : DIRENT * k < (diskInodes sb s.cache ROOTINO).size)
    (here : (direntAt s.cache (diskInodes sb s.cache ROOTINO) k).Matches (name.take DIRSIZ))
    (first : ∀ j < k,
      ¬ (direntAt s.cache (diskInodes sb s.cache ROOTINO) j).Matches (name.take DIRSIZ))
    (rest : ∀ ip s', Ready sb s' → s'.cache = s.cache → s'.log.lh = [] →
      (s'.aux.inode ip).inum = (direntAt s.cache (diskInodes sb s.cache ROOTINO) k).inum →
      0 < (s'.aux.inode ip).ref → (s'.aux.inode ip).lock = none →
      Run strict i (f (some ip)) s' Q) :
    Run strict i (namei sb (slash :: name) >>= f) s Q := by
  rw [namei, namex, if_pos (show (slash :: name).head? = some slash from rfl)]
  simp only [Prog.bind_assoc]
  have walk : ∀ dp : IPtr,
      (namexFrom sb false ((slash :: name).length + 1) dp (slash :: name) [] : FsCode ι _) =
        ilock sb dp >>= fun _ => info dp >>= fun n =>
          if n.din.type ≠ T_DIR then iunlockput sb dp >>= fun _ => pure none
          else dirlookup sb dp (name.take DIRSIZ) >>= fun r =>
            match r with
            | none => iunlockput sb dp >>= fun _ => pure none
            | some (next, _) => iunlockput sb dp >>= fun _ =>
                namexFrom sb false (slash :: name).length next [] (name.take DIRSIZ) := by
    intro dp
    rw [namexFrom, skipelem_slash ne flat]
    simp only [Bool.false_eq_true, false_and, if_false] <;> rfl
  simp only [walk, Prog.bind_assoc]
  refine run_lockRoot B root fun dp s₁ L => ?_
  refine run_info L.ready.calm ?_
  simp only [Inode.info, L.entry]
  rw [if_neg fun h => h root.type]
  simp only [Prog.bind_assoc]
  refine run_searchRoot L root small ?_ fun none => absurd here (none k inside)
  intro k' ip s₂ _ here' first' F
  obtain rfl : k' = k := by
    rcases Nat.lt_trichotomy k' k with h | h | h
    · exact absurd here' (first k' h)
    · exact h
    · exact absurd here (first' k h)
  simp only [Prog.bind_assoc]
  exact run_leaveRoot F root (rest ip)

theorem run_lookupFile (B : Booted sb s) (root : RootOk sb s.cache)
    (small : ∀ k, DIRENT * k < (diskInodes sb s.cache ROOTINO).size →
      (direntAt s.cache (diskInodes sb s.cache ROOTINO) k).inum < sb.ninodes)
    (ne : name ≠ []) (flat : slash ∉ name) {k : Nat}
    (inside : DIRENT * k < (diskInodes sb s.cache ROOTINO).size)
    (here : (direntAt s.cache (diskInodes sb s.cache ROOTINO) k).Matches (name.take DIRSIZ))
    (first : ∀ j < k,
      ¬ (direntAt s.cache (diskInodes sb s.cache ROOTINO) j).Matches (name.take DIRSIZ))
    {din : Dinode} (hdin : diskInodes sb s.cache
      (direntAt s.cache (diskInodes sb s.cache ROOTINO) k).inum = din) (type : din.type ≠ 0) :
    Run strict i (lookupFile sb (slash :: name)) s fun r _ =>
      r = some (din.type, din.nlink, din.size, fileBytes s.cache din 0 din.size) := by
  rw [lookupFile]
  refine run_namei_root B root small ne flat inside here first ?_
  intro ip s₁ R cache quiet number live unlocked
  have disk : diskInodes sb s₁.cache (s₁.aux.inode ip).inum = din := by rw [cache, number, hdin]
  refine run_ilock R (reader_of_quiet R quiet) (Or.inr live) (Or.inr unlocked)
    (Or.inr (disk ▸ type)) fun _ _ typed => ?_
  have R₂ : Ready sb (putInode s₁ ip (locked sb s₁ i ip)) := R.locked live typed
  have hip : ((putInode s₁ ip (locked sb s₁ i ip)).aux.inode ip).din = din := by
    rw [putInode_inode, locked]
    exact disk
  refine run_info R₂.calm ?_
  simp only [Inode.info, hip]
  have whole : Whole s₁.cache din := disk ▸ R.sound.whole rfl
  have bound := whole.small
  simp only [MAXFILE, NDIRECT, NINDIRECT, BSIZE] at bound
  refine run_readi_kernel (reader_of_quiet R₂ quiet) hip whole (by decide) (by omega) ?_
  have all : readCount din.size 0 din.size = din.size := by
    rw [readCount, if_pos (by omega), Nat.sub_zero, min_self]
  rw [all]
  show some (_, _, _, fileBytes s₁.cache din 0 din.size) = _
  rw [cache]

end Lookup

end Xv6.Fs
