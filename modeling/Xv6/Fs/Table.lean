import Xv6.Fs.Itrunc

/-!
# The inode table of a process that runs alone

`Ready` is what holds between the functions of fs.c: the file system is sound, and an entry
of the inode table that is referenced and valid is a copy of the inode on the disk. `iget`,
`ilock`, `iunlock` and `iput` keep it.
-/

namespace Xv6.Fs

open Interleave Log

section Table

variable {ι : Type}

/-- The inode table agrees with the disk. -/
structure Table (sb : Superblock) (c : Nat → Block) (t : FsSt ι) : Prop where
  entry : ∀ ip, 0 < (t.inode ip).ref →
    (t.inode ip).dev = ROOTDEV ∧ (t.inode ip).inum < sb.ninodes
  valid : ∀ ip, 0 < (t.inode ip).ref → (t.inode ip).valid = true →
    (t.inode ip).din = diskInodes sb c (t.inode ip).inum ∧ (t.inode ip).din.type ≠ 0
  unique : ∀ ip jp, 0 < (t.inode ip).ref → 0 < (t.inode jp).ref →
    (t.inode ip).inum = (t.inode jp).inum → ip = jp

structure Ready (sb : Superblock) (s : KSt ι) : Prop where
  layout : Layout sb
  sound : Sound sb s.cache (diskInodes sb s.cache) fun j => (diskInodes sb s.cache j).size
  calm : Calm s
  idle : Idle s
  table : Table sb s.cache s.aux

/-- One entry of the table is replaced. -/
def putInode (s : KSt ι) (ip : IPtr) (n : Inode ι) : KSt ι := { s with aux := s.aux.setInode ip n }

variable {sb : Superblock} {s s' : KSt ι} {ip jp : IPtr} {n : Inode ι} {c : Nat → Block} {t t' : FsSt ι}

theorem putInode_inode : (putInode s ip n).aux.inode ip = n := by simp [putInode, FsSt.setInode]

theorem putInode_putInode {n' : Inode ι} : putInode (putInode s ip n) ip n' = putInode s ip n' := by
  simp [putInode, FsSt.setInode]

@[simp] theorem setInode_self : (t.setInode ip n).inode ip = n := by simp [FsSt.setInode]

theorem setInode_of_ne (h : jp ≠ ip) : (t.setInode ip n).inode jp = t.inode jp := by
  simp [FsSt.setInode, h]

/-- A change of one entry that leaves its identity alone. -/
theorem Table.set (T : Table sb c t) (same : 0 < n.ref → 0 < (t.inode ip).ref)
    (dev : n.dev = (t.inode ip).dev) (inum : n.inum = (t.inode ip).inum)
    (valid : 0 < n.ref → n.valid = true → n.din = diskInodes sb c n.inum ∧ n.din.type ≠ 0) :
    Table sb c (t.setInode ip n) where
  entry jp live := by
    by_cases e : jp = ip
    · subst e
      rw [setInode_self] at live ⊢
      rw [dev, inum]
      exact T.entry jp (same live)
    · rw [setInode_of_ne e] at live ⊢
      exact T.entry jp live
  valid jp live v := by
    by_cases e : jp = ip
    · subst e
      rw [setInode_self] at live v ⊢
      exact valid live v
    · rw [setInode_of_ne e] at live v ⊢
      exact T.valid jp live v
  unique := by
    have back : ∀ jp, 0 < ((t.setInode ip n).inode jp).ref → 0 < (t.inode jp).ref ∧
        ((t.setInode ip n).inode jp).inum = (t.inode jp).inum := by
      intro jp live
      by_cases e : jp = ip
      · subst e
        rw [setInode_self] at live ⊢
        exact ⟨same live, inum⟩
      · rw [setInode_of_ne e] at live ⊢
        exact ⟨live, rfl⟩
    intro a b la lb h
    obtain ⟨la', ha⟩ := back a la
    obtain ⟨lb', hb⟩ := back b lb
    exact T.unique a b la' lb' (by rw [← ha, h, hb])

theorem Ready.put (R : Ready sb s) (T : Table sb s.cache (s.aux.setInode ip n)) :
    Ready sb (putInode s ip n) :=
  ⟨R.layout, R.sound, R.calm.aux, R.idle, T⟩

/-! ## `iget` -/

/-- What `iget` does when it does not panic. -/
inductive Gets (dev inum : Nat) (t : FsSt ι) (ip : IPtr) : FsSt ι → Prop where
  | hit (live : 0 < (t.inode ip).ref) (hdev : (t.inode ip).dev = dev)
      (hinum : (t.inode ip).inum = inum) :
      Gets dev inum t ip (t.setInode ip { t.inode ip with ref := (t.inode ip).ref + 1 })
  | recycled (free : (t.inode ip).ref = 0)
      (absent : ∀ jp, 0 < (t.inode jp).ref → (t.inode jp).dev = dev → (t.inode jp).inum ≠ inum) :
      Gets dev inum t ip (t.setInode ip { t.inode ip with
        dev := dev, inum := inum, ref := 1, valid := false })

theorem iget_gets {dev inum : Nat} (h : t.iget dev inum = (some ip, t')) : Gets dev inum t ip t' := by
  rw [FsSt.iget] at h
  split at h
  · rename_i jp found
    obtain ⟨rfl, rfl⟩ : jp = ip ∧ _ = t' := by simpa using h
    have here := List.find?_some found
    simp only [Bool.and_eq_true, decide_eq_true_eq, beq_iff_eq] at here
    exact .hit here.1.1 here.1.2 here.2
  · rename_i missing
    split at h
    · rename_i jp found
      obtain ⟨rfl, rfl⟩ : jp = ip ∧ _ = t' := by simpa using h
      have here := List.find?_some found
      simp only [beq_iff_eq] at here
      refine .recycled here fun jp live hdev hinum => ?_
      have := List.find?_eq_none.mp missing jp (List.mem_finRange jp)
      simp [live, hdev, hinum] at this
    · cases h

theorem iget_none {dev inum : Nat} (h : t.iget dev inum = (none, t')) (ip : IPtr) :
    (t.inode ip).ref ≠ 0 := by
  rw [FsSt.iget] at h
  split at h
  · cases h
  · split at h
    · cases h
    · rename_i missing
      have := List.find?_eq_none.mp missing ip (List.mem_finRange ip)
      simpa using this

theorem Gets.entry {dev inum : Nat} (g : Gets dev inum t ip t') :
    (t'.inode ip).dev = dev ∧ (t'.inode ip).inum = inum ∧
      (t'.inode ip).ref = (t.inode ip).ref + 1 ∧ 0 < (t'.inode ip).ref := by
  cases g with
  | hit live hdev hinum =>
    rw [setInode_self]
    exact ⟨hdev, hinum, rfl, Int.lt_add_one_of_le live.le⟩
  | recycled free absent =>
    rw [setInode_self]
    exact ⟨rfl, rfl, by rw [free]; rfl, Int.one_pos⟩

theorem Gets.other {dev inum : Nat} (g : Gets dev inum t ip t') (h : jp ≠ ip) :
    t'.inode jp = t.inode jp := by
  cases g with
  | hit => exact setInode_of_ne h
  | recycled => exact setInode_of_ne h

theorem Gets.lock {dev inum : Nat} (g : Gets dev inum t ip t') :
    (t'.inode jp).lock = (t.inode jp).lock := by
  by_cases e : jp = ip
  · subst e
    cases g with
    | hit => rw [setInode_self]
    | recycled => rw [setInode_self]
  · rw [g.other e]

/-- An entry that was referenced keeps all but its count. -/
theorem Gets.kept {dev inum : Nat} (g : Gets dev inum t ip t') (live : 0 < (t.inode jp).ref) :
    (t.inode jp).ref ≤ (t'.inode jp).ref ∧ (t'.inode jp).inum = (t.inode jp).inum ∧
      (t'.inode jp).valid = (t.inode jp).valid ∧ (t'.inode jp).din = (t.inode jp).din := by
  by_cases e : jp = ip
  · subst e
    cases g with
    | hit =>
      rw [setInode_self]
      exact ⟨by simp, rfl, rfl, rfl⟩
    | recycled free => omega
  · rw [g.other e]
    exact ⟨le_rfl, rfl, rfl, rfl⟩

theorem Table.gets {inum : Nat} (T : Table sb c t) (hi : inum < sb.ninodes)
    (g : Gets ROOTDEV inum t ip t') : Table sb c t' := by
  cases g with
  | hit live hdev hinum => exact T.set (fun _ => live) rfl rfl fun _ => T.valid ip live
  | recycled free absent =>
    have fresh : ∀ jp, jp ≠ ip → 0 < (t.inode jp).ref → (t.inode jp).inum ≠ inum :=
      fun jp _ live => absent jp live (T.entry jp live).1
    constructor
    · intro jp live
      by_cases e : jp = ip
      · subst e
        rw [setInode_self]
        exact ⟨rfl, hi⟩
      · rw [setInode_of_ne e] at live ⊢
        exact T.entry jp live
    · intro jp live v
      by_cases e : jp = ip
      · subst e
        rw [setInode_self] at v
        cases v
      · rw [setInode_of_ne e] at live v ⊢
        exact T.valid jp live v
    · intro a b la lb h
      by_cases ha : a = ip
      · by_cases hb : b = ip
        · rw [ha, hb]
        · rw [ha, setInode_self, setInode_of_ne hb] at h
          rw [setInode_of_ne hb] at lb
          exact absurd h.symm (fresh b hb lb)
      · by_cases hb : b = ip
        · rw [hb, setInode_self, setInode_of_ne ha] at h
          rw [setInode_of_ne ha] at la
          exact absurd h (fresh a ha la)
        · rw [setInode_of_ne ha, setInode_of_ne hb] at h
          rw [setInode_of_ne ha] at la
          rw [setInode_of_ne hb] at lb
          exact T.unique a b la lb h

theorem Ready.gets {inum : Nat} {t : FsSt ι} (R : Ready sb s) (hi : inum < sb.ninodes)
    (g : Gets ROOTDEV inum s.aux ip t) : Ready sb { s with aux := t } :=
  ⟨R.layout, R.sound, R.calm.aux, R.idle, R.table.gets hi g⟩

/-! ## Changes of an inode -/

variable {sz : Nat → Nat} {inum : Nat} {dins' : Nat → Dinode}

end Table

/-! ## Rules -/

section Rules

variable {ι α : Type} [DecidableEq ι] {P : Policy} {i : ι} {sb : Superblock} {s : KSt ι}
variable {Q : α → KSt ι → Prop} {ip : IPtr}

theorem run_iget {dev inum : Nat} {f : IPtr → FsCode ι α} (calm : Calm s)
    (room : P.excuses "iget: no inodes" ∨ ∃ jp, (s.aux.inode jp).ref = 0)
    (rest : ∀ ip t, Gets dev inum s.aux ip t → Run P i (f ip) { s with aux := t } Q) :
    Run P i (iget dev inum >>= f) s Q := by
  rw [iget, Prog.bind_assoc]
  refine run_fs calm (Or.inr ⟨_, _, rfl, rfl⟩) ?_
  rintro r t ⟨rfl, rfl⟩
  rcases e : s.aux.iget dev inum with ⟨_ | ip, t⟩
  · rcases room with excused | ⟨jp, free⟩
    · exact run_panic_bind excused
    · exact absurd free (iget_none e jp)
  · exact rest ip t (iget_gets e)

theorem run_setValid {v : Bool} {f : Unit → FsCode ι α} (calm : Calm s)
    (rest : Run P i (f ()) (putInode s ip { s.aux.inode ip with valid := v }) Q) :
    Run P i (setValid ip v >>= f) s Q := by
  refine run_fs calm (Or.inr ⟨(), _, rfl⟩) ?_
  rintro r t rfl
  exact rest

/-- The inode as its locker finds it. -/
def locked (sb : Superblock) (s : KSt ι) (i : ι) (ip : IPtr) : Inode ι :=
  { s.aux.inode ip with
    lock := some i
    valid := true
    din := diskInodes sb s.cache (s.aux.inode ip).inum }

theorem run_ilock {f : Unit → FsCode ι α} (R : Ready sb s) (reader : Reader P s)
    (referenced : P.excuses "ilock" ∨ 0 < (s.aux.inode ip).ref)
    (free : P.waits ∨ (s.aux.inode ip).lock = none)
    (typed : P.excuses "ilock: no type" ∨
      (diskInodes sb s.cache (s.aux.inode ip).inum).type ≠ 0)
    (rest : 0 < (s.aux.inode ip).ref → (s.aux.inode ip).lock = none →
      (diskInodes sb s.cache (s.aux.inode ip).inum).type ≠ 0 →
      Run P i (f ()) (putInode s ip (locked sb s i ip)) Q) :
    Run P i (ilock sb ip >>= f) s Q := by
  have calm := R.calm
  rw [ilock, Prog.bind_assoc]
  refine run_fs calm (Or.inr ⟨_, _, rfl, rfl⟩) ?_
  rintro r t ⟨rfl, rfl⟩
  by_cases live : 1 ≤ (s.aux.inode ip).ref
  · simp only [decide_eq_true live, if_true, Prog.bind_assoc]
    refine run_fs calm ?_ ?_
    · exact free.imp id fun e => ⟨(), _, e, rfl⟩
    rintro - t ⟨unlocked, rfl⟩
    have disk : diskInodes sb s.cache (s.aux.inode ip).inum =
        dinodeAt sb s.cache (s.aux.inode ip).inum := if_pos (R.table.entry ip live).2
    show Run P i _ (putInode s ip { s.aux.inode ip with lock := some i }) Q
    refine run_info calm.aux ?_
    simp only [putInode, setInode_self, Inode.info]
    by_cases v : (s.aux.inode ip).valid = true
    · obtain ⟨din, type⟩ := R.table.valid ip live v
      have same : locked sb s i ip = { s.aux.inode ip with lock := some i } := by
        rw [locked, ← din, ← v]
      rw [if_pos v, Prog.pure_bind]
      have := rest live unlocked (din ▸ type)
      rwa [same] at this
    · have reader₁ : Reader P (putInode s ip { s.aux.inode ip with lock := some i }) :=
        ⟨calm.aux, reader.idle, reader.room⟩
      rw [if_neg v]
      simp only [Prog.bind_assoc]
      refine run_bread reader₁.calm (reader₁.seat _) (reader.idle.unheld _) fun h unheld => ?_
      have calm₂ : Calm (putDin (putInode s ip { s.aux.inode ip with lock := some i }) ip
          (dinodeAt sb s.cache (s.aux.inode ip).inum)) := calm.aux
      refine run_getData reader₁.calm unheld (run_setDin (reader₁.calm.edit unheld) ?_)
      refine run_brelse calm₂ unheld rfl (run_setValid calm₂ ?_)
      have same : ∀ s₁, s₁ = putDin (putInode s ip { s.aux.inode ip with lock := some i }) ip
          (dinodeAt sb s.cache (s.aux.inode ip).inum) →
          putInode s₁ ip { s₁.aux.inode ip with valid := true } =
            putInode s ip (locked sb s i ip) := by
        rintro s₁ rfl
        simp [putDin, putInode, FsSt.setInode, locked, disk]
      refine same _ rfl ▸ ?_
      show Run P i ((if (dinodeAt sb s.cache (s.aux.inode ip).inum).type = 0 then
        panic "ilock: no type" else pure ()) >>= f) _ Q
      by_cases type : (dinodeAt sb s.cache (s.aux.inode ip).inum).type = 0
      · refine (if_pos type).symm ▸ run_panic_bind (typed.resolve_right ?_)
        rw [disk]
        exact fun h => h type
      · rw [if_neg type, Prog.pure_bind]
        exact rest live unlocked (disk ▸ type)
  · simp only [decide_eq_false live, Bool.false_eq_true, if_false]
    exact run_panic_bind (referenced.resolve_right live)

omit [DecidableEq ι] in
theorem Ready.locked (R : Ready sb s) (live : 0 < (s.aux.inode ip).ref)
    (type : (diskInodes sb s.cache (s.aux.inode ip).inum).type ≠ 0) :
    Ready sb (putInode s ip (Fs.locked sb s i ip)) :=
  R.put (R.table.set (fun _ => live) rfl rfl fun _ _ => ⟨rfl, type⟩)

theorem run_iunlock {f : Unit → FsCode ι α} (calm : Calm s)
    (held : P.excuses "iunlock" ∨ (s.aux.inode ip).lock = some i ∧ 0 < (s.aux.inode ip).ref)
    (rest : 0 < (s.aux.inode ip).ref →
      Run P i (f ()) (putInode s ip { s.aux.inode ip with lock := none }) Q) :
    Run P i (iunlock ip >>= f) s Q := by
  rw [iunlock, Prog.bind_assoc]
  refine run_fs calm (Or.inr ⟨_, _, rfl, rfl⟩) ?_
  rintro r t ⟨rfl, rfl⟩
  by_cases mine : (s.aux.inode ip).lock = some i
  · simp only [decide_eq_true mine, if_true, Prog.bind_assoc]
    refine run_fs calm (Or.inr ⟨_, _, rfl, rfl⟩) ?_
    rintro r t ⟨rfl, rfl⟩
    by_cases live : 1 ≤ (s.aux.inode ip).ref
    · simp only [decide_eq_true live, if_true]
      refine run_fs calm (Or.inr ⟨(), _, rfl⟩) ?_
      rintro r t rfl
      exact rest live
    · simp only [decide_eq_false live, Bool.false_eq_true, if_false]
      exact run_panic_bind (held.resolve_right fun h => live h.2)
  · simp only [decide_eq_false mine, Bool.false_eq_true, if_false]
    exact run_panic_bind (held.resolve_right fun h => mine h.1)

omit [DecidableEq ι] in
theorem Ready.unlocked (R : Ready sb s) {lock : Option ι} :
    Ready sb (putInode s ip { s.aux.inode ip with lock := lock }) :=
  R.put (R.table.set id rfl rfl fun live v => R.table.valid ip live v)

/-- `iput` of an inode that stays. -/
theorem run_iput_keep {f : Unit → FsCode ι α} (calm : Calm s)
    (used : (s.aux.inode ip).unused = false)
    (rest : Run P i (f ()) (putInode s ip { s.aux.inode ip with
      ref := (s.aux.inode ip).ref - 1 }) Q) :
    Run P i (iput sb ip >>= f) s Q := by
  have step : ∀ r t, fsExec i (.iputTest ip) s.aux r t ↔ r = false ∧
      t = s.aux.setInode ip { s.aux.inode ip with ref := (s.aux.inode ip).ref - 1 } := by
    intro r t
    simp only [fsExec, used, Bool.false_eq_true, if_false]
  rw [iput, Prog.bind_assoc]
  refine run_fs calm (Or.inr ⟨_, _, (step _ _).mpr ⟨rfl, rfl⟩⟩) fun r t h => ?_
  obtain ⟨rfl, rfl⟩ := (step r t).mp h
  exact rest

omit [DecidableEq ι] in
theorem Ready.dropped (R : Ready sb s) :
    Ready sb (putInode s ip { s.aux.inode ip with ref := (s.aux.inode ip).ref - 1 }) := by
  have live : 0 < (s.aux.inode ip).ref - 1 → 0 < (s.aux.inode ip).ref := by omega
  exact R.put (R.table.set live rfl rfl fun h v => R.table.valid ip (live h) v)

end Rules

/-! ## Freeing an inode -/

section Free

variable {ι α : Type} [DecidableEq ι] {P : Policy} {i : ι} {sb : Superblock} {s : KSt ι}
variable {Q : α → KSt ι → Prop} {ip : IPtr} {K : Finset Nat} {m : Nat}

end Free

end Xv6.Fs
