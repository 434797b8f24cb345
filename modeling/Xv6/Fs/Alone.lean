import Xv6.Fs.Syscall
import Xv6.Log.EndOp

/-!
# File system code of a process that runs alone

`Run` reads code of fs.c, file.c and sysfile.c as the log layer executes it for one process
while the others rest. There is one rule for each action. A buffer is taken by `bread`,
changed by `setData`, logged by `log_write` and given back by `brelse`; between functions
only the contents of blocks, the list of logged blocks and the tables of the file system
matter.
-/

namespace Xv6.Fs

open Interleave Log

/-- The state of the kernel. -/
abbrev KSt (ι : Type) : Type := St ι (FsSt ι)

section Rules

variable {ι α β : Type} [DecidableEq ι] {P : Policy} {i : ι} {s : KSt ι} {Q : α → KSt ι → Prop}
variable {h : Handle} {b : Nat} {d d' : Block}

/-- The process holds no buffer. -/
def Idle (s : KSt ι) : Prop := ∀ h, s.hold h = none

omit [DecidableEq ι] in
theorem Idle.unheld (idle : Idle s) (b : Nat) : s.Unheld b := by
  intro h j e
  rw [idle h] at e
  cases e

omit [DecidableEq ι] in
theorem Idle.held (idle : Idle s) : s.held = 0 := by
  have none : ∀ h, s.hold h = none := idle
  simp [St.held, none]

/-- The code comes to its end with `Q`, run by process `i` alone. -/
def Run (P : Policy) (i : ι) (p : FsCode ι α) (s : KSt ι) (Q : α → KSt ι → Prop) : Prop :=
  Ensures fsExec P i p s Q

/-- No run may end early. -/
def strict : Policy where
  admits _ _ := True
  excuses _ := False
  waits := False

/-- Every modified buffer is locked or in the log. -/
abbrev Calm (s : KSt ι) : Prop := Settled s.log.lh s

@[simp] theorem run_pure {x : α} : Run P i (pure x : FsCode ι α) s Q ↔ Q x s := Iff.rfl

theorem run_bind {p : FsCode ι β} {f : β → FsCode ι α} :
    Run P i (p >>= f) s Q ↔ Run P i p s (fun x s' => Run P i (f x) s' Q) := by
  rw [Run, Ensures, Ends, Prog.interp_bind, Prog.must_bind]
  rfl

theorem Run.mono {p : FsCode ι α} {Q' : α → KSt ι → Prop} (h : Run P i p s Q)
    (weaker : ∀ x s', Q x s' → Q' x s') : Run P i p s Q' :=
  Prog.must_mono h weaker

theorem Run.seq {p : FsCode ι β} {f : β → FsCode ι α} {R : β → KSt ι → Prop}
    (first : Run P i p s R) (second : ∀ x s', R x s' → Run P i (f x) s' Q) :
    Run P i (p >>= f) s Q :=
  run_bind.mpr (first.mono second)

theorem run_panic_bind {msg : String} {f : β → FsCode ι α} (excused : P.excuses msg) :
    Run P i ((panic msg : FsCode ι β) >>= f) s Q :=
  Or.inl excused

theorem run_bread {f : Handle → FsCode ι α} (calm : Calm s) (seat : P.Seat s b)
    (unheld : s.Unheld b)
    (rest : ∀ h, s.hold h = none → Run P i (f h) (s.edit i h b (s.cache b)) Q) :
    Run P i (bread b >>= f) s Q :=
  ends_bread calm seat unheld rest

theorem run_getData {f : Block → FsCode ι α} (calm : Calm s) (free : s.hold h = none)
    (rest : Run P i (f d) (s.edit i h b d) Q) :
    Run P i (getData h >>= f) (s.edit i h b d) Q :=
  ends_getData calm free rest

theorem run_setData {f : Unit → FsCode ι α} (calm : Calm s) (free : s.hold h = none)
    (rest : Run P i (f ()) (s.edit i h b d') Q) :
    Run P i (setData h d' >>= f) (s.edit i h b d) Q :=
  ends_setData calm free rest

theorem run_logWrite {f : Unit → FsCode ι α} (calm : Calm s) (free : s.hold h = none)
    (takes : P.Takes s.log b)
    (rest : s.log.HasRoom → Run P i (f ()) ((s.store b d).edit i h b d) Q) :
    Run P i (logWrite h >>= f) (s.edit i h b d) Q :=
  ends_logWrite calm free takes rest

theorem run_brelse {f : Unit → FsCode ι α} (calm : Calm s) (free : s.hold h = none)
    (same : d = s.cache b) (rest : Run P i (f ()) s Q) :
    Run P i (brelse h >>= f) (s.edit i h b d) Q :=
  ends_brelse calm free same rest

/-- `log_write` and `brelse` of a buffer that was modified. -/
theorem run_log {f : Unit → FsCode ι α} (calm : Calm s) (free : s.hold h = none)
    (takes : P.Takes s.log b) (rest : s.log.HasRoom → Run P i (f ()) (s.store b d) Q) :
    Run P i (logWrite h >>= fun _ => brelse h >>= f) (s.edit i h b d) Q :=
  run_logWrite calm free takes fun room => run_brelse calm.store free (by simp) (rest room)

/-- An action of the file system itself. -/
theorem run_fs {x : FsAct ι} {f : FsRes x → FsCode ι α} (calm : Calm s)
    (enabled : P.waits ∨ ∃ r t, fsExec i x s.aux r t)
    (rest : ∀ r t, fsExec i x s.aux r t → Run P i (f r) { s with aux := t } Q) :
    Run P i (fs x >>= f) s Q := by
  by_cases can : ∃ r t, fsExec i x s.aux r t
  · obtain ⟨r, t, step⟩ := can
    refine ends_req calm trivial ⟨r, _, ⟨t, step, rfl⟩, trivial⟩ ?_
    rintro r s' ⟨t, step, rfl⟩ -
    exact rest r t step
  · refine Or.inl ⟨enabled.resolve_right can, ?_⟩
    rintro r s' ⟨⟨s₁, recycled, t, step, -⟩, -⟩
    obtain rfl := calm.recycled recycled
    exact can ⟨r, t, step⟩

theorem run_beginOp {f : Unit → FsCode ι α} (calm : Calm s)
    (enabled : P.waits ∨ s.log.admits = true)
    (rest : s.log.admits = true → Run P i (f ()) { s with log := s.log.beginOp } Q) :
    Run P i (beginOp >>= f) s Q := by
  by_cases admits : s.log.admits = true
  · refine ends_req calm trivial ⟨(), _, ⟨admits, rfl⟩, trivial⟩ ?_
    rintro r s' ⟨-, rfl⟩ -
    exact rest admits
  · refine Or.inl ⟨enabled.resolve_right admits, ?_⟩
    rintro r s' ⟨⟨s₁, recycled, step, -⟩, -⟩
    obtain rfl := calm.recycled recycled
    exact admits step

/-- `end_op` of the only operation there is. -/
theorem run_endOp {f : Unit → FsCode ι α} (closing : Closing P s) (calm : Calm s)
    (last : s.log.outstanding = 1) (quiet : s.log.committing = false)
    (rest : ∀ s', Closed s { s.log with outstanding := 0, lh := [] } s' → Run P i (f ()) s' Q) :
    Run P i (endOp >>= f) s Q :=
  ends_endOp closing calm last quiet rest

/-! ## Inodes in memory -/

/-- The fields that the lock of an inode protects are set. -/
def putDin (s : KSt ι) (ip : IPtr) (din : Dinode) : KSt ι :=
  { s with aux := s.aux.setInode ip { s.aux.inode ip with din := din } }

theorem run_info {ip : IPtr} {f : Info → FsCode ι α} (calm : Calm s)
    (rest : Run P i (f (s.aux.inode ip).info) s Q) : Run P i (info ip >>= f) s Q := by
  refine run_fs calm (Or.inr ⟨_, _, rfl, rfl⟩) ?_
  rintro r t ⟨rfl, rfl⟩
  exact rest

theorem run_setDin {ip : IPtr} {din : Dinode} {f : Unit → FsCode ι α} (calm : Calm s)
    (rest : Run P i (f ()) (putDin s ip din) Q) : Run P i (setDin ip din >>= f) s Q := by
  refine run_fs calm (Or.inr ⟨(), _, rfl⟩) ?_
  rintro r t rfl
  exact rest

omit [DecidableEq ι] in
theorem putDin_inode {ip : IPtr} {din : Dinode} :
    (putDin s ip din).aux.inode ip = { s.aux.inode ip with din := din } := by
  simp [putDin, FsSt.setInode]

omit [DecidableEq ι] in
theorem putDin_putDin {ip : IPtr} {din din' : Dinode} :
    putDin (putDin s ip din) ip din' = putDin s ip din' := by
  simp [putDin, FsSt.setInode]

omit [DecidableEq ι] in
theorem putDin_self {ip : IPtr} : putDin s ip (s.aux.inode ip).din = s := by
  simp only [putDin, FsSt.setInode, Function.update_eq_self]

omit [DecidableEq ι] in
theorem Calm.putDin {ip : IPtr} {din : Dinode} (calm : Calm s) : Calm (putDin s ip din) :=
  calm.aux

end Rules

end Xv6.Fs
