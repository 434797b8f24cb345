import Xv6.Vm.Copy

/-!
# `allocproc` and `freeproc`

`Kernel.Sound` says how the memory is divided among the processes and the free pages. A slot that
could not be filled in gives every page back.
-/

namespace Xv6.Vm

open Bytes Fallible
open Xv6.Fs (PGSIZE)
open Xv6.Process (addInt)

variable {K : Symbols} {s s' : Kernel} {A : Fin NPROC → Set Nat} {F : Set Nat} {me i : Fin NPROC}
variable {P : Prop}

/-- A slot that nothing hangs from. -/
structure Proc.Clean (p : Proc) : Prop where
  pagetable : p.pagetable = 0
  trapframe : p.trapframe = 0
  sz : p.sz = 0
  ofile : ∀ fd, p.ofile fd = none

/-- A process name ends within its array. -/
def Terminated (name : Buffer 16) : Prop := ∃ o < 16, name.get o = 0

/-- `A i` are the pages of process `i`, with its trapframe; `F` are the free pages. -/
structure Kernel.Sound (s : Kernel) (K : Symbols) (A : Fin NPROC → Set Nat) (F : Set Nat) : Prop where
  free : Frees K s.mem F
  live : ∀ i, (s.proc i).state ≠ .unused → Terminated (s.proc i).name ∧
    ∃ r t N T, UserSpace K s.mem (s.proc i) r t N T ∧ A i = insert ((s.proc i).trapframe / PGSIZE) T
  unused : ∀ i, (s.proc i).state = .unused → (s.proc i).Clean ∧ A i = ∅
  apart : ∀ i, Disjoint (A i) F
  split : ∀ i j, i ≠ j → Disjoint (A i) (A j)
  files : ∀ i fd f, (s.proc i).ofile fd = some f → 1 ≤ s.fileRef f

namespace Kernel.Sound

theorem owns (sound : s.Sound K A F) (live : (s.proc i).state ≠ .unused) :
    ∃ r t N T, s.Owns K i r t N T F ∧ A i = insert ((s.proc i).trapframe / PGSIZE) T := by
  obtain ⟨-, r, t, N, T, user, all⟩ := sound.live i live
  have apart := sound.apart i
  rw [all] at apart
  refine ⟨r, t, N, T, ⟨user, sound.free, apart.mono_left (Set.subset_insert ..), ?_⟩, all⟩
  exact Set.disjoint_left.mp apart (.inl rfl)

/-- A live process is not affected by a change to free pages. -/
theorem user_frame {m' : Mem} {r : Nat} {t : Nat → Option (Nat × Nat)} {N T : Set Nat} {p : Proc}
    (user : UserSpace K s.mem p r t N T) (same : ∀ x ∈ T, m'.page x = s.mem.page x) :
    UserSpace K m' p r t N T :=
  ⟨user.root, user.img.frame fun x hx => same x (user.img.tables_sub hx), user.gap, user.top⟩

/-- Nor are its translations and bytes. -/
theorem memory_keep (sound : s.Sound K A F) (live : (s.proc i).state ≠ .unused)
    (only : Only F s.mem s'.mem) (proc : s'.proc i = s.proc i) :
    s'.tr i = s.tr i ∧ s'.byte i = s.byte i := by
  obtain ⟨r, t, N, T, own, -⟩ := sound.owns live
  have keep : ∀ x ∈ T, s'.mem.page x = s.mem.page x :=
    fun x hx => only x (Set.disjoint_left.mp own.apart hx)
  have user := user_frame own.user keep
  have tr : s'.tr i = t := by
    funext k
    rw [Kernel.tr, proc, own.user.root, base_div, user.img.space.trans]
  refine ⟨by rw [tr, own.tr_eq], ?_⟩
  funext a
  rw [Kernel.byte, tr, own.byte_eq]
  cases h : t (a / PGSIZE) with
  | none => rfl
  | some x =>
    obtain ⟨pa, f⟩ := x
    have page : pa / PGSIZE ∉ F := by
      by_cases low : a / PGSIZE < pages (s.proc i).sz
      · obtain ⟨p, g, hp, -⟩ := own.user.img.mapped _ low
        obtain ⟨rfl, -⟩ := some_inj (h.symm.trans hp)
        rw [base_div]
        exact Set.disjoint_left.mp own.apart (own.user.img.frames_sub (mem_frames low hp))
      · exact fun hF => own.page_apart h (by omega) (.inr hF)
    rw [Option.map_some, Option.map_some, only _ page]

end Kernel.Sound

/-! ## One slot -/

/-- The kernel `s` with other memory, another `nextpid` and another value in one slot. -/
def Kernel.slot (s : Kernel) (i : Fin NPROC) (m : Mem) (n : Int) (p : Proc) : Kernel :=
  { s with mem := m, nextpid := n, proc := Function.update s.proc i p }

section Slot

variable {m : Mem} {n : Int} {p : Proc}

@[simp] theorem slot_mem : (s.slot i m n p).mem = m := rfl

@[simp] theorem slot_proc : (s.slot i m n p).proc i = p := Function.update_self ..

theorem slot_proc_other {j : Fin NPROC} (h : j ≠ i) : (s.slot i m n p).proc j = s.proc j :=
  Function.update_of_ne h ..

theorem getProc_slot : getProc i (s.slot i m n p) = .ok (p, s.slot i m n p) := by
  rw [getProc, slot_proc]

theorem modifyProc_slot {f : Proc → Proc} :
    modifyProc i f (s.slot i m n p) = .ok ((), s.slot i m n (f p)) := by
  rw [modifyProc, slot_proc]
  simp only [Kernel.setProc, Kernel.slot, Function.update_idem]

theorem modifyProc_pid {f : Proc → Proc} :
    modifyProc i f { s with nextpid := n } = .ok ((), s.slot i s.mem n (f (s.proc i))) := rfl

theorem run_onMem_slot {α : Type} {x : Code α} {Q : α → Mem → Prop} (h : Meets x m P Q) :
    Meets (onMem x) (s.slot i m n p) P fun a s' => ∃ m', s' = s.slot i m' n p ∧ Q a m' :=
  run_onMem h

end Slot

/-! ## `freeproc` -/

/-- The page of a trapframe, if there is one. -/
def FrameOf (K : Symbols) (p : Proc) (R : Set Nat) : Prop :=
  p.trapframe = 0 ∧ R = ∅ ∨ ∃ q, p.trapframe = q * PGSIZE ∧ K.Ram q ∧ R = {q}

/-- The pages of a page table, if there is one. -/
def TableOf (K : Symbols) (m : Mem) (p : Proc) (R : Set Nat) : Prop :=
  p.pagetable = 0 ∧ R = ∅ ∨ ∃ r t N q, p.pagetable = r * PGSIZE ∧ Img K m r (pages p.sz) t N R ∧ Top K t q ∧
    ∀ j, pages p.sz ≤ j → j < NPAGES - 2 → t j = none

section Free

variable {m : Mem} {n : Int} {p : Proc} {R R' : Set Nat}

theorem run_freeTrapframe (frame : FrameOf K p R) (free : Frees K m F) (apart : Disjoint R F) :
    Meets (freeTrapframe K i) (s.slot i m n p) P fun _ s' => ∃ m', s' = s.slot i m' n p ∧
      Frees K m' (R ∪ F) ∧ Only R m m' := by
  refine Meets.step getProc_slot ?_
  rcases frame with ⟨null, rfl⟩ | ⟨q, page, ram, rfl⟩
  · rw [if_neg (not_not.mpr null), Set.empty_union]
    exact Meets.pure ⟨m, rfl, free, Only.refl⟩
  · have used : q ∉ F := Set.disjoint_left.mp apart rfl
    rw [if_pos (by rw [page]; exact ram.pos.ne'), page]
    exact run_onMem_slot (free.run_kfree ram used)

theorem run_freePagetable (table : TableOf K m p R) (free : Frees K m F) (apart : Disjoint R F) :
    Meets (freePagetable K i) (s.slot i m n p) P fun _ s' => ∃ m', s' = s.slot i m' n p ∧
      Frees K m' (R ∪ F) ∧ Only R m m' := by
  refine Meets.step getProc_slot ?_
  rcases table with ⟨null, rfl⟩ | ⟨r, t, N, q, root, img, top, gap⟩
  · rw [if_neg (not_not.mpr null), Set.empty_union]
    exact Meets.pure ⟨m, rfl, free, Only.refl⟩
  · have pos := (img.space.ram r img.space.root_mem).pos
    rw [if_pos (by rw [root]; exact pos.ne'), root]
    exact run_onMem_slot (run_procFreepagetable img free apart top gap)

theorem TableOf.frame {m' : Mem} (table : TableOf K m p R) (same : ∀ x ∈ R, m'.page x = m.page x) :
    TableOf K m' p R := by
  rcases table with null | ⟨r, t, N, q, root, img, top, gap⟩
  · exact .inl null
  · exact .inr ⟨r, t, N, q, root, img.frame fun x hx => same x (img.tables_sub hx), top, gap⟩

/-- `freeproc` gives back the pages of a process. -/
theorem run_freeproc (frame : FrameOf K p R) (table : TableOf K m p R') (free : Frees K m F)
    (apart : Disjoint (R ∪ R') F) (split : Disjoint R R') :
    Meets (freeproc K i) (s.slot i m n p) P fun _ s' => ∃ m',
      s' = s.slot i m' n { p.freed with trapframe := 0 } ∧ Frees K m' (R ∪ R' ∪ F) ∧ Only (R ∪ R') m m' := by
  obtain ⟨apartR, apartR'⟩ := Set.disjoint_union_left.mp apart
  refine Meets.bind (run_freeTrapframe frame free apartR) ?_
  rintro _ _ ⟨m₁, rfl, free₁, only₁⟩
  refine Meets.step modifyProc_slot ?_
  have table₁ : TableOf K m₁ { p with trapframe := 0 } R' :=
    table.frame fun x hx => only₁ x fun h => Set.disjoint_left.mp split h hx
  refine Meets.bind (run_freePagetable table₁ free₁ (Set.disjoint_union_right.mpr ⟨split.symm, apartR'⟩)) ?_
  rintro _ _ ⟨m₂, rfl, free₂, only₂⟩
  refine Meets.of_ok modifyProc_slot ⟨m₂, rfl, ?_, ?_⟩
  · rwa [← Set.union_assoc, Set.union_comm R'] at free₂
  · exact (only₁.mono Set.subset_union_left).trans (only₂.mono Set.subset_union_right)

end Free

/-! ## `allocproc` -/

/-- A call that failed: of the process table only a slot that was and is unused may differ, and
that as `freeproc` leaves it, and the free pages are free again. -/
structure Aborted (K : Symbols) (s s' : Kernel) (F : Set Nat) : Prop where
  table : ∀ i, s'.proc i = s.proc i ∨
    (s.proc i).state = .unused ∧ ∃ c, s'.proc i = { (s.proc i).freed with context := c }
  files : s'.fileRef = s.fileRef
  inodes : s'.inodeRef = s.inodeRef
  free : Frees K s'.mem F
  only : Only F s.mem s'.mem

section Alloc

variable {m : Mem} {n : Int} {p : Proc}

theorem Aborted.slot (unused : (s.proc i).state = .unused)
    (freed : ∃ c, p = { (s.proc i).freed with context := c }) (free : Frees K m F) (only : Only F s.mem m) :
    Aborted K s (s.slot i m n p) F := by
  refine ⟨fun j => ?_, rfl, rfl, free, only⟩
  by_cases h : j = i
  · subst h
    rw [slot_proc]
    exact .inr ⟨unused, freed⟩
  · exact .inl (slot_proc_other h)

/-- A slot that `allocproc` has filled in, with the pages that are left free. -/
structure Fresh (K : Symbols) (s : Kernel) (i : Fin NPROC) (m : Mem) (p : Proc) (q r : Nat)
    (t : Nat → Option (Nat × Nat)) (N F F' : Set Nat) : Prop where
  unused : (s.proc i).state = .unused
  slot : p = { s.proc i with
    pid := s.nextpid, state := .used, priority := 5, trapframe := q * PGSIZE, pagetable := r * PGSIZE
    context := Context.new K.forkret (s.proc i).kstack }
  img : Img K m r 0 t N N
  free : Frees K m F'
  apart : Disjoint N F'
  frame : K.Ram q
  outside : q ∉ N ∪ F'
  total : insert q (N ∪ F') = F
  only : Only F s.mem m
  top : Top K t q
  gap : ∀ j, j < NPAGES - 2 → t j = none

theorem findUnused_unused (h : s.findUnused = some i) : (s.proc i).state = .unused := by
  simpa using List.find?_some h

theorem run_allocproc (sound : s.Sound K A F) :
    Meets (allocproc K) s P fun a s' => a = none ∧ Aborted K s s' F ∨
      ∃ i m n p q r t N F', a = some i ∧ s' = s.slot i m n p ∧ Fresh K s i m p q r t N F F' := by
  refine Meets.step rfl ?_
  cases find : s.findUnused with
  | none => exact Meets.pure (.inl ⟨rfl, fun _ => .inl rfl, rfl, rfl, sound.free, Only.refl⟩)
  | some i =>
    have unused := findUnused_unused find
    obtain ⟨clean, -⟩ := sound.unused i unused
    have same : ∀ p : Proc, p.trapframe = 0 → p.freed = { p.freed with trapframe := 0 } := by
      rintro ⟨⟩ h
      cases h
      rfl
    refine Meets.step rfl ?_
    refine Meets.step modifyProc_pid ?_
    refine Meets.bind (run_onMem_slot sound.free.run_kalloc) ?_
    rintro _ _ ⟨m₁, rfl, ⟨rfl, rfl, -⟩ | ⟨q, hq, rfl, free₁, only₁⟩⟩
    · refine Meets.step modifyProc_slot ?_
      refine Meets.bind (run_freeproc (.inl ⟨rfl, rfl⟩) (.inl ⟨clean.pagetable, rfl⟩) sound.free ?_ ?_) ?_
      · simp
      · simp
      rintro _ _ ⟨m₂, rfl, free₂, only₂⟩
      rw [Set.empty_union, Set.empty_union] at free₂
      refine Meets.pure (.inl ⟨rfl, .slot unused ⟨(s.proc i).context, ?_⟩ free₂ ?_⟩)
      · rw [same _ clean.trapframe]
        rfl
      · exact only₂.mono (by simp)
    · have ram := sound.free.ram q hq
      have whole : ({q} : Set Nat) ∪ F \ {q} = F := Set.union_sdiff_cancel (Set.singleton_subset_iff.mpr hq)
      replace only₁ := only₁.mono (Set.singleton_subset_iff.mpr hq)
      refine Meets.step modifyProc_slot ?_
      refine Meets.bind (run_onMem_slot (run_procPagetable free₁ (ram.lt.trans (by decide)))) ?_
      rintro _ _ ⟨m₂, rfl, ⟨rfl, free₂, only₂⟩ | ⟨r, t, N, F', rfl, img, free₂, apart, total, only₂, top, gap⟩⟩
      · refine Meets.step modifyProc_slot ?_
        refine Meets.bind (run_freeproc (.inr ⟨q, rfl, ram, rfl⟩) (.inl ⟨rfl, rfl⟩) free₂ ?_ ?_) ?_
        · rw [Set.union_empty]
          exact Set.disjoint_sdiff_right
        · simp
        rintro _ _ ⟨m₃, rfl, free₃, only₃⟩
        rw [Set.union_empty] at only₃
        rw [Set.union_empty, whole] at free₃
        refine Meets.pure (.inl ⟨rfl, .slot unused ⟨(s.proc i).context, ?_⟩ free₃ ?_⟩)
        · rw [same _ clean.trapframe]
          rfl
        · exact (only₁.trans (only₂.mono Set.sdiff_subset)).trans
            (only₃.mono (Set.singleton_subset_iff.mpr hq))
      · refine Meets.step modifyProc_slot ?_
        refine Meets.pure (.inr ⟨i, m₂, _, _, q, r, t, N, F', rfl, rfl, ?_⟩)
        refine ⟨unused, rfl, img, free₂, apart, ram, ?_, ?_, ?_, top, gap⟩
        · rw [total]
          exact fun h => h.2 rfl
        · rw [total, ← Set.singleton_union, whole]
        · exact only₁.trans (only₂.mono Set.sdiff_subset)

end Alloc

end Xv6.Vm
