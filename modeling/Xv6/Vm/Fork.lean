import Mathlib
import Xv6.Vm.Alloc

/-!
# `fork`

A `fork` that succeeds gives the child a copy of the parent's memory and a reference to each of
its files; one that fails, at any point, gives every page back.
-/

namespace Xv6.Vm

open Bytes Fallible
open Xv6.Fs (PGSIZE)

variable {K : Symbols} {s s' : Kernel} {A : Fin NPROC → Set Nat} {F : Set Nat} {me i : Fin NPROC}
variable {m : Mem} {n : Int} {p c : Proc} {P : Prop}

/-! ## The name -/

/-- The string in a name. -/
def cstr (name : Buffer 16) : List UInt8 := (name.slice 0 16).takeWhile (· ≠ 0)

theorem strFrom_eq {src : Buffer 16} {k o : Nat} :
    strFrom src k o = (src.slice o k).takeWhile (· ≠ 0) ++ [0] := by
  induction k generalizing o with
  | zero => rfl
  | succ k ih =>
    rw [strFrom, Buffer.slice_succ, List.takeWhile_cons]
    split
    case isTrue zero => simp [zero]
    case isFalse more => simp [more, ih]

theorem takeWhile_stop {l r : List UInt8} :
    (l.takeWhile (· ≠ 0) ++ 0 :: r).takeWhile (· ≠ 0) = l.takeWhile (· ≠ 0) := by
  induction l with
  | nil => simp
  | cons x l ih =>
    rw [List.takeWhile_cons]
    split
    case isTrue h => rw [List.cons_append, List.takeWhile_cons, if_pos h, ih]
    case isFalse => simp

/-- A string that ends in the last byte or before does not lose it. -/
theorem cstr_eq {name : Buffer 16} (h : Terminated name) : cstr name = (name.slice 0 15).takeWhile (· ≠ 0) := by
  obtain ⟨o, ho, zero⟩ := h
  rw [cstr, Buffer.slice_add (j := 15) (k := 1), List.takeWhile_append]
  split
  case isTrue all =>
    have whole : (name.slice 0 15).takeWhile (· ≠ 0) = name.slice 0 15 :=
      (List.takeWhile_prefix _).eq_of_length all
    have last : name.get 15 = 0 := by
      by_cases h : o = 15
      · rw [← h]
        exact zero
      · have mem : name.get o ∈ name.slice 0 15 := by
          refine List.mem_map.mpr ⟨o, List.mem_range.mpr (by omega), ?_⟩
          rw [Nat.zero_add]
        have := List.takeWhile_eq_self_iff.mp whole _ mem
        simp [zero] at this
    rw [whole]
    simp [Buffer.slice, last]
  case isFalse => rfl

theorem strFrom_length (src : Buffer 16) (k o : Nat) : (strFrom src k o).length ≤ k + 1 := by
  rw [strFrom_eq, List.length_append, List.length_singleton]
  have := (List.takeWhile_prefix (fun x : UInt8 => decide (x ≠ 0)) (l := src.slice o k)).length_le
  rw [Buffer.length_slice] at this
  omega

/-- `safestrcpy` copies a name. -/
theorem cstr_safestrcpy {dst src : Buffer 16} (h : Terminated src) : cstr (safestrcpy dst src) = cstr src := by
  have fits := strFrom_length src 15 0
  obtain ⟨rest, split⟩ : ∃ rest, (safestrcpy dst src).slice 0 16 = strFrom src 15 0 ++ rest := by
    obtain ⟨k, size⟩ : ∃ k, 16 = (strFrom src 15 0).length + k := ⟨16 - (strFrom src 15 0).length, by omega⟩
    refine ⟨(safestrcpy dst src).slice (0 + (strFrom src 15 0).length) k, ?_⟩
    refine (congrArg _ size).trans (Buffer.slice_add.trans ?_)
    rw [safestrcpy, Buffer.slice_put_same (by omega)]
  rw [cstr, split, strFrom_eq, List.append_assoc, List.singleton_append, takeWhile_stop, cstr_eq h]

theorem terminated_safestrcpy {dst src : Buffer 16} : Terminated (safestrcpy dst src) := by
  have fits := strFrom_length src 15 0
  have pos : 0 < (strFrom src 15 0).length := by simp [strFrom_eq]
  refine ⟨(strFrom src 15 0).length - 1, by omega, ?_⟩
  have last := Buffer.get_put_of_mem (d := dst) (o := 0) (l := strFrom src 15 0)
    (j := (strFrom src 15 0).length - 1) (by omega) (by omega)
  rw [Nat.zero_add] at last
  rw [safestrcpy, last]
  simp [strFrom_eq]

/-! ## The open files -/

/-- How many of the descriptors refer to a file. -/
def refsTo (p : Proc) (fds : List (Fin NOFILE)) (f : Nat) : Nat := fds.countP fun fd => p.ofile fd = some f

/-- The files of `p` at the given descriptors, and else those of `c`. -/
def inherit (p c : Proc) (fds : List (Fin NOFILE)) (fd : Fin NOFILE) : Option Nat :=
  if fd ∈ fds then (p.ofile fd).or (c.ofile fd) else c.ofile fd

theorem filedup_slot {f : Nat} (open_ : 1 ≤ s.fileRef f) : filedup f (s.slot i m n c) =
    .ok ((), { s with fileRef := Function.update s.fileRef f (s.fileRef f + 1) }.slot i m n c) :=
  if_neg (Nat.not_lt.mpr open_)

theorem dupFiles_slot {fds : List (Fin NOFILE)} (opened : ∀ fd f, p.ofile fd = some f → 1 ≤ s.fileRef f) :
    dupFiles p i fds (s.slot i m n c) = .ok ((),
      { s with fileRef := fun f => s.fileRef f + refsTo p fds f }.slot i m n { c with ofile := inherit p c fds }) := by
  induction fds generalizing s c with
  | nil => rfl
  | cons fd fds ih =>
    rw [dupFiles]
    cases file : p.ofile fd with
    | none =>
      refine (ih opened).trans ?_
      have refs : refsTo p (fd :: fds) = refsTo p fds := by
        funext f
        simp [refsTo, file]
      have files : inherit p c (fd :: fds) = inherit p c fds := by
        funext x
        by_cases h : x = fd
        · subst h
          simp [inherit, file]
        · simp [inherit, h]
      rw [refs, files]
    | some f =>
      refine (bind_ok (filedup_slot (opened fd f file))).trans ((bind_ok modifyProc_slot).trans ?_)
      refine (ih fun x g hx => ?_).trans ?_
      · have := opened x g hx
        by_cases h : g = f
        · subst h
          simp
        · simpa [Function.update_of_ne h] using this
      have refs : (fun g => Function.update s.fileRef f (s.fileRef f + 1) g + refsTo p fds g) =
          fun g => s.fileRef g + refsTo p (fd :: fds) g := by
        funext g
        by_cases h : g = f
        · subst h
          simp [refsTo, file]
          omega
        · simp [refsTo, file, Function.update_of_ne h, Ne.symm h]
      have files : inherit p { c with ofile := Function.update c.ofile fd (some f) } fds =
          inherit p c (fd :: fds) := by
        funext x
        by_cases h : x = fd
        · subst h
          simp [inherit, file]
        · simp [inherit, h]
      simp only [refs, files]

theorem inherit_all (h : ∀ fd, c.ofile fd = none) : inherit p c (List.finRange NOFILE) = p.ofile := by
  funext fd
  simp [inherit, h, List.mem_finRange]

/-! ## The saved registers -/

section Registers

variable {q o : Nat}

/-- What `copyTrapframe` leaves. -/
def Mem.forkFrame (m : Mem) (q src : Nat) : Mem :=
  (m.put (q * PGSIZE) ((m.page src).slice 0 TRAPFRAMESIZE)).put64 (q * PGSIZE + A0) 0

theorem copyTrapframe_run {src : Nat} :
    copyTrapframe (q * PGSIZE) (src * PGSIZE) m = .ok ((), m.forkFrame q src) := by
  rw [copyTrapframe, base_div, base_mod]
  rfl

theorem forkFrame_eq {src : Nat} : m.forkFrame q src =
    (m.put (q * PGSIZE + 0) ((m.page src).slice 0 TRAPFRAMESIZE)).put (q * PGSIZE + A0) (leBytes 8 0) := by
  rw [Nat.add_zero]
  rfl

theorem forkFrame_only {src : Nat} : Only {q} m (m.forkFrame q src) := by
  rw [forkFrame_eq]
  exact (only_put (by decide)).trans (only_put (by decide))

/-- The registers of the child are those of the parent, but for `a0`. -/
theorem forkFrame_get {src : Nat} (ho : o < TRAPFRAMESIZE) :
    ((m.forkFrame q src).page q).get o = if A0 ≤ o ∧ o < A0 + 8 then 0 else (m.page src).get o := by
  have zero : leBytes 8 0 = List.replicate 8 0 := rfl
  rw [forkFrame_eq, put_page_same (by decide), put_page_same (by decide), zero]
  simp only [TRAPFRAMESIZE] at ho
  split
  case isTrue here =>
    obtain ⟨j, rfl⟩ := Nat.exists_eq_add_of_le here.1
    have hj : j < (List.replicate 8 (0 : UInt8)).length := by
      rw [List.length_replicate]
      omega
    rw [Buffer.get_put_of_mem hj (by simp only [PGSIZE]; omega), List.getElem_replicate]
  case isFalse other =>
    rw [Buffer.get_put_of_not_mem (by rw [List.length_replicate]; omega)]
    have copied := Buffer.get_put_of_mem (d := m.page q) (o := 0) (l := (m.page src).slice 0 TRAPFRAMESIZE)
      (j := o) (by rw [Buffer.length_slice]; exact ho) (by simp only [PGSIZE]; omega)
    rw [Nat.zero_add] at copied
    rw [copied]
    simp [Buffer.slice]

end Registers

/-! ## The whole call -/

/-- The process `np` is a copy of `me`. -/
structure Forked (s s' : Kernel) (me np : Fin NPROC) : Prop where
  unused : (s.proc np).state = .unused
  others : ∀ i, i ≠ np → s'.proc i = s.proc i
  child : (s'.proc np).state = .runnable ∧ (s'.proc np).parent = some me
  size : (s'.proc np).sz = (s.proc me).sz
  page : ∀ k < pages (s.proc me).sz, ∃ pa pa' f, s.tr me k = some (pa, f) ∧ s'.tr np k = some (pa', f) ∧
    pa' ≠ pa ∧ s'.mem.page (pa' / PGSIZE) = s.mem.page (pa / PGSIZE)
  registers : ∀ o < TRAPFRAMESIZE, (s'.mem.page ((s'.proc np).trapframe / PGSIZE)).get o =
    if A0 ≤ o ∧ o < A0 + 8 then 0 else (s.mem.page ((s.proc me).trapframe / PGSIZE)).get o
  name : cstr (s'.proc np).name = cstr (s.proc me).name
  priority : (s'.proc np).priority = (s.proc me).priority
  ofile : (s'.proc np).ofile = (s.proc me).ofile
  cwd : (s'.proc np).cwd = (s.proc me).cwd
  fileRef : ∀ f, s'.fileRef f = s.fileRef f + refsTo (s.proc me) (List.finRange NOFILE) f
  inodeRef : ∀ ip, s'.inodeRef ip = s.inodeRef ip + if (s.proc me).cwd = some ip then 1 else 0

/-- The memory of every process is as it was. -/
def SameMemory (s s' : Kernel) : Prop :=
  ∀ i, (s.proc i).state ≠ .unused → s'.tr i = s.tr i ∧ s'.byte i = s.byte i

theorem Kernel.Sound.sameMemory (sound : s.Sound K A F) (only : Only F s.mem s'.mem)
    (proc : ∀ i, (s.proc i).state ≠ .unused → s'.proc i = s.proc i) : SameMemory s s' :=
  fun i live => sound.memory_keep live only (proc i live)

/-- A process that was there keeps its pages when only free pages change. -/
theorem Kernel.Sound.live_keep (sound : s.Sound K A F) (only : Only F s.mem s'.mem)
    (proc : s'.proc i = s.proc i) (live : (s.proc i).state ≠ .unused) : Terminated (s'.proc i).name ∧
      ∃ r t N T, UserSpace K s'.mem (s'.proc i) r t N T ∧ A i = insert ((s'.proc i).trapframe / PGSIZE) T := by
  obtain ⟨name, r, t, N, T, user, all⟩ := sound.live i live
  have apart := sound.apart i
  rw [all] at apart
  rw [proc]
  refine ⟨name, r, t, N, T, Kernel.Sound.user_frame user fun x hx => only x ?_, all⟩
  exact Set.disjoint_left.mp apart (.inr hx)

namespace Aborted

theorem live_same (failed : Aborted K s s' F) (live : (s.proc i).state ≠ .unused) : s'.proc i = s.proc i := by
  rcases failed.table i with same | ⟨unused, -⟩
  · exact same
  · exact absurd unused live

theorem unused_iff (failed : Aborted K s s' F) : (s'.proc i).state = .unused ↔ (s.proc i).state = .unused := by
  rcases failed.table i with same | ⟨unused, c, freed⟩
  · rw [same]
  · rw [freed]
    exact ⟨fun _ => unused, fun _ => rfl⟩

theorem keeps_sound (failed : Aborted K s s' F) (sound : s.Sound K A F) : s'.Sound K A F := by
  refine ⟨failed.free, ?_, ?_, sound.apart, sound.split, ?_⟩
  · intro i live
    have before := failed.unused_iff.not.mp live
    exact sound.live_keep failed.only (failed.live_same before) before
  · intro i unused
    obtain ⟨clean, none⟩ := sound.unused i (failed.unused_iff.mp unused)
    refine ⟨?_, none⟩
    rcases failed.table i with same | ⟨-, c, freed⟩
    · rwa [same]
    · rw [freed]
      exact ⟨rfl, clean.trapframe, rfl, clean.ofile⟩
  · intro i fd f file
    rw [failed.files]
    refine sound.files i fd f ?_
    rcases failed.table i with same | ⟨-, c, freed⟩
    · rwa [same] at file
    · rwa [freed] at file

end Aborted

/-- The memory of a child that was given a copy of the pages `old` of the parent. -/
structure Child (K : Symbols) (m m' : Mem) (q r b : Nat) (old t : Nat → Option (Nat × Nat)) (N T F F' : Set Nat) :
    Prop where
  img : Img K m' r b t N T
  free : Frees K m' F'
  apart : Disjoint T F'
  frame : K.Ram q
  outside : q ∉ T ∪ F'
  total : insert q (T ∪ F') = F
  only : Only F m m'
  top : Top K t q
  gap : ∀ j, b ≤ j → j < NPAGES - 2 → t j = none
  page : ∀ k < b, ∃ x y f, old k = some (y * PGSIZE, f) ∧ t k = some (x * PGSIZE, f) ∧ x ∈ T ∧ m'.page x = m.page y

section Success

variable {r q ro : Nat} {t old : Nat → Option (Nat × Nat)} {N F' No To : Set Nat}

theorem Fresh.child {sz : Nat} (fresh : Fresh K s i m p q r t N F F') (src : Nat) {m₂ : Mem}
    (img : Img K s.mem ro (pages sz) old No To) (away : Disjoint To F)
    (copied : Extended K m m₂ r 0 (pages sz) t N N F' (pageOf m old)) :
    ∃ t' N' T' F'', Child K s.mem (m₂.forkFrame q src) q r (pages sz) old t' N' T' F F'' := by
  obtain ⟨t', N', T', F'', img', free', apart', total', only', same, page⟩ := copied
  rw [Nat.max_eq_right (Nat.zero_le _)] at img'
  have outside : q ∉ T' ∪ F'' := by
    rw [total']
    exact fresh.outside
  have total : insert q (T' ∪ F'') = F := by rw [total', fresh.total]
  have keep : ∀ x, x ∈ T' ∪ F'' → (m₂.forkFrame q src).page x = m₂.page x :=
    fun x hx => forkFrame_only x fun (e : x = q) => outside (e ▸ hx)
  have high : pages sz ≤ NPAGES - 2 := img'.le_ram.trans (by decide)
  have inF : q ∈ F := by
    rw [← total]
    exact .inl rfl
  have sub : N ∪ F' ⊆ F := by
    rw [← fresh.total]
    exact Set.subset_insert ..
  refine ⟨t', N', T', F'', img'.frame fun x hx => keep x (.inl (img'.tables_sub hx)),
    free'.frame rfl fun x hx => keep x (.inr hx), apart', fresh.frame, outside, total, ?_, ⟨?_, ?_⟩, ?_, ?_⟩
  · exact (fresh.only.trans (only'.mono sub)).trans (forkFrame_only.mono (Set.singleton_subset_iff.mpr inF))
  · rw [same _ (by omega)]
    exact fresh.top.trampoline
  · rw [same _ (by omega)]
    exact fresh.top.trapframe
  · intro j low below
    rw [same j (by omega)]
    exact fresh.gap j below
  · intro k hk
    obtain ⟨y, f, mapped, -⟩ := img.mapped k hk
    obtain ⟨x, -, entry, content⟩ := page k (Nat.zero_le k) hk
    rw [pageOf_some mapped] at entry content
    have mine : x ∈ T' := img'.frames_sub (mem_frames hk entry)
    have theirs : y ∉ F := Set.disjoint_left.mp away (img.frames_sub (mem_frames hk mapped))
    refine ⟨x, y, f, mapped, entry, mine, ?_⟩
    rw [keep x (.inl mine), content, fresh.only y theirs]

/-- The fields of a child whose parent is `me`. -/
def Proc.child (c p : Proc) (me : Fin NPROC) : Proc :=
  { c with
    sz := p.sz, ofile := p.ofile, cwd := p.cwd, name := safestrcpy c.name p.name, priority := p.priority
    parent := some me, state := .runnable }

/-- The kernel after a `fork` of `me` into a slot that held `c`. -/
def Kernel.forked (s : Kernel) (me np : Fin NPROC) (m : Mem) (n : Int) (c : Proc) : Kernel :=
  { s with
    fileRef := fun f => s.fileRef f + refsTo (s.proc me) (List.finRange NOFILE) f
    inodeRef := fun ip => s.inodeRef ip + if (s.proc me).cwd = some ip then 1 else 0 }.slot np m n
      (c.child (s.proc me) me)

theorem forked_proc : (s.forked me i m n c).proc i = c.child (s.proc me) me := Function.update_self ..

theorem forked_proc_other {j : Fin NPROC} (h : j ≠ i) : (s.forked me i m n c).proc j = s.proc j :=
  Function.update_of_ne h ..

variable {T : Set Nat}

theorem Child.user (child : Child K s.mem m q r (pages (s.proc me).sz) old t N T F F')
    (root : c.pagetable = r * PGSIZE) (frame : c.trapframe = q * PGSIZE) :
    UserSpace K m (c.child (s.proc me) me) r t N T :=
  ⟨root, child.img, child.gap, q, frame, child.frame, fun h => child.outside (.inl h), child.top⟩

/-- The pages of the child were free. -/
theorem Child.sub {b : Nat} {m₀ : Mem} (child : Child K m₀ m q r b old t N T F F') : insert q T ⊆ F ∧ F' ⊆ F := by
  rw [← child.total]
  exact ⟨Set.insert_subset_insert Set.subset_union_left, Set.subset_union_right.trans (Set.subset_insert ..)⟩

theorem forked_sound (sound : s.Sound K A F)
    (child : Child K s.mem m q r (pages (s.proc me).sz) old t N T F F')
    (root : c.pagetable = r * PGSIZE) (frame : c.trapframe = q * PGSIZE) :
    (s.forked me i m n c).Sound K (Function.update A i (insert q T)) F' := by
  obtain ⟨mine, left⟩ := child.sub
  have apart : Disjoint (insert q T) F' := by
    refine Set.disjoint_left.mpr fun x hx hF => ?_
    rcases hx with rfl | hT
    · exact child.outside (.inr hF)
    · exact Set.disjoint_left.mp child.apart hT hF
  refine ⟨child.free, ?_, ?_, ?_, ?_, ?_⟩
  · intro j used
    by_cases h : j = i
    · subst h
      rw [forked_proc, Function.update_self]
      refine ⟨terminated_safestrcpy, r, t, N, T, child.user root frame, ?_⟩
      change insert q T = insert (c.trapframe / PGSIZE) T
      rw [frame, base_div]
    · rw [forked_proc_other h] at used
      rw [Function.update_of_ne h]
      exact sound.live_keep child.only (forked_proc_other h) used
  · intro j unused
    by_cases h : j = i
    · subst h
      rw [forked_proc] at unused
      cases unused
    · rw [forked_proc_other h] at unused ⊢
      rw [Function.update_of_ne h]
      exact sound.unused j unused
  · intro j
    by_cases h : j = i
    · subst h
      rwa [Function.update_self]
    · rw [Function.update_of_ne h]
      exact (sound.apart j).mono_right left
  · have new : ∀ j, j ≠ i → Disjoint (A j) (insert q T) := fun j _ => (sound.apart j).mono_right mine
    intro j k other
    by_cases hj : j = i
    · subst hj
      rw [Function.update_self, Function.update_of_ne other.symm]
      exact (new k other.symm).symm
    · rw [Function.update_of_ne hj]
      by_cases hk : k = i
      · subst hk
        rw [Function.update_self]
        exact new j hj
      · rw [Function.update_of_ne hk]
        exact sound.split j k other
  · intro j fd f file
    have known : 1 ≤ s.fileRef f := by
      by_cases h : j = i
      · subst h
        rw [forked_proc] at file
        exact sound.files me fd f file
      · rw [forked_proc_other h] at file
        exact sound.files j fd f file
    exact known.trans (Nat.le_add_right ..)

theorem forked_forked {src : Nat} {m₂ : Mem} (sound : s.Sound K A F) (live : (s.proc me).state ≠ .unused)
    (own : s.Owns K me ro old No To F) (unused : (s.proc i).state = .unused)
    (child : Child K s.mem (m₂.forkFrame q src) q r (pages (s.proc me).sz) old t N T F F')
    (root : c.pagetable = r * PGSIZE) (frame : c.trapframe = q * PGSIZE)
    (saved : (s.proc me).trapframe = src * PGSIZE) (same : m₂.page src = s.mem.page src) :
    Forked s (s.forked me i (m₂.forkFrame q src) n c) me i := by
  refine ⟨unused, fun j h => forked_proc_other h, ?_, ?_, ?_, ?_, ?_, ?_, ?_, ?_, fun _ => rfl, fun _ => rfl⟩
  · rw [forked_proc]
    exact ⟨rfl, rfl⟩
  · rw [forked_proc]
    rfl
  · intro k hk
    obtain ⟨x, y, f, theirs, mine, inT, page⟩ := child.page k hk
    refine ⟨y * PGSIZE, x * PGSIZE, f, ?_, ?_, ?_, ?_⟩
    · rw [own.tr_eq, theirs]
    · rw [Kernel.tr, forked_proc]
      change Mem.tr (m₂.forkFrame q src) (c.pagetable / PGSIZE) k = _
      rw [root, base_div, child.img.space.trans, mine]
    · intro e
      have parent : y ∈ To := own.user.img.frames_sub (mem_frames hk theirs)
      rw [← base_inj e] at parent
      exact Set.disjoint_left.mp own.apart parent (child.sub.1 (.inr inT))
    · rw [base_div, base_div]
      exact page
  · intro o ho
    rw [forked_proc]
    change Buffer.get (Mem.page (m₂.forkFrame q src) (c.trapframe / PGSIZE)) o = _
    rw [frame, saved, base_div, base_div, forkFrame_get ho, same]
  · rw [forked_proc]
    exact cstr_safestrcpy (sound.live me live).1
  · rw [forked_proc]
    rfl
  · rw [forked_proc]
    rfl
  · rw [forked_proc]
    rfl

end Success

theorem idup_slot {ip : Nat} : idup ip (s.slot i m n c) =
    .ok ((), { s with inodeRef := Function.update s.inodeRef ip (s.inodeRef ip + 1) }.slot i m n c) := rfl

theorem onMem_slot {α : Type} {x : Code α} {a : α} {m' : Mem} (h : x m = .ok (a, m')) :
    onMem x (s.slot i m n c) = .ok (a, s.slot i m' n c) := by
  rw [onMem, slot_mem, h]
  rfl

theorem getProc_slot_other {j : Fin NPROC} (h : j ≠ i) :
    getProc j (s.slot i m n c) = .ok (s.proc j, s.slot i m n c) := by
  rw [getProc, slot_proc_other h]

theorem inodeRef_raised {ip : Nat} (cwd : p.cwd = some ip) : Function.update s.inodeRef ip (s.inodeRef ip + 1) =
    fun x => s.inodeRef x + if p.cwd = some x then 1 else 0 := by
  funext x
  by_cases h : x = ip
  · subst h
    rw [Function.update_self, if_pos cwd]
  · rw [Function.update_of_ne h, if_neg (by rw [cwd]; exact fun e => h (Option.some.inj e).symm), Nat.add_zero]

section Steps

variable {r q src : Nat} {t : Nat → Option (Nat × Nat)} {N F' : Set Nat} {m₁ : Mem}

/-- A child without memory of its own is given up. -/
theorem run_fork_undo (sound : s.Sound K A F) (fresh : Fresh K s i m₁ c q r t N F F')
    (refused : Refused K m₁ m r 0 0 t N N F') :
    Meets (freeproc K i) (s.slot i m n c) P fun _ s' => Aborted K s s' F := by
  obtain ⟨N', T', F'', img, free, apart, total, only⟩ := refused
  rw [erase_none le_rfl] at img
  rw [frames_none le_rfl, Set.union_empty] at only
  obtain ⟨clean, -⟩ := sound.unused i fresh.unused
  have slot := fresh.slot
  have outside : q ∉ T' ∪ F'' := by
    rw [total]
    exact fresh.outside
  have whole : {q} ∪ T' ∪ F'' = F := by
    rw [Set.union_assoc, total, Set.singleton_union, fresh.total]
  have sub : N ∪ F' ⊆ F := by
    rw [← fresh.total]
    exact Set.subset_insert ..
  have table : TableOf K m c T' := by
    refine .inr ⟨r, t, N', q, by rw [slot], ?_, fresh.top, fun j _ => fresh.gap j⟩
    have none : pages c.sz = 0 := by
      rw [slot]
      change pages (s.proc i).sz = 0
      rw [clean.sz]
      rfl
    rw [none]
    exact img
  refine (run_freeproc (.inr ⟨q, by rw [slot], fresh.frame, rfl⟩) table free ?_ ?_).mono ?_
  · refine Set.disjoint_union_left.mpr ⟨?_, apart⟩
    exact Set.disjoint_singleton_left.mpr fun h => outside (.inr h)
  · exact Set.disjoint_singleton_left.mpr fun h => outside (.inl h)
  · rintro _ _ ⟨m₃, rfl, free₃, only₃⟩
    rw [whole] at free₃
    refine .slot fresh.unused ⟨Context.new K.forkret (s.proc i).kstack, ?_⟩ free₃ ?_
    · rw [slot, Proc.freed, Proc.freed, clean.trapframe]
    · refine (fresh.only.trans (only.mono sub)).trans (only₃.mono ?_)
      rw [← whole]
      exact Set.subset_union_left

end Steps

/-- What `fork` can do. -/
theorem run_fork (sound : s.Sound K A F) (live : (s.proc me).state ≠ .unused) (cwd : (s.proc me).cwd ≠ none) :
    Meets (fork K me) s P fun res s' => SameMemory s s' ∧
      (res = -1 ∧ Aborted K s s' F ∨
        res = s.nextpid ∧ ∃ np A' F', Forked s s' me np ∧ s'.Sound K A' F') := by
  obtain ⟨ro, old, No, To, own, -⟩ := sound.owns live
  obtain ⟨src, saved, -, -, -⟩ := own.user.top
  obtain ⟨ip, hip⟩ := Option.ne_none_iff_exists'.mp cwd
  have notSrc : src ∉ F := by
    have := own.trapframe
    rwa [saved, base_div] at this
  rw [fork]
  refine Meets.bind (run_allocproc sound) ?_
  rintro _ _ (⟨rfl, failed⟩ | ⟨np, m, n, c, q, r, t, N, F', rfl, rfl, fresh⟩)
  · exact Meets.pure ⟨sound.sameMemory failed.only fun _ => failed.live_same, .inl ⟨rfl, failed⟩⟩
  have other : me ≠ np := fun e => live (e ▸ fresh.unused)
  have root : c.pagetable = r * PGSIZE := by rw [fresh.slot]
  have frame : c.trapframe = q * PGSIZE := by rw [fresh.slot]
  have closed : ∀ fd, c.ofile fd = none := by
    rw [fresh.slot]
    exact (sound.unused np fresh.unused).1.ofile
  have sub : N ∪ F' ⊆ F := by
    rw [← fresh.total]
    exact Set.subset_insert ..
  refine Meets.step (getProc_slot_other other) (Meets.step getProc_slot ?_)
  rw [own.user.root, root, frame, saved]
  have img := own.user.img.frame fun x hx =>
    fresh.only x (Set.disjoint_left.mp own.apart (own.user.img.tables_sub hx))
  refine Meets.bind (run_onMem_slot (run_uvmcopy img fresh.img fresh.free fresh.apart (own.apart.mono_right sub)
    fresh.gap)) ?_
  rintro _ _ ⟨m₂, rfl, ⟨rfl, refused⟩ | ⟨rfl, copied⟩⟩
  · -- the child still has size 0, and no page of it is mapped
    rw [if_pos (by decide)]
    refine Meets.bind (run_fork_undo sound fresh refused) fun _ s' failed => Meets.pure ⟨?_, .inl ⟨rfl, failed⟩⟩
    exact sound.sameMemory failed.only fun _ => failed.live_same
  · have src₂ : m₂.page src = s.mem.page src := by
      obtain ⟨_, _, _, _, -, -, -, -, only', -, -⟩ := copied
      exact (only'.mono sub src notSrc).trans (fresh.only src notSrc)
    obtain ⟨t', N', T', F'', child⟩ := fresh.child src own.user.img own.apart copied
    rw [if_neg (by decide)]
    refine Meets.step modifyProc_slot (Meets.step (onMem_slot copyTrapframe_run) ?_)
    have files : inherit (s.proc me) { c with sz := (s.proc me).sz } (List.finRange NOFILE) = (s.proc me).ofile :=
      inherit_all closed
    have final : s.forked me np (m₂.forkFrame q src) n c = { s with
        fileRef := fun f => s.fileRef f + refsTo (s.proc me) (List.finRange NOFILE) f
        inodeRef := Function.update s.inodeRef ip (s.inodeRef ip + 1) }.slot np (m₂.forkFrame q src) n
          { c with
            sz := (s.proc me).sz, ofile := inherit (s.proc me) { c with sz := (s.proc me).sz } (List.finRange NOFILE)
            cwd := some ip, name := safestrcpy c.name (s.proc me).name, priority := (s.proc me).priority
            parent := some me, state := .runnable } := by
      rw [files, inodeRef_raised hip, Kernel.forked, Proc.child, hip]
    refine Meets.step (dupFiles_slot (sound.files me)) ?_
    rw [hip]
    refine Meets.step idup_slot (Meets.step modifyProc_slot (Meets.pure ?_))
    rw [← final]
    have pid : c.pid = s.nextpid := by rw [fresh.slot]
    refine ⟨sound.sameMemory child.only fun j used => ?_,
      .inr ⟨pid, np, Function.update A np (insert q T'), F'', ?_, ?_⟩⟩
    · exact forked_proc_other fun e => used (e ▸ fresh.unused)
    · exact forked_forked sound live own fresh.unused child root frame saved src₂
    · exact forked_sound sound child root frame

theorem Kernel.Owns.alone {r : Nat} {t : Nat → Option (Nat × Nat)} {N T : Set Nat} (own : s.Owns K me r t N T F)
    (live : (s.proc me).state ≠ .unused) (name : Terminated (s.proc me).name)
    (others : ∀ i, i ≠ me → (s.proc i).state = .unused ∧ (s.proc i).Clean)
    (files : ∀ fd f, (s.proc me).ofile fd = some f → 1 ≤ s.fileRef f) :
    s.Sound K (Function.update (fun _ => ∅) me (insert ((s.proc me).trapframe / PGSIZE) T)) F := by
  refine ⟨own.free, ?_, ?_, ?_, ?_, ?_⟩
  · intro i used
    by_cases h : i = me
    · subst h
      rw [Function.update_self]
      exact ⟨name, r, t, N, T, own.user, rfl⟩
    · exact absurd (others i h).1 used
  · intro i unused
    by_cases h : i = me
    · subst h
      exact absurd unused live
    · rw [Function.update_of_ne h]
      exact ⟨(others i h).2, rfl⟩
  · intro i
    by_cases h : i = me
    · subst h
      rw [Function.update_self]
      refine Set.disjoint_left.mpr fun x hx hF => ?_
      rcases hx with rfl | hT
      · exact own.trapframe hF
      · exact Set.disjoint_left.mp own.apart hT hF
    · rw [Function.update_of_ne h]
      exact Set.empty_disjoint F
  · intro i j h
    by_cases hi : i = me
    · rw [Function.update_of_ne (fun e => h (hi.trans e.symm)) _ _]
      exact Set.disjoint_empty _
    · rw [Function.update_of_ne hi]
      exact Set.empty_disjoint _
  · intro i fd f file
    by_cases h : i = me
    · subst h
      exact files fd f file
    · rw [(others i h).2.ofile fd] at file
      cases file

/-- The sample memory with more free pages. -/
def withPages : List Nat → Mem
  | [] => sampleMem
  | p :: ps => after (kfree sampleSymbols (p * PGSIZE)) (withPages ps)

theorem withPages_free {l : List Nat} (nodup : l.Nodup) (ram : ∀ p ∈ l, 0x8000a < p ∧ p < 0x88000) :
    Frees sampleSymbols (withPages l) ({p | p ∈ l} ∪ {p | 0x80001 ≤ p ∧ p ≤ 0x8000a}) := by
  induction l with
  | nil =>
    have none : {p : Nat | p ∈ ([] : List Nat)} = ∅ := by simp
    rw [none, Set.empty_union]
    exact sampleMem_free
  | cons p l ih =>
    obtain ⟨new, nodup⟩ := List.nodup_cons.mp nodup
    obtain ⟨low, high⟩ := ram p (.head l)
    have before := ih nodup fun x hx => ram x (.tail p hx)
    have isRam : sampleSymbols.Ram p := by
      constructor
      · simp only [sampleSymbols, PGSIZE]
        omega
      · simp only [PHYSTOP, KERNBASE, PGSIZE]
        omega
    have used : p ∉ {p | p ∈ l} ∪ {p | 0x80001 ≤ p ∧ p ≤ 0x8000a} := by
      rintro (h | h)
      · exact new h
      · exact absurd h.2 (by omega)
    obtain ⟨_, m', ran, free, -⟩ := (before.run_kfree (P := True) isRam used).total trivial
    have whole : {x | x ∈ p :: l} = ({p} ∪ {x | x ∈ l} : Set Nat) := by
      ext x
      simp
    rw [withPages, after, ran, whole, Set.union_assoc]
    exact free

/-- A kernel with one process of one page, with file 0 open at two descriptors. -/
def loneKernel (m : Mem) (pagetable trapframe : Nat) : Kernel where
  mem := m
  proc := Function.update (fun _ => Proc.blank) ⟨0, NPROC_pos⟩
    { Proc.blank with
      state := .running, pid := 1, sz := PGSIZE, pagetable := pagetable, trapframe := trapframe, cwd := some 0
      ofile := fun fd => if fd < 2 then some 0 else none, priority := 5 }
  nextpid := 2
  fileRef := fun _ => 2
  inodeRef := fun _ => 1
  locked := fun _ => false
  outstanding := 0

theorem loneKernel_sound {m₀ m₁ m₂ m : Mem} {trapframe pagetable : Nat} {F₀ : Set Nat}
    (free : Frees sampleSymbols m₀ F₀) (took : kalloc m₀ = .ok (some trapframe, m₁))
    (made : procPagetable sampleSymbols trapframe m₁ = .ok (some pagetable, m₂))
    (grew : uvmalloc sampleSymbols pagetable 0 PGSIZE m₂ = .ok (PGSIZE, m)) :
    ∃ A F, (loneKernel m pagetable trapframe).Sound sampleSymbols A F := by
  have space : (loneKernel m pagetable trapframe).AddressSpace sampleSymbols 0 :=
    addressSpace_created free took made grew (by decide) rfl rfl rfl
  obtain ⟨r, t, N, T, F, own⟩ := space
  refine ⟨_, F, own.alone (by simp [loneKernel]) ⟨0, by decide, rfl⟩ ?_ fun _ _ _ => ?_⟩
  · intro i other
    have free : (loneKernel m pagetable trapframe).proc i = Proc.blank := by simp [loneKernel, other]
    rw [free]
    exact ⟨rfl, rfl, rfl, rfl, fun _ => rfl⟩
  · exact Nat.le_succ 1

/-- Four pages are left free, which is enough for a trapframe and a page table. -/
def tightMem : Mem :=
  after (uvmalloc sampleSymbols (0x80001 * PGSIZE) 0 PGSIZE)
    (after (procPagetable sampleSymbols (0x8000b * PGSIZE)) (after kalloc (withPages [0x8000b])))

def tightKernel : Kernel := loneKernel tightMem (0x80001 * PGSIZE) (0x8000b * PGSIZE)

theorem tightKernel_sound : ∃ A F, tightKernel.Sound sampleSymbols A F :=
  loneKernel_sound (withPages_free (l := [0x8000b]) (by decide) (by decide)) (ok_of_answer (by decide +kernel))
    (ok_of_answer (by decide +kernel)) (ok_of_answer (by decide +kernel))

/-- Seven pages are left free, which is enough for a copy of the process. -/
def roomyMem : Mem :=
  after (uvmalloc sampleSymbols (0x8000d * PGSIZE) 0 PGSIZE)
    (after (procPagetable sampleSymbols (0x8000e * PGSIZE))
      (after kalloc (withPages [0x8000e, 0x8000d, 0x8000c, 0x8000b])))

def roomyKernel : Kernel := loneKernel roomyMem (0x8000d * PGSIZE) (0x8000e * PGSIZE)

theorem roomyKernel_sound : ∃ A F, roomyKernel.Sound sampleSymbols A F :=
  loneKernel_sound (withPages_free (l := [0x8000e, 0x8000d, 0x8000c, 0x8000b]) (by decide) (by decide))
    (ok_of_answer (by decide +kernel)) (ok_of_answer (by decide +kernel)) (ok_of_answer (by decide +kernel))

end Xv6.Vm
