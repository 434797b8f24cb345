import Xv6.Vm.Args

/-!
# Starting a program

What `exec` leaves: the image that the headers of the file describe, the guard page and the stack with
the arguments; or the process as it was, with every page free again.
-/

namespace Xv6.Vm

open Bytes Fallible
open Xv6.Fs (PGSIZE)

variable {K : Symbols} {s s' : Kernel} {me : Fin NPROC} {m m' m₀ : Mem} {r ro q sz : Nat} {P : Prop}
variable {old t : Nat → Option (Nat × Nat)} {No To N T F F₀ : Set Nat} {flags : Nat → Nat} {what : Nat → UInt8}
variable {file : File}

/-! ## Loading -/

/-- The header of a file. -/
def File.elf (file : File) : Elfhdr := .ofBytes (file.range 0 ELFHDR)

/-- The program headers of a file, read from the given offset. -/
def File.proghdrs (file : File) (off : Nat) : List Proghdr := file.headers off file.elf.phnum

/-- What a file must have for `exec` to load it; `narrow` is what becomes of offsets. -/
structure File.Valid (file : File) (narrow : Nat → Nat) : Prop where
  header : ELFHDR ≤ file.size
  magic : file.elf.magic = ELF_MAGIC
  table : 0 < file.elf.phnum → narrow file.elf.phoff + file.elf.phnum * PROGHDR ≤ file.size
  segments : ∀ ph ∈ file.proghdrs (narrow file.elf.phoff), file.Has narrow ph

/-- The pages of a table that is being built are free again. -/
theorem run_freeMade (im : Image K m₀ F₀ r q m sz flags what) :
    Meets (procFreepagetable K (r * PGSIZE) sz) m P fun _ m' => Frees K m' F₀ ∧ Only F₀ m₀ m' := by
  obtain ⟨t, N, T, F, im⟩ := im
  refine (run_procFreepagetable im.img im.free im.apart im.top im.gap).mono ?_
  rintro _ m' ⟨free, only⟩
  rw [im.total] at free
  exact ⟨free, im.only.trans (only.mono im.sub.1)⟩

/-- An empty page table. -/
theorem run_procPagetable_image (free : Frees K m F) (hq : q * PGSIZE < 2 ^ 64) :
    Meets (procPagetable K (q * PGSIZE)) m P fun a m' =>
      a = none ∧ Frees K m' F ∧ Only F m m' ∨
      ∃ r, a = some (r * PGSIZE) ∧ Image K m F r q m' 0 allUser fun _ => 0 := by
  refine (run_procPagetable free hq).mono ?_
  rintro a m' (failed | ⟨r, t, N, F', rfl, img, free', apart, total, only, top, gap⟩)
  · exact .inl failed
  · exact .inr ⟨r, rfl, t, N, N, F', img, free', apart, total, only, fun j _ => gap j, top, nofun, fun _ _ => rfl⟩

/-- What `execLoad` can do. -/
theorem run_execLoad (free : Frees K s.mem F) (frame : (s.proc me).trapframe = q * PGSIZE) (hq : q * PGSIZE < 2 ^ 64) :
    Meets (execLoad K me file) s P fun x s' => ∃ m', s' = { s with mem := m' } ∧
      (x = .error none ∧ Frees K m' F ∧ Only F s.mem m' ∨
        (∃ r sz what, x = .error (some (r * PGSIZE, sz)) ∧ Image K s.mem F r q m' sz allUser what) ∨
        ∃ r sz, x = .ok (r * PGSIZE, sz, file.elf.entry) ∧ file.Valid low32 ∧
          Image K s.mem F r q m' sz allUser (file.image low32 (file.proghdrs (low32 file.elf.phoff)))) := by
  rw [execLoad]
  split
  case isTrue => exact Meets.pure ⟨s.mem, rfl, .inl ⟨rfl, free, Only.refl⟩⟩
  case isFalse whole =>
    have header : 0 + ELFHDR ≤ file.size := readi_length (by decide) (not_not.mp whole)
    have elf : Elfhdr.ofBytes (file.readi 0 ELFHDR) = file.elf := by
      rw [readi_eq header]
      rfl
    rw [elf]
    split
    case isTrue => exact Meets.pure ⟨s.mem, rfl, .inl ⟨rfl, free, Only.refl⟩⟩
    case isFalse magic =>
      refine Meets.step rfl ?_
      rw [frame]
      refine Meets.bind (run_onMem (run_procPagetable_image free hq)) ?_
      rintro _ _ ⟨m₁, rfl, ⟨rfl, failed⟩ | ⟨r, rfl, im⟩⟩
      · exact Meets.pure ⟨m₁, rfl, .inl ⟨rfl, failed⟩⟩
      · have small : file.elf.phoff % 2 ^ 32 < 2 ^ 32 := by omega
        refine Meets.bind (run_onMem (run_loadHeaders im small)) ?_
        rintro _ _ ⟨m₂, rfl, sz, what, im₂, rfl | ⟨rfl, table, segments, rfl⟩⟩
        · exact Meets.pure ⟨m₂, rfl, .inr (.inl ⟨r, sz, what, rfl, im₂⟩)⟩
        · refine Meets.pure ⟨m₂, rfl, .inr (.inr ⟨r, sz, rfl, ⟨?_, not_not.mp magic, table, segments⟩, im₂⟩)⟩
          omega

/-! ## Committing -/

/-- The saved registers of a program that starts. -/
def Mem.saved (m : Mem) (q sp entry : Nat) : Mem :=
  ((m.put64 (q * PGSIZE + A1) sp).put64 (q * PGSIZE + EPC) entry).put64 (q * PGSIZE + SP) sp

section Saved

variable {sp entry : Nat}

/-- The registers are entries of the page, like those of a table. -/
theorem saved_eq : m.saved q sp entry = ((m.put64 (q * PGSIZE + 8 * (15 : Fin 512)) sp).put64
    (q * PGSIZE + 8 * (3 : Fin 512)) entry).put64 (q * PGSIZE + 8 * (6 : Fin 512)) sp := rfl

theorem saved_only : Only {q} m (m.saved q sp entry) := by
  rw [saved_eq]
  exact (only_put64.trans only_put64).trans only_put64

theorem saved_words (hsp : sp < 2 ^ 64) (he : entry < 2 ^ 64) : (m.saved q sp entry).entry q 15 = sp ∧
    (m.saved q sp entry).entry q 3 = entry ∧ (m.saved q sp entry).entry q 6 = sp := by
  rw [saved_eq]
  refine ⟨?_, ?_, entry_put64_same hsp⟩
  · rw [entry_put64_index (by decide), entry_put64_index (by decide), entry_put64_same hsp]
  · rw [entry_put64_index (by decide), entry_put64_same he]

end Saved

/-- A program with `sz` bytes of memory that hold `what`, about to start at `entry`. -/
structure Started (K : Symbols) (me : Fin NPROC) (s : Kernel) (sz sp entry : Nat) (flags : Nat → Nat)
    (what : Nat → UInt8) : Prop where
  space : s.AddressSpace K me
  size : (s.proc me).sz = sz
  page : ∀ k < pages sz, ∃ pa, s.tr me k = some (pa, flags k)
  byte : ∀ a < pages sz * PGSIZE, s.byte me a = some (what a)
  epc : s.mem.get64 ((s.proc me).trapframe + EPC) = entry
  a1 : s.mem.get64 ((s.proc me).trapframe + A1) = sp
  sp : s.mem.get64 ((s.proc me).trapframe + SP) = sp

/-- What is left of the kernel when the user image has been replaced. -/
def Kernel.committed (s : Kernel) (me : Fin NPROC) (m : Mem) (path : List UInt8) (pagetable sz : Nat) : Kernel :=
  { s with
    mem := m
    proc := Function.update s.proc me { s.proc me with
      name := (s.proc me).name.put 0 ((lastName path).take 15 ++ [0]), pagetable := pagetable, sz := sz } }

section Commit

variable {path : List UInt8} {sp entry : Nat}

theorem committed_proc : (s.committed me m path r sz).proc me = { s.proc me with
    name := (s.proc me).name.put 0 ((lastName path).take 15 ++ [0]), pagetable := r, sz := sz } :=
  Function.update_self ..

theorem ImageOf.started (own : s.Owns K me ro old No To F) (same : s'.proc = s.proc)
    (frame : (s.proc me).trapframe = q * PGSIZE) (im : ImageOf K s.mem F r q m sz flags what t N T F₀)
    (only : Only To (m.saved q sp entry) m') (free : Frees K m' (To ∪ F₀)) (hsp : sp < 2 ^ 64)
    (he : entry < 2 ^ 64) :
    Started K me (s'.committed me m' path (r * PGSIZE) sz) sz sp entry flags what := by
  obtain ⟨x, hx, ram, notOld, -⟩ := own.user.top
  obtain rfl := base_inj (hx.symm.trans frame)
  have notFree := own.trapframe
  rw [frame, base_div] at notFree
  have old : ∀ y ∈ F, y ∉ To := fun y hF hTo => Set.disjoint_left.mp own.apart hTo hF
  have keep : ∀ y ∈ T, m'.page y = m.page y := by
    intro y hy
    have inF := im.sub.1 hy
    rw [only y (old y inF), saved_only y fun (e : y = x) => notFree (e ▸ inF)]
  have slot : (s'.committed me m' path (r * PGSIZE) sz).proc me = _ := committed_proc
  rw [same] at slot
  have place : ((s'.committed me m' path (r * PGSIZE) sz).proc me).trapframe = x * PGSIZE := by
    rw [slot]
    exact frame
  have own' : (s'.committed me m' path (r * PGSIZE) sz).Owns K me r t N T (To ∪ F₀) := by
    refine ⟨⟨?_, ?_, ?_, x, place, ram, fun h => notFree (im.sub.1 h), im.top⟩, free, ?_, ?_⟩
    · rw [slot]
    · rw [slot]
      exact im.img.frame fun y hy => keep y (im.img.tables_sub hy)
    · rw [slot]
      exact im.gap
    · refine Set.disjoint_union_right.mpr ⟨?_, im.apart⟩
      exact Set.disjoint_left.mpr fun y hT hTo => old y (im.sub.1 hT) hTo
    · rw [place, base_div]
      rintro (h | h)
      · exact notOld h
      · exact notFree (im.sub.2 h)
  have words := saved_words (m := m) (q := x) hsp he
  have word : ∀ i : Fin 512, m'.get64 (x * PGSIZE + 8 * i) = (m.saved x sp entry).entry x i := by
    intro i
    rw [get64_entry, entry_congr (only x notOld)]
  refine ⟨⟨r, t, N, T, _, own'⟩, by rw [slot], ?_, ?_, ?_, ?_, ?_⟩
  · intro k hk
    obtain ⟨p, mapped, -⟩ := im.page k hk
    exact ⟨_, by rw [own'.tr_eq, mapped]⟩
  · intro a ha
    have hk : a / PGSIZE < pages sz := Nat.div_lt_of_lt_mul (by rwa [Nat.mul_comm])
    obtain ⟨p, mapped, bytes⟩ := im.page _ hk
    rw [own'.byte_eq, mapped, Option.map_some, base_div]
    change some (Buffer.get (m'.page p) (a % PGSIZE)) = _
    rw [keep p (im.frame_mem hk mapped), bytes _ (Nat.mod_lt _ (by decide)), Nat.div_add_mod']
  · rw [place]
    exact (word 3).trans words.2.1
  · rw [place]
    exact (word 15).trans words.1
  · rw [place]
    exact (word 6).trans words.2.2

theorem run_execCommit (own : s.Owns K me ro old No To F) (same : s'.proc = s.proc)
    (im : Image K s.mem F r q s'.mem sz flags what) (frame : (s.proc me).trapframe = q * PGSIZE)
    (hsp : sp < 2 ^ 64) (he : entry < 2 ^ 64) :
    Meets (execCommit K me path (r * PGSIZE) sz sp entry) s' P fun _ s'' => ∃ m',
      s'' = s'.committed me m' path (r * PGSIZE) sz ∧ Started K me s'' sz sp entry flags what := by
  obtain ⟨t, N, T, F', im⟩ := im
  obtain ⟨x, hx, ram, notOld, top⟩ := own.user.top
  obtain rfl := base_inj (hx.symm.trans frame)
  have notFree := own.trapframe
  rw [frame, base_div] at notFree
  have place : (s'.proc me).trapframe = x * PGSIZE := by rw [same, frame]
  have keep : ∀ y ∈ To, (s'.mem.saved x sp entry).page y = s.mem.page y := by
    intro y hy
    rw [saved_only y fun (e : y = x) => notOld (e ▸ hy), im.only y (Set.disjoint_left.mp own.apart hy)]
  have img := own.user.img.frame fun y hy => keep y (own.user.img.tables_sub hy)
  have free : Frees K (s'.mem.saved x sp entry) F' :=
    im.free.frame rfl fun y hy => saved_only y fun (e : y = x) => notFree (e ▸ im.sub.2 hy)
  refine Meets.step rfl ?_
  rw [place, show (s'.proc me).pagetable = ro * PGSIZE by rw [same, own.user.root], same]
  refine Meets.step rfl (Meets.step rfl (Meets.step rfl (Meets.step rfl ?_)))
  refine (run_onMem (run_procFreepagetable img free (own.apart.mono_right im.sub.2) top own.user.gap)).mono ?_
  rintro _ _ ⟨m', rfl, free', only⟩
  refine ⟨m', ?_, im.started own same frame only free' hsp he⟩
  rfl

end Commit

/-! ## Before the arguments -/

/-- The locks once the inode has been released. -/
def Kernel.released (s : Kernel) : Option (Nat × File) → Nat → Bool
  | none => s.locked
  | some (ip, _) => Function.update s.locked ip false

/-- The kernel while `exec` reads the file. -/
def Kernel.reading (s : Kernel) (ip : Nat) (m : Mem) : Kernel :=
  { s with
    mem := m
    outstanding := s.outstanding + 1
    inodeRef := Function.update s.inodeRef ip (s.inodeRef ip + 1)
    locked := Function.update s.locked ip true }

/-- The kernel after it has. -/
def Kernel.closed (s : Kernel) (found : Option (Nat × File)) (m : Mem) : Kernel :=
  { s with mem := m, locked := s.released found }

/-- An `exec` that failed: nothing but free pages has changed, and these are free again. -/
structure ExecFailed (K : Symbols) (s s' : Kernel) (found : Option (Nat × File)) (F : Set Nat) : Prop where
  same : s' = s.closed found s'.mem
  free : Frees K s'.mem F
  only : Only F s.mem s'.mem

section Begin

variable {found : Option (Nat × File)} {ip : Nat} {path : List UInt8}

theorem iunlockput_reading : iunlockput ip (s.reading ip m) =
    .ok ((), { s.closed (some (ip, file)) m with outstanding := s.outstanding + 1 }) := by
  simp only [iunlockput, Kernel.reading, Kernel.closed, Kernel.released, Function.update_self, Nat.add_sub_cancel,
    Function.update_idem, Function.update_eq_self]

theorem endOp_closed : endOp { s.closed found m with outstanding := s.outstanding + 1 } = .ok ((), s.closed found m) := rfl

/-- `bad` with the inode still locked. -/
theorem run_execBad_reading {made : Option (Nat × Nat)} (file : File) (q : Nat) (none : made = none → Frees K m F ∧ Only F s.mem m)
    (some : ∀ x, made = some x → ∃ r sz what, x = (r * PGSIZE, sz) ∧ Image K s.mem F r q m sz allUser what) :
    Meets (execBad K made (.some ip)) (s.reading ip m) P fun res s' =>
      res = -1 ∧ ExecFailed K s s' (.some (ip, file)) F := by
  have free : Meets (freeMade K made) (s.reading ip m) P fun _ s' => ∃ m', s' = s.reading ip m' ∧
      Frees K m' F ∧ Only F s.mem m' := by
    cases made with
    | none => exact Meets.pure ⟨m, rfl, none rfl⟩
    | some x =>
      obtain ⟨r, sz, what, rfl, im⟩ := some x rfl
      exact run_onMem (run_freeMade im)
  refine Meets.bind free ?_
  rintro _ _ ⟨m', rfl, free', only⟩
  refine Meets.bind (Meets.step iunlockput_reading (Meets.of_ok endOp_closed (Q := fun _ s' => s' = s.closed (.some (ip, file)) m') rfl)) ?_
  rintro _ _ rfl
  exact Meets.pure ⟨rfl, rfl, free', only⟩

/-- `bad` after the inode has been released. -/
theorem run_execBad_closed (im : Image K s.mem F r q m sz flags what) :
    Meets (execBad K (some (r * PGSIZE, sz)) none) (s.closed found m) P fun res s' =>
      res = -1 ∧ ExecFailed K s s' found F := by
  refine Meets.bind (run_onMem (run_freeMade im)) ?_
  rintro _ _ ⟨m', rfl, free, only⟩
  exact Meets.step rfl (Meets.pure ⟨rfl, rfl, free, only⟩)

/-- Up to the arguments `exec` does not depend on them: it fails, or it has built the image of the file
and a stack. -/
theorem exec_begins (found : Option (Nat × File)) (path : List UInt8) (own : s.Owns K me ro old No To F)
    (frame : (s.proc me).trapframe = q * PGSIZE) :
    (∃ s', ExecFailed K s s' found F ∧ ∀ sub argv, execWith K sub me found path argv s = .ok (-1, s')) ∨
    ∃ ip file m r g, found = some (ip, file) ∧ file.Valid low32 ∧
      Image K s.mem F r q m ((g + 2) * PGSIZE) (guarded g)
        (file.image low32 (file.proghdrs (low32 file.elf.phoff))) ∧
      ∀ sub argv, execWith K sub me found path argv s =
        execArgs K sub me path argv (r * PGSIZE) ((g + 2) * PGSIZE) file.elf.entry (s.closed found m) := by
  cases found with
  | none => exact .inl ⟨s, ⟨rfl, own.free, Only.refl⟩, fun _ _ => rfl⟩
  | some x =>
    obtain ⟨ip, file⟩ := x
    obtain ⟨y, hy, ram, -, -⟩ := own.user.top
    obtain rfl := base_inj (hy.symm.trans frame)
    have load : Meets (execLoad K me file) (s.reading ip s.mem) True _ :=
      run_execLoad own.free frame (ram.lt.trans (by decide))
    obtain ⟨x, s₁, ran, m, rfl, result⟩ := load.total trivial
    have start : ∀ sub argv, execWith K sub me (some (ip, file)) path argv s =
        execLoaded K sub me path argv ip x (s.reading ip m) := fun sub argv => bind_ok ran
    rcases result with ⟨rfl, free, only⟩ | ⟨r, sz, what, rfl, im⟩ | ⟨r, sz, rfl, valid, im⟩
    · have bad : Meets (execBad K none (some ip)) (s.reading ip m) True _ :=
        run_execBad_reading file y (fun _ => ⟨free, only⟩) nofun
      obtain ⟨_, s', done, rfl, failed⟩ := bad.total trivial
      exact .inl ⟨s', failed, fun sub argv => (start sub argv).trans done⟩
    · have bad : Meets (execBad K (some (r * PGSIZE, sz)) (some ip)) (s.reading ip m) True _ :=
        run_execBad_reading file y nofun fun x hx => ⟨r, sz, what, (Option.some.inj hx).symm, im⟩
      obtain ⟨_, s', done, rfl, failed⟩ := bad.total trivial
      exact .inl ⟨s', failed, fun sub argv => (start sub argv).trans done⟩
    · have stack : Meets (onMem (stackPages K (r * PGSIZE) sz)) (s.closed (some (ip, file)) m) True _ :=
        run_onMem (run_stackPages im)
      obtain ⟨x, s₂, made, m₂, rfl, outcome⟩ := stack.total trivial
      have next : ∀ sub argv, execWith K sub me (some (ip, file)) path argv s = _ := fun sub argv =>
        (start sub argv).trans ((bind_ok iunlockput_reading).trans ((bind_ok endOp_closed).trans (bind_ok made)))
      rcases outcome with ⟨sz', rfl, im'⟩ | ⟨rfl, im'⟩
      · have bad : Meets (execBad K (some (r * PGSIZE, sz')) none) (s.closed (some (ip, file)) m₂) True _ :=
          run_execBad_closed im'
        obtain ⟨_, s', done, rfl, failed⟩ := bad.total trivial
        exact .inl ⟨s', failed, fun sub argv => (next sub argv).trans done⟩
      · exact .inr ⟨ip, file, m₂, r, pages sz, rfl, valid, im', next⟩

end Begin

/-! ## The whole call -/

section Whole

variable {found : Option (Nat × File)} {path : List UInt8} {argv : List (List UInt8)} {g entry : Nat}

/-- The arguments that `sys_exec` passes: it has room for `MAXARG` pointers with the null behind them,
and copies each string to a page. -/
structure Passed (argv : List (List UInt8)) : Prop where
  few : argv.length < MAXARG
  short : ∀ s ∈ argv, s.length < PGSIZE

/-- What the arguments need is all that decides whether the last part succeeds. -/
theorem run_execArgs (own : s.Owns K me ro old No To F) (frame : (s.proc me).trapframe = q * PGSIZE)
    (im : Image K s.mem F r q m ((g + 2) * PGSIZE) (guarded g) what) (args : Passed argv) (he : entry < 2 ^ 64) :
    Meets (execArgs K wrapping me path argv (r * PGSIZE) ((g + 2) * PGSIZE) entry) (s.closed found m) P fun res s' =>
      res = -1 ∧ PGSIZE < stackNeed argv ∧ ExecFailed K s s' found F ∨
      res = argv.length ∧ stackNeed argv ≤ PGSIZE ∧ ∃ what',
        Started K me s' ((g + 2) * PGSIZE) ((g + 2) * PGSIZE - stackNeed argv) entry (guarded g) what' ∧
        (∀ a, a < (g + 1) * PGSIZE → what' a = what a) ∧ Strings what' ((g + 2) * PGSIZE) 0 argv ∧
        Holds what' ((g + 2) * PGSIZE - stackNeed argv)
          ((addresses ((g + 2) * PGSIZE) 0 argv ++ [0]).flatMap (leBytes 8)) := by
  have bound := im.bound
  rw [pages_base] at bound
  refine Meets.bind (run_onMem (run_pushArgs im args.short args.few)) ?_
  rintro _ _ ⟨m₁, rfl, what', im₁, below, ⟨rfl, full⟩ | ⟨rfl, fits, strings, array⟩⟩
  · refine (run_execBad_closed im₁).mono ?_
    exact fun _ _ ⟨result, failed⟩ => .inl ⟨result, full, failed⟩
  · have hsp : (g + 2) * PGSIZE - stackNeed argv < 2 ^ 64 := by
      simp only [PGSIZE]
      omega
    refine Meets.bind (run_execCommit own rfl im₁ frame hsp he) ?_
    rintro _ _ ⟨m₂, rfl, started⟩
    exact Meets.pure (.inr ⟨rfl, fits, what', started, below, strings, array⟩)

/-- The bytes `l` are at address `a` of a process. -/
def BytesAt (byte : Nat → Option UInt8) (a : Nat) (l : List UInt8) : Prop :=
  ∀ j < l.length, byte (a + j) = some (l.getD j 0)

theorem Holds.bytesAt {byte : Nat → Option UInt8} {top a : Nat} {l : List UInt8} (h : Holds what a l)
    (same : ∀ x < top, byte x = some (what x)) (fits : a + l.length ≤ top) : BytesAt byte a l := by
  intro j hj
  rw [same (a + j) (by omega), h j hj]

theorem Strings.bytesAt {byte : Nat → Option UInt8} {top d : Nat} (h : Strings what top d argv)
    (same : ∀ x < top, byte x = some (what x)) (fits : d + need argv ≤ top) :
    List.Forall₂ (fun a s => BytesAt byte a (s ++ [0])) (addresses top d argv) argv := by
  induction argv generalizing d with
  | nil => exact .nil
  | cons s argv ih =>
    rw [need_cons] at fits
    rw [Strings, addresses] at h
    rw [addresses]
    obtain ⟨first, rest⟩ := List.forall₂_cons.mp h
    have := le_room (n := s.length + 1)
    refine .cons (first.bytesAt same ?_) (ih rest (by omega))
    rw [List.length_append, List.length_singleton]
    omega

/-- The stack of a program: at `sp` the array of pointers, pointer `i` to a copy of argument `i`. -/
structure ArgLayout (byte : Nat → Option UInt8) (top sp : Nat) (ptrs : List Nat) (argv : List (List UInt8)) : Prop where
  aligned : sp % 16 = 0 ∧ ∀ a ∈ ptrs, a % 16 = 0
  array : BytesAt byte sp ((ptrs ++ [0]).flatMap (leBytes 8))
  strings : List.Forall₂ (fun a s => BytesAt byte a (s ++ [0])) ptrs argv
  inside : ∀ x ∈ areas sp ptrs argv, top - PGSIZE ≤ x.1 ∧ x.1 + x.2 ≤ top
  apart : (areas sp ptrs argv).Pairwise Apart

theorem argLayout {byte : Nat → Option UInt8} (fits : stackNeed argv ≤ PGSIZE)
    (same : ∀ x < (g + 2) * PGSIZE, byte x = some (what x)) (strings : Strings what ((g + 2) * PGSIZE) 0 argv)
    (array : Holds what ((g + 2) * PGSIZE - stackNeed argv)
      ((addresses ((g + 2) * PGSIZE) 0 argv ++ [0]).flatMap (leBytes 8))) :
    ArgLayout byte ((g + 2) * PGSIZE) ((g + 2) * PGSIZE - stackNeed argv) (addresses ((g + 2) * PGSIZE) 0 argv) argv := by
  have top : PGSIZE ≤ (g + 2) * PGSIZE := Nat.le_mul_of_pos_left _ (by omega)
  obtain ⟨inside, apart⟩ := areas_apart (fits.trans top)
  have hsum : need argv ≤ stackNeed argv := Nat.le_add_right ..
  have multiple : (g + 2) * PGSIZE % 16 = 0 := by
    simp only [PGSIZE]
    omega
  have whole : stackNeed argv % 16 = 0 := by
    have : need argv % 16 = 0 := need_aligned
    simp only [stackNeed, room]
    omega
  refine ⟨⟨by omega, addresses_aligned multiple rfl⟩, array.bytesAt same ?_, strings.bytesAt same (by omega), ?_, apart⟩
  · rw [length_pointers, length_addresses]
    exact (inside _ (.head _)).2
  · intro x hx
    have := inside x hx
    omega

theorem elf_entry_lt : file.elf.entry < 2 ^ 64 := field_lt

theorem image_narrow {hs : List Proghdr} (h : ∀ ph ∈ hs, ph.type = ELF_PROG_LOAD → ph.off < 2 ^ 32) :
    file.image low32 hs = file.image id hs := by
  have step : ∀ what, ∀ ph ∈ hs, file.load low32 what ph = file.load id what ph := by
    intro what ph hph
    rw [File.load, File.load]
    split
    case isTrue load => rw [low32, Nat.mod_eq_of_lt (h ph hph load), id]
    case isFalse => rfl
  exact List.foldl_ext _ _ _ step

end Whole

/-! A program of one byte. -/

/-- A program whose only segment is the byte 7, which is at offset 120 of the file; `off` is what the
program header says. -/
def sampleFile (off : Nat) : File where
  bytes :=
    leBytes 4 ELF_MAGIC ++ List.replicate 20 0 ++ leBytes 8 0 ++ leBytes 8 ELFHDR ++ List.replicate 16 0 ++
      leBytes 2 1 ++ List.replicate 6 0 ++ (leBytes 4 ELF_PROG_LOAD ++ leBytes 4 0 ++ leBytes 8 off ++ leBytes 8 0 ++
        leBytes 8 0 ++ leBytes 8 1 ++ leBytes 8 1 ++ leBytes 8 0) ++ [7]
  small := by
    simp only [List.length_append, length_leBytes, List.length_replicate, List.length_singleton]
    decide

/-- Ten pages are left free. -/
def wideMem : Mem :=
  after (uvmalloc sampleSymbols (0x80010 * PGSIZE) 0 PGSIZE)
    (after (procPagetable sampleSymbols (0x80011 * PGSIZE))
      (after kalloc (withPages [0x80011, 0x80010, 0x8000f, 0x8000e, 0x8000d, 0x8000c, 0x8000b])))

def wideKernel : Kernel := loneKernel wideMem (0x80010 * PGSIZE) (0x80011 * PGSIZE)

theorem wideKernel_sound : ∃ A F, wideKernel.Sound sampleSymbols A F :=
  loneKernel_sound
    (withPages_free (l := [0x80011, 0x80010, 0x8000f, 0x8000e, 0x8000d, 0x8000c, 0x8000b]) (by decide) (by decide))
    (ok_of_answer (by decide +kernel)) (ok_of_answer (by decide +kernel)) (ok_of_answer (by decide +kernel))

theorem wideKernel_space : wideKernel.AddressSpace sampleSymbols 0 := by
  obtain ⟨A, F, sound⟩ := wideKernel_sound
  obtain ⟨r, t, N, T, own, -⟩ := sound.owns (i := 0) (by simp [wideKernel, loneKernel])
  exact ⟨r, t, N, T, F, own⟩

theorem passed_nil : Passed [] := ⟨by decide, nofun⟩

theorem onMem_error {α : Type} {x : Code α} {e : String} (h : x s.mem = .error e) : onMem x s = .error e := by
  rw [onMem, h]

/-- A subtraction that stops before the arguments and tells whether the image has the given size. -/
def stopAt (top : Nat) : Subtract := fun a _ => throw (if a = top then "reached" else "other")

end Xv6.Vm
