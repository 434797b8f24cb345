import Xv6.Vm.Free

/-!
# `growproc` and `sbrk`

`UserSpace` is what holds of the address space of a process between calls: its pages below `sz`,
the trampoline and the trapframe are mapped and nothing else.
-/

namespace Xv6.Vm

open Bytes Fallible
open Xv6.Fs (PGSIZE)

variable {K : Symbols} {m m' : Mem} {s s' : Kernel} {p : Proc} {r : Nat} {N T F : Set Nat} {P : Prop}
variable {t : Nat → Option (Nat × Nat)} {me : Fin NPROC}

structure UserSpace (K : Symbols) (m : Mem) (p : Proc) (r : Nat) (t : Nat → Option (Nat × Nat))
    (N T : Set Nat) : Prop where
  root : p.pagetable = r * PGSIZE
  img : Img K m r (pages p.sz) t N T
  gap : ∀ j, pages p.sz ≤ j → j < NPAGES - 2 → t j = none
  top : ∃ q, p.trapframe = q * PGSIZE ∧ K.Ram q ∧ q ∉ T ∧ Top K t q

/-- The address space of the process `me` and the free pages. -/
structure Kernel.Owns (s : Kernel) (K : Symbols) (me : Fin NPROC) (r : Nat) (t : Nat → Option (Nat × Nat))
    (N T F : Set Nat) : Prop where
  user : UserSpace K s.mem (s.proc me) r t N T
  free : Frees K s.mem F
  apart : Disjoint T F
  trapframe : (s.proc me).trapframe / PGSIZE ∉ F

/-- A process that satisfies the invariant of address spaces. -/
def Kernel.AddressSpace (s : Kernel) (K : Symbols) (me : Fin NPROC) : Prop :=
  ∃ r t N T F, s.Owns K me r t N T F

/-- The translation of a virtual page of a process. -/
def Kernel.tr (s : Kernel) (me : Fin NPROC) (k : Nat) : Option (Nat × Nat) :=
  s.mem.tr ((s.proc me).pagetable / PGSIZE) k

/-- The byte at a virtual address of a process. -/
def Kernel.byte (s : Kernel) (me : Fin NPROC) (a : Nat) : Option UInt8 :=
  (s.tr me (a / PGSIZE)).map fun x => (s.mem.page (x.1 / PGSIZE)).get (a % PGSIZE)

theorem run_onMem {α : Type} {x : Code α} {Q : α → Mem → Prop} (h : Meets x s.mem P Q) :
    Meets (onMem x) s P fun a s' => ∃ m', s' = { s with mem := m' } ∧ Q a m' := by
  constructor
  · intro hP
    obtain ⟨a, m', ran⟩ := h.returns hP
    refine ⟨a, { s with mem := m' }, ?_⟩
    rw [onMem, ran]
  · intro a s' ran
    rw [onMem] at ran
    split at ran
    · next b m' done =>
      obtain ⟨rfl, rfl⟩ : b = a ∧ { s with mem := m' } = s' := by simpa using ran
      exact ⟨m', rfl, h.post done⟩
    · cases ran

namespace Kernel.Owns

theorem tr_eq (own : s.Owns K me r t N T F) : s.tr me = t := by
  funext k
  rw [Kernel.tr, own.user.root, base_div, own.user.img.space.trans]

/-- Where the bytes of a process are. -/
theorem byte_eq (own : s.Owns K me r t N T F) (a : Nat) :
    s.byte me a = (t (a / PGSIZE)).map fun x => (s.mem.page (x.1 / PGSIZE)).get (a % PGSIZE) := by
  rw [Kernel.byte, own.tr_eq]

theorem size_le (own : s.Owns K me r t N T F) : (s.proc me).sz ≤ 2 ^ 27 := by
  have := own.user.img.le_ram
  simp only [pages, PGSIZE] at this
  omega

/-- The pages behind virtual pages that are not below `sz` are neither of the table nor free. -/
theorem page_apart (own : s.Owns K me r t N T F) {k pa f : Nat} (h : t k = some (pa, f))
    (high : pages (s.proc me).sz ≤ k) : pa / PGSIZE ∉ T ∪ F := by
  by_cases low : k < NPAGES - 2
  · rw [own.user.gap k high low] at h
    cases h
  by_cases out : NPAGES ≤ k
  · rw [own.user.img.space.tr_high out] at h
    cases h
  obtain ⟨q, hq, -, notIn, top⟩ := own.user.top
  obtain rfl | rfl : k = NPAGES - 2 ∨ k = NPAGES - 1 := by omega
  · obtain ⟨rfl, -⟩ := some_inj (h.symm.trans top.trapframe)
    have free := own.trapframe
    rw [hq, base_div] at free
    rw [base_div]
    rintro (hT | hF)
    · exact notIn hT
    · exact free hF
  · -- the trampoline is part of the kernel
    obtain ⟨rfl, -⟩ := some_inj (h.symm.trans top.trampoline)
    intro mem
    have ram : K.Ram (K.trampoline / PGSIZE) := by
      rcases mem with hT | hF
      · exact own.user.img.ram_total hT
      · exact own.free.ram _ hF
    have := ram.1
    have := K.text
    simp only [PGSIZE] at *
    omega

/-- A change to tables, free pages and user pages from `b` on keeps the bytes below, and the
trapframe and the trampoline. -/
theorem byte_keep {r' a b : Nat} {t' : Nat → Option (Nat × Nat)} {N' T' F' : Set Nat}
    (own : s.Owns K me r t N T F) (own' : s'.Owns K me r' t' N' T' F')
    (only : Only (N ∪ F ∪ frames t b (pages (s.proc me).sz)) s.mem s'.mem)
    (hb : b ≤ pages (s.proc me).sz) (entry : t' (a / PGSIZE) = t (a / PGSIZE))
    (place : a / PGSIZE < b ∨ pages (s.proc me).sz ≤ a / PGSIZE) : s'.byte me a = s.byte me a := by
  rw [own'.byte_eq, own.byte_eq, entry]
  cases h : t (a / PGSIZE) with
  | none => rfl
  | some x =>
    obtain ⟨pa, f⟩ := x
    have keep : pa / PGSIZE ∉ N ∪ F ∪ frames t b (pages (s.proc me).sz) := by
      rcases place with low | high
      · obtain ⟨p, g, hp, -⟩ := own.user.img.mapped (a / PGSIZE) (by omega)
        obtain ⟨rfl, -⟩ := some_inj (h.symm.trans hp)
        rw [base_div]
        have mem : p ∈ frames t 0 b := mem_frames low hp
        have user : p ∈ frames t 0 (pages (s.proc me).sz) := mem_frames (by omega) hp
        rintro ((hN | hF) | hD)
        · exact own.user.img.not_table user hN
        · exact Set.disjoint_left.mp own.apart (own.user.img.frames_sub user) hF
        · exact Set.disjoint_left.mp (own.user.img.frames_apart le_rfl le_rfl) mem hD
      · have away := own.page_apart h high
        rintro ((hN | hF) | ⟨j, g, -, hj, hp⟩)
        · exact away (.inl (own.user.img.tables_sub hN))
        · exact away (.inr hF)
        · exact away (.inl (own.user.img.frames_sub (mem_frames hj hp)))
    rw [Option.map_some, Option.map_some, only _ keep]

end Kernel.Owns

/-- What `growproc` is to do. -/
structure Resized (K : Symbols) (me : Fin NPROC) (s s' : Kernel) (n : Int) : Prop where
  inv : s'.AddressSpace K me
  size : ((s'.proc me).sz : Int) = (s.proc me).sz + n
  kept : ∀ a, a < (s.proc me).sz → a < (s'.proc me).sz → s'.byte me a = s.byte me a
  zero : ∀ a, pages (s.proc me).sz * PGSIZE ≤ a → a < pages (s'.proc me).sz * PGSIZE →
    s'.byte me a = some 0

/-- A call that changed no part of the user memory. -/
structure Unchanged (K : Symbols) (me : Fin NPROC) (s s' : Kernel) : Prop where
  inv : s'.AddressSpace K me
  proc : s'.proc = s.proc
  tr : s'.tr me = s.tr me
  byte : s'.byte me = s.byte me

theorem div_lt_pages {a sz : Nat} (h : a < sz) : a / PGSIZE < pages sz := by
  simp only [pages, PGSIZE]
  omega

/-- The invariant after a call that moved pages between the table and the free ones. -/
theorem Kernel.Owns.moved {t' : Nat → Option (Nat × Nat)} {N' T' F' : Set Nat} {new : Nat}
    (own : s.Owns K me r t N T F) (proc : s'.proc me = { s.proc me with sz := new })
    (img : Img K s'.mem r (pages new) t' N' T') (free : Frees K s'.mem F') (apart : Disjoint T' F')
    (total : T' ∪ F' = T ∪ F) (gap : ∀ j, pages new ≤ j → j < NPAGES - 2 → t' j = none)
    (high : ∀ j, NPAGES - 2 ≤ j → t' j = t j) : s'.Owns K me r t' N' T' F' := by
  obtain ⟨q, hq, ram, notIn, top⟩ := own.user.top
  have notFree := own.trapframe
  rw [hq, base_div] at notFree
  have outside : q ∉ T' ∪ F' := by
    rw [total]
    rintro (h | h)
    · exact notIn h
    · exact notFree h
  refine ⟨⟨?_, ?_, ?_, q, ?_, ram, fun h => outside (.inl h), ?_, ?_⟩, free, apart, ?_⟩
  · rw [proc]
    exact own.user.root
  · rw [proc]
    exact img
  · rw [proc]
    exact gap
  · rw [proc]
    exact hq
  · rw [high _ (by omega)]
    exact top.trampoline
  · rw [high _ le_rfl]
    exact top.trapframe
  · rw [proc]
    change (s.proc me).trapframe / PGSIZE ∉ F'
    rw [hq, base_div]
    exact fun h => outside (.inr h)

section Cases

variable {new : Nat}

/-- After more pages have been mapped. -/
theorem Kernel.Owns.extended (own : s.Owns K me r t N T F) (le : (s.proc me).sz ≤ new)
    (proc : s'.proc me = { s.proc me with sz := new })
    (h : Extended K s.mem s'.mem r (pages (s.proc me).sz) (pages new) t N T F blank) :
    Resized K me s s' (new - (s.proc me).sz) := by
  obtain ⟨t', N', T', F', img, free, apart, total, only, same, zero⟩ := h
  have more := pages_mono le
  rw [Nat.max_eq_right more] at img
  have bound := img.le_ram
  have high : pages new ≤ NPAGES - 2 := bound.trans (by decide)
  have own' : s'.Owns K me r t' N' T' F' := by
    refine own.moved proc img free apart total ?_ ?_
    · intro j low below
      rw [same j (by omega)]
      exact own.user.gap j (by omega) below
    · intro j top
      exact same j (by omega)
  have size : (s'.proc me).sz = new := by rw [proc]
  refine ⟨⟨r, t', N', T', F', own'⟩, by rw [size]; omega, ?_, ?_⟩
  · intro a old _
    have page := div_lt_pages old
    exact own.byte_keep own' (only.mono Set.subset_union_left) le_rfl (same _ (by omega)) (.inl page)
  · intro a low below
    rw [size] at below
    have index : pages (s.proc me).sz ≤ a / PGSIZE ∧ a / PGSIZE < pages new := by
      simp only [PGSIZE] at low below ⊢
      omega
    obtain ⟨p, -, entry, page⟩ := zero (a / PGSIZE) index.1 index.2
    rw [own'.byte_eq, entry, Option.map_some, base_div, page]
    exact congrArg some (Buffer.get_zero _)

/-- After pages have been given back. -/
theorem Kernel.Owns.shrunk {T' F' : Set Nat} (own : s.Owns K me r t N T F) (le : new ≤ (s.proc me).sz)
    (proc : s'.proc me = { s.proc me with sz := new })
    (img : Img K s'.mem r (pages new) (erase t (pages new) (pages (s.proc me).sz)) N T')
    (free : Frees K s'.mem F') (apart : Disjoint T' F') (total : T' ∪ F' = T ∪ F)
    (only : Only (N ∪ frames t (pages new) (pages (s.proc me).sz)) s.mem s'.mem) :
    Resized K me s s' (new - (s.proc me).sz) := by
  have fewer := pages_mono le
  have bound := own.user.img.le_ram
  have high : pages (s.proc me).sz ≤ NPAGES - 2 := bound.trans (by decide)
  have own' := own.moved proc img free apart total
    (fun j low below => by
      rw [erase]
      split
      · rfl
      · exact own.user.gap j (by omega) below)
    (fun j top => by rw [erase, if_neg (by omega)])
  have size : (s'.proc me).sz = new := by rw [proc]
  refine ⟨⟨r, _, N, T', F', own'⟩, by rw [size]; omega, ?_, ?_⟩
  · intro a _ below
    rw [size] at below
    have page := div_lt_pages below
    refine own.byte_keep own' (only.mono ?_) fewer (by rw [erase, if_neg (by omega)]) (.inl page)
    exact Set.union_subset_union_left _ Set.subset_union_left
  · intro a low below
    rw [size] at below
    simp only [PGSIZE] at low below
    omega

/-- After a failed attempt to map pages. -/
theorem Kernel.Owns.refused (own : s.Owns K me r t N T F) (proc : s'.proc = s.proc)
    (h : Refused K s.mem s'.mem r (pages (s.proc me).sz) (pages (s.proc me).sz) t N T F) :
    Unchanged K me s s' := by
  obtain ⟨N', T', F', img, free, apart, total, only⟩ := h
  rw [erase_none le_rfl] at img
  have own' : s'.Owns K me r t N' T' F' :=
    own.moved (by rw [proc]) img free apart total own.user.gap fun _ _ => rfl
  refine ⟨⟨r, t, N', T', F', own'⟩, proc, by rw [own.tr_eq, own'.tr_eq], ?_⟩
  funext a
  exact own.byte_keep own' only le_rfl rfl (by omega)

end Cases

theorem u32_eq {n : Int} {a : Nat} (h : n = a) (small : a < 2 ^ 32) : u32 n = a := by
  subst h
  simp only [u32]
  omega

theorem setProc_same (s : Kernel) (i : Fin NPROC) (p : Proc) : (s.setProc i p).proc i = p :=
  Function.update_self ..

/-- `growproc` changes the size by `n`, or fails for lack of memory and changes nothing, unless the
size would become negative. -/
theorem run_growproc {n : Int} (own : s.Owns K me r t N T F) (small : n < 2 ^ 31)
    (fits : 0 ≤ (s.proc me).sz + n) :
    Meets (growproc K me n) s P fun res s' =>
      res = 0 ∧ Resized K me s s' n ∨ res = -1 ∧ Unchanged K me s s' := by
  have bound := own.size_le
  obtain ⟨new, hnew⟩ := Int.eq_ofNat_of_zero_le fits
  have old : u32 (s.proc me).sz = (s.proc me).sz := u32_eq rfl (by omega)
  have next : u32 ((s.proc me).sz + n) = new := u32_eq hnew (by omega)
  have change : n = new - (s.proc me).sz := by omega
  rw [growproc]
  refine Meets.step rfl ?_
  rw [growFrom, old, next, own.user.root]
  split
  case isTrue pos =>
    refine Meets.bind (run_onMem (run_uvmalloc own.user.img own.free own.apart (by omega) own.user.gap)) ?_
    rintro _ s₁ ⟨m', rfl, ⟨rfl, refused⟩ | ⟨rfl, extended⟩⟩
    · rw [u32_eq (n := ((0 : Nat) : Int)) rfl (by omega), if_pos rfl]
      exact Meets.pure (.inr ⟨rfl, own.refused rfl refused⟩)
    · rw [u32_eq (n := (_ : Nat)) rfl (by omega), if_neg (by omega)]
      refine Meets.step rfl (Meets.pure (.inl ⟨rfl, ?_⟩))
      rw [change]
      exact own.extended (by omega) (setProc_same ..) extended
  case isFalse notPos =>
    split
    case isTrue neg =>
      have high : (s.proc me).sz ≤ MAXVA := by
        simp only [MAXVA]
        omega
      refine Meets.bind (run_onMem (run_uvmdealloc own.user.img own.free own.apart high)) ?_
      rintro _ s₁ ⟨m', rfl, rfl, T', F', img, free, apart, total, only⟩
      rw [Nat.min_eq_right (by omega), u32_eq (n := (_ : Nat)) rfl (by omega)]
      rw [Nat.min_eq_right (pages_mono (by omega))] at img
      refine Meets.step rfl (Meets.pure (.inl ⟨rfl, ?_⟩))
      rw [change]
      exact own.shrunk (by omega) (setProc_same ..) img free apart total only
    case isFalse notNeg =>
      obtain rfl : n = 0 := by omega
      obtain rfl : new = (s.proc me).sz := by omega
      refine Meets.step rfl (Meets.pure (.inl ⟨rfl, ?_⟩))
      rw [change]
      refine own.shrunk le_rfl (setProc_same ..) ?_ own.free own.apart rfl Only.refl
      rw [erase_none le_rfl]
      exact own.user.img

/-- A new table that `uvmalloc` has given `sz` bytes is an address space. -/
theorem addressSpace_created {m₁ m₂ : Mem} {trapframe pagetable sz : Nat} (free : Frees K m F)
    (took : kalloc m = .ok (some trapframe, m₁))
    (made : procPagetable K trapframe m₁ = .ok (some pagetable, m₂))
    (grew : uvmalloc K pagetable 0 sz m₂ = .ok (sz, s.mem)) (pos : 0 < sz)
    (root : (s.proc me).pagetable = pagetable) (frame : (s.proc me).trapframe = trapframe)
    (size : (s.proc me).sz = sz) : s.AddressSpace K me := by
  rcases (free.run_kalloc (P := True)).post took with ⟨null, -⟩ | ⟨q, hq, page, free₁, -⟩
  · cases null
  obtain rfl := Option.some.inj page
  have ram := free.ram q hq
  rcases (run_procPagetable (P := True) free₁ (ram.lt.trans (by decide))).post made with
    ⟨null, -⟩ | ⟨r, t, N, F₂, table, img, free₂, apart, total, -, top, gap⟩
  · cases null
  obtain rfl := Option.some.inj table
  have none : pages 0 = 0 := rfl
  have run : Meets (uvmalloc K (r * PGSIZE) 0 sz) m₂ True _ :=
    run_uvmalloc img free₂ apart (Nat.zero_le sz) fun j _ hj => gap j hj
  rcases run.post grew with
    ⟨zero, -⟩ | ⟨-, t', N', T', F', img', free', apart', total', -, same, -⟩
  · omega
  rw [none, Nat.max_eq_right (Nat.zero_le _)] at img'
  have high : pages sz ≤ NPAGES - 2 := img'.le_ram.trans (by decide)
  have outside : q ∉ T' ∪ F' := by
    rw [total', total]
    exact fun h => h.2 rfl
  refine ⟨r, t', N', T', F', ⟨root, size ▸ img', ?_, q, frame, ram, fun h => outside (.inl h), ?_, ?_⟩, free',
    apart', ?_⟩
  · intro j low below
    rw [size] at low
    rw [same j (by omega)]
    exact gap j below
  · rw [same _ (by omega)]
    exact top.trampoline
  · rw [same _ (by omega)]
    exact top.trapframe
  · rw [frame, base_div]
    exact fun h => outside (.inr h)

/-- A slot of the process table that was never used. -/
def Proc.blank : Proc where
  state := .unused
  chan := 0
  killed := 0
  xstate := 0
  pid := 0
  parent := none
  kstack := 0
  sz := 0
  pagetable := 0
  trapframe := 0
  context := ⟨0, 0, fun _ => 0⟩
  ofile := fun _ => none
  cwd := none
  name := Buffer.zero
  priority := 0

/-- The trapframe is in page `0x80001`, the table in page `0x80002`. -/
def sampleTrapframe : Mem := after kalloc sampleMem

def samplePagetable : Mem := after (procPagetable sampleSymbols (0x80001 * PGSIZE)) sampleTrapframe

def sampleKernel : Kernel where
  mem := after (uvmalloc sampleSymbols (0x80002 * PGSIZE) 0 PGSIZE) samplePagetable
  proc := Function.update (fun _ => Proc.blank) 0
    { Proc.blank with
      state := .running, pid := 1, sz := PGSIZE, pagetable := 0x80002 * PGSIZE
      trapframe := 0x80001 * PGSIZE, cwd := some 0, priority := 5 }
  nextpid := 2
  fileRef := fun _ => 0
  inodeRef := fun _ => 1
  locked := fun _ => false
  outstanding := 0

theorem sampleKernel_addressSpace : sampleKernel.AddressSpace sampleSymbols 0 :=
  addressSpace_created sampleMem_free (ok_of_answer (by decide +kernel)) (ok_of_answer (by decide +kernel))
    (ok_of_answer (by decide +kernel)) (by decide) rfl rfl rfl

end Xv6.Vm
