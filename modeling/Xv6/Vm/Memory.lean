import Mathlib
import Xv6.Fallible
import Xv6.Fs.Memory
import Xv6.Links

/-!
# Physical memory and its allocator (`kernel/kalloc.c`)

Memory is a page of bytes for every page number; the free pages are linked through their first
eight bytes. `Frees K m F` says that the list holds exactly the pages `F`.
-/

namespace Xv6.Vm

open Bytes Fallible
open Xv6.Fs (PGSIZE)

abbrev KERNBASE : Nat := 0x80000000
abbrev PHYSTOP : Nat := KERNBASE + 128 * 1024 * 1024

/-- What `kernel.ld` and the linker set: the first address after the kernel, the page of the
trampoline, which is part of the kernel's text, and the address of `forkret`. -/
structure Symbols where
  kernelEnd : Nat
  trampoline : Nat
  forkret : Nat
  aligned : trampoline % PGSIZE = 0
  base : KERNBASE ≤ trampoline
  text : trampoline + PGSIZE ≤ kernelEnd
  ram : kernelEnd ≤ PHYSTOP

/-- `freelist` is the address of the first free page, or 0. -/
structure Mem where
  page : Nat → Buffer PGSIZE
  freelist : Nat

namespace Mem

variable (m : Mem)

def get64 (a : Nat) : Nat := (m.page (a / PGSIZE)).num 8 (a % PGSIZE)

def put (a : Nat) (l : List UInt8) : Mem :=
  { m with page := Function.update m.page (a / PGSIZE) ((m.page (a / PGSIZE)).put (a % PGSIZE) l) }

def put64 (a v : Nat) : Mem := m.put a (leBytes 8 v)

/-- Store the same byte in a whole page. -/
def fill (a : Nat) (c : UInt8) : Mem :=
  { m with page := Function.update m.page (a / PGSIZE) fun _ => c }

end Mem

abbrev Code (α : Type) : Type := Exec Mem String α

def load64 (a : Nat) : Code Nat := fun m => .ok (m.get64 a, m)

def store64 (a v : Nat) : Code Unit := fun m => .ok ((), m.put64 a v)

/-- `memset(pa, c, PGSIZE)` -/
def memset (pa : Nat) (c : UInt8) : Code Unit := fun m => .ok ((), m.fill pa c)

/-- `memmove(dst, src, n)` to a physical address, of bytes that lie elsewhere -/
def store (dst : Nat) (src : List UInt8) : Code Unit := fun m => .ok ((), m.put dst src)

/-- `memmove(dst, src, PGSIZE)` between two pages -/
def copyPage (dst src : Nat) : Code Unit := fun m =>
  .ok ((), { m with page := Function.update m.page (dst / PGSIZE) (m.page (src / PGSIZE)) })

/-- `kmem.freelist = r->next` -/
def popFree (r : Nat) : Code Unit := fun m => .ok ((), { m with freelist := m.get64 r })

/-- `r->next = kmem.freelist; kmem.freelist = r;` -/
def pushFree (r : Nat) : Code Unit := fun m => .ok ((), { m.put64 r m.freelist with freelist := r })

def kalloc : Code (Option Nat) := do
  let r := (← get).freelist
  if r = 0 then return none
  else do
    popFree r
    memset r 5
    return some r

def kfree (K : Symbols) (pa : Nat) : Code Unit :=
  if pa % PGSIZE ≠ 0 ∨ pa < K.kernelEnd ∨ PHYSTOP ≤ pa then throw "kfree"
  else do
    memset pa 1
    pushFree pa

/-! ## Frames -/

/-- Only pages of `S` differ. -/
def Only (S : Set Nat) (m m' : Mem) : Prop := ∀ p, p ∉ S → m'.page p = m.page p

theorem Only.refl {S : Set Nat} {m : Mem} : Only S m m := fun _ _ => rfl

theorem Only.mono {S T : Set Nat} {m m' : Mem} (h : Only S m m') (sub : S ⊆ T) : Only T m m' :=
  fun p hp => h p fun hS => hp (sub hS)

theorem Only.trans {S : Set Nat} {m m' m'' : Mem} (h : Only S m m') (h' : Only S m' m'') :
    Only S m m'' := fun p hp => (h' p hp).trans (h p hp)

/-! ## Single pages -/

section Pages

variable {m : Mem} {p q o : Nat}

@[simp] theorem base_div : p * PGSIZE / PGSIZE = p := Nat.mul_div_cancel p (by decide)

@[simp] theorem base_mod : p * PGSIZE % PGSIZE = 0 := Nat.mul_mod_left p PGSIZE

theorem at_div (ho : o < PGSIZE) : (p * PGSIZE + o) / PGSIZE = p := by
  simp only [PGSIZE] at ho ⊢
  omega

theorem at_mod (ho : o < PGSIZE) : (p * PGSIZE + o) % PGSIZE = o := by
  simp only [PGSIZE] at ho ⊢
  omega

@[simp] theorem put_freelist {a : Nat} {l : List UInt8} : (m.put a l).freelist = m.freelist := rfl

@[simp] theorem put64_freelist {a v : Nat} : (m.put64 a v).freelist = m.freelist := rfl

@[simp] theorem fill_freelist {a : Nat} {c : UInt8} : (m.fill a c).freelist = m.freelist := rfl

theorem put_page_same (ho : o < PGSIZE) {l : List UInt8} :
    (m.put (p * PGSIZE + o) l).page p = (m.page p).put o l := by
  rw [Mem.put, at_div ho, at_mod ho]
  exact Function.update_self ..

theorem put_page_other (ho : o < PGSIZE) {l : List UInt8} (other : q ≠ p) :
    (m.put (p * PGSIZE + o) l).page q = m.page q := by
  rw [Mem.put, at_div ho]
  exact Function.update_of_ne other ..

theorem only_put (ho : o < PGSIZE) {l : List UInt8} : Only {p} m (m.put (p * PGSIZE + o) l) :=
  fun _ hq => put_page_other ho hq

theorem fill_page_same {c : UInt8} : (m.fill (p * PGSIZE) c).page p = fun _ => c := by
  rw [Mem.fill, base_div]
  exact Function.update_self ..

theorem fill_page_other {c : UInt8} (other : q ≠ p) : (m.fill (p * PGSIZE) c).page q = m.page q := by
  rw [Mem.fill, base_div]
  exact Function.update_of_ne other ..

theorem put64_page_other {v : Nat} (other : q ≠ p) :
    (m.put64 (p * PGSIZE) v).page q = m.page q := by
  rw [Mem.put64, Mem.put, base_div]
  exact Function.update_of_ne other ..

theorem get64_put64 {v : Nat} (hv : v < 2 ^ 64) : (m.put64 (p * PGSIZE) v).get64 (p * PGSIZE) = v := by
  rw [Mem.get64, Mem.put64, Mem.put, base_div, base_mod]
  change Buffer.num (Function.update m.page p _ p) 8 0 = v
  rw [Function.update_self]
  exact Buffer.num_putNum_same (by decide) hv

theorem get64_base : m.get64 (p * PGSIZE) = (m.page p).num 8 0 := by
  rw [Mem.get64, base_div, base_mod]

end Pages

/-! ## The free list -/

variable {K : Symbols} {m m' : Mem} {F : Set Nat} {p : Nat}

/-- A page that `kfree` accepts. -/
def Symbols.Ram (K : Symbols) (p : Nat) : Prop := K.kernelEnd ≤ p * PGSIZE ∧ p * PGSIZE < PHYSTOP

theorem Symbols.Ram.pos (h : K.Ram p) : 0 < p * PGSIZE := by
  have := K.base
  have := K.text
  have := h.1
  simp only [KERNBASE, PGSIZE] at *
  omega

theorem Symbols.Ram.lt (h : K.Ram p) : p * PGSIZE < PHYSTOP := h.2

structure Frees (K : Symbols) (m : Mem) (F : Set Nat) : Prop where
  chain : ∃ l : List Nat, l.Nodup ∧ (∀ p, p ∈ l ↔ p ∈ F) ∧
    Links.Path m.get64 m.freelist (l.map (· * PGSIZE)) 0
  ram : ∀ p ∈ F, K.Ram p

theorem Frees.frame (free : Frees K m F) (list : m'.freelist = m.freelist)
    (same : ∀ p ∈ F, m'.page p = m.page p) : Frees K m' F := by
  obtain ⟨l, nodup, mem, path⟩ := free.chain
  refine ⟨⟨l, nodup, mem, ?_⟩, free.ram⟩
  rw [list]
  apply path.frame
  intro a ha
  obtain ⟨p, hp, rfl⟩ := List.mem_map.mp ha
  rw [get64_base, get64_base, same p ((mem p).mp hp)]

/-- What `kalloc` does to the memory if the first free page is `p`. -/
def Mem.taken (m : Mem) (p : Nat) : Mem :=
  Mem.fill { m with freelist := m.get64 (p * PGSIZE) } (p * PGSIZE) 5

theorem taken_page_other {q : Nat} (other : q ≠ p) : (m.taken p).page q = m.page q :=
  fill_page_other other

theorem Frees.taken {l : List Nat} (free : Frees K m F) (nodup : (p :: l).Nodup)
    (mem : ∀ q, q ∈ p :: l ↔ q ∈ F)
    (path : Links.Path m.get64 (m.get64 (p * PGSIZE)) (l.map (· * PGSIZE)) 0) :
    Frees K (m.taken p) (F \ {p}) := by
  obtain ⟨fresh, nodup⟩ := List.nodup_cons.mp nodup
  have other : ∀ q ∈ l, q ≠ p := fun q hq e => fresh (e ▸ hq)
  refine ⟨⟨l, nodup, ?_, ?_⟩, fun q hq => free.ram q hq.1⟩
  · intro q
    have either := mem q
    rw [List.mem_cons] at either
    constructor
    · intro hq
      exact ⟨either.mp (.inr hq), other q hq⟩
    · rintro ⟨hq, hne⟩
      exact (either.mpr hq).resolve_left hne
  · apply path.frame
    intro a ha
    obtain ⟨q, hq, rfl⟩ := List.mem_map.mp ha
    rw [get64_base, get64_base, taken_page_other (other q hq)]

/-- `kalloc` gives out a free page, filled with junk, unless there is none. -/
theorem Frees.run_kalloc {P : Prop} (free : Frees K m F) : Meets kalloc m P fun r m' =>
    (r = none ∧ m' = m ∧ F = ∅) ∨
    ∃ p ∈ F, r = some (p * PGSIZE) ∧ Frees K m' (F \ {p}) ∧ Only {p} m m' := by
  obtain ⟨l, nodup, mem, path⟩ := free.chain
  refine Meets.step (show (get : Code Mem) m = .ok (m, m) from rfl) ?_
  cases l with
  | nil =>
    have empty : F = ∅ := Set.eq_empty_iff_forall_notMem.mpr fun p hp => by
      simpa using (mem p).mpr hp
    have null : m.freelist = 0 := path
    rw [if_pos null]
    exact Meets.pure (.inl ⟨rfl, rfl, empty⟩)
  | cons p l =>
    obtain ⟨head, path⟩ := path
    have hp : p ∈ F := (mem p).mp List.mem_cons_self
    have some : p * PGSIZE ≠ 0 := (free.ram p hp).pos.ne'
    rw [show m.freelist = p * PGSIZE from head, if_neg some]
    refine Meets.step rfl (Meets.step rfl (Meets.pure (.inr ⟨p, hp, rfl, ?_, ?_⟩)))
    · exact free.taken nodup mem path
    · exact fun q => taken_page_other

theorem Frees.freelist_lt (free : Frees K m F) : m.freelist < 2 ^ 64 := by
  obtain ⟨l, -, mem, path⟩ := free.chain
  cases l with
  | nil =>
    rw [show m.freelist = 0 from path]
    decide
  | cons p l =>
    rw [path.1]
    exact (free.ram p ((mem p).mp List.mem_cons_self)).lt.trans (by decide)

/-- What `kfree` does to the memory. -/
def Mem.freed (m : Mem) (p : Nat) : Mem :=
  { (m.fill (p * PGSIZE) 1).put64 (p * PGSIZE) m.freelist with freelist := p * PGSIZE }

theorem freed_page_other {q : Nat} (other : q ≠ p) : (m.freed p).page q = m.page q :=
  (put64_page_other other).trans (fill_page_other other)

theorem Frees.freed (free : Frees K m F) (ram : K.Ram p) (used : p ∉ F) :
    Frees K (m.freed p) (insert p F) := by
  obtain ⟨l, nodup, mem, path⟩ := free.chain
  have fresh : p ∉ l := fun h => used ((mem p).mp h)
  have next : (m.freed p).get64 (p * PGSIZE) = m.freelist := get64_put64 free.freelist_lt
  refine ⟨⟨p :: l, List.nodup_cons.mpr ⟨fresh, nodup⟩, ?_, rfl, ?_⟩, ?_⟩
  · intro q
    rw [List.mem_cons, Set.mem_insert_iff, mem]
  · rw [next]
    apply path.frame
    intro a ha
    obtain ⟨q, hq, rfl⟩ := List.mem_map.mp ha
    have other : q ≠ p := fun e => fresh (e ▸ hq)
    rw [get64_base, get64_base, freed_page_other other]
  · rintro q (rfl | hq)
    · exact ram
    · exact free.ram q hq

/-- `kfree` puts a page back. -/
theorem Frees.run_kfree {P : Prop} (free : Frees K m F) (ram : K.Ram p) (used : p ∉ F) :
    Meets (kfree K (p * PGSIZE)) m P fun _ m' => Frees K m' (insert p F) ∧ Only {p} m m' := by
  have good : ¬ (p * PGSIZE % PGSIZE ≠ 0 ∨ p * PGSIZE < K.kernelEnd ∨ PHYSTOP ≤ p * PGSIZE) := by
    rintro (h | h | h)
    · exact h base_mod
    · exact absurd ram.1 (by omega)
    · exact absurd ram.2 (by omega)
  rw [kfree, if_neg good]
  exact Meets.step rfl (Meets.of_ok rfl ⟨free.freed ram used, fun _ => freed_page_other⟩)

end Xv6.Vm
