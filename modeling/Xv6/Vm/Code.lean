import Xv6.Vm.Memory

/-!
# Page tables as the kernel handles them (`kernel/vm.c`)

Virtual and physical addresses, sizes and page-table entries are 64-bit numbers. A pointer that
may be null is an `Option`; `walkaddr` alone answers with the number 0, as its callers compare.
-/

namespace Xv6.Vm

open Xv6.Fs (PGSIZE)

abbrev PTE_V : Nat := 1
abbrev PTE_R : Nat := 2
abbrev PTE_W : Nat := 4
abbrev PTE_X : Nat := 8
/-- 1 -> user can access -/
abbrev PTE_U : Nat := 16

/-- one beyond the highest possible virtual address -/
abbrev MAXVA : Nat := 2 ^ 38
abbrev TRAMPOLINE : Nat := MAXVA - PGSIZE
abbrev TRAPFRAME : Nat := TRAMPOLINE - PGSIZE

def pgroundup (sz : Nat) : Nat := (sz + PGSIZE - 1) % 2 ^ 64 / PGSIZE * PGSIZE

def pgrounddown (a : Nat) : Nat := a / PGSIZE * PGSIZE

def pa2pte (pa : Nat) : Nat := pa / PGSIZE * 1024

def pte2pa (pte : Nat) : Nat := pte / 1024 * PGSIZE % 2 ^ 64

def pteFlags (pte : Nat) : Nat := pte &&& 0x3FF

/-- extract the three 9-bit page table indices from a virtual address. -/
def px (level va : Nat) : Fin 512 := ⟨va / 2 ^ (12 + 9 * level) % 512, Nat.mod_lt _ (by decide)⟩

/-- The loop of `walk`, from the table of a level down. -/
def walkFrom (va : Nat) (alloc : Bool) : (level pagetable : Nat) → Code (Option Nat)
  | 0, pagetable => return some (pagetable + 8 * px 0 va)
  | level + 1, pagetable => do
    let pte := pagetable + 8 * px (level + 1) va
    let entry ← load64 pte
    if entry &&& PTE_V ≠ 0 then walkFrom va alloc level (pte2pa entry)
    else if alloc then do
      match ← kalloc with
      | none => return none
      | some pagetable => do
        memset pagetable 0
        store64 pte (pa2pte pagetable ||| PTE_V)
        walkFrom va alloc level pagetable
    else return none

def walk (pagetable va : Nat) (alloc : Bool) : Code (Option Nat) :=
  if MAXVA ≤ va then throw "walk" else walkFrom va alloc 2 pagetable

def walkaddr (pagetable va : Nat) : Code Nat :=
  if MAXVA ≤ va then return 0
  else do
    match ← walk pagetable va false with
    | none => return 0
    | some pte => do
      let entry ← load64 pte
      if entry &&& PTE_V = 0 then return 0
      else if entry &&& PTE_U = 0 then return 0
      else return pte2pa entry

/-- The number of pages below `MAXVA`. A loop that walks to a new page in every round ends within
as many rounds, in the panic of `walk` if not before. -/
abbrev NPAGES : Nat := MAXVA / PGSIZE

/-- The loop of `mappages`. -/
def mappagesFrom (pagetable last perm : Nat) : (rounds a pa : Nat) → Code Int
  | 0, _, _ => throw "walk"
  | rounds + 1, a, pa => do
    match ← walk pagetable a true with
    | none => return -1
    | some pte => do
      let entry ← load64 pte
      if entry &&& PTE_V ≠ 0 then throw "mappages: remap"
      else do
        store64 pte (pa2pte pa ||| perm ||| PTE_V)
        if a = last then return 0
        else mappagesFrom pagetable last perm rounds ((a + PGSIZE) % 2 ^ 64) ((pa + PGSIZE) % 2 ^ 64)

def mappages (pagetable va size pa perm : Nat) : Code Int :=
  if size = 0 then throw "mappages: size"
  else mappagesFrom pagetable (pgrounddown ((va + size - 1) % 2 ^ 64)) perm (NPAGES + 1) (pgrounddown va) pa

section Freeing

variable (K : Symbols)

/-- The loop of `uvmunmap`; `stop` is `va + npages*PGSIZE`. -/
def uvmunmapFrom (pagetable stop : Nat) (doFree : Bool) : (rounds a : Nat) → Code Unit
  | 0, _ => throw "walk"
  | rounds + 1, a =>
    if a < stop then do
      match ← walk pagetable a false with
      | none => throw "uvmunmap: walk"
      | some pte => do
        let entry ← load64 pte
        if entry &&& PTE_V = 0 then throw "uvmunmap: not mapped"
        else if pteFlags entry = PTE_V then throw "uvmunmap: not a leaf"
        else do
          if doFree then kfree K (pte2pa entry)
          store64 pte 0
          uvmunmapFrom pagetable stop doFree rounds ((a + PGSIZE) % 2 ^ 64)
    else return ()

def uvmunmap (pagetable va npages : Nat) (doFree : Bool) : Code Unit :=
  if va % PGSIZE ≠ 0 then throw "uvmunmap: not aligned"
  else uvmunmapFrom K pagetable ((va + npages * PGSIZE) % 2 ^ 64) doFree (NPAGES + 1) va

/-- The value of an `int` for a 64-bit parameter. -/
def ofInt (n : Int) : Nat := (n % 2 ^ 64).toNat

/-- A 64-bit value in an `int`. -/
def toInt (n : Nat) : Int := (n : Int).bmod (2 ^ 32)

def uvmdealloc (pagetable oldsz newsz : Nat) : Code Nat :=
  if oldsz ≤ newsz then return oldsz
  else if pgroundup newsz < pgroundup oldsz then do
    uvmunmap K pagetable (pgroundup newsz) (ofInt (toInt ((pgroundup oldsz - pgroundup newsz) / PGSIZE))) true
    return newsz
  else return newsz

end Freeing

/-- An empty page table. -/
def uvmcreate : Code (Option Nat) := do
  match ← kalloc with
  | none => return none
  | some pagetable => do
    memset pagetable 0
    return some pagetable

section Freeing

variable (K : Symbols)

/-- The loop of `uvmalloc`. -/
def uvmallocFrom (pagetable oldsz newsz : Nat) : (rounds a : Nat) → Code Nat
  | 0, _ => throw "walk"
  | rounds + 1, a =>
    if a < newsz then do
      match ← kalloc with
      | none => do
        let _ ← uvmdealloc K pagetable a oldsz
        return 0
      | some mem => do
        memset mem 0
        let r ← mappages pagetable a PGSIZE mem (PTE_W ||| PTE_X ||| PTE_R ||| PTE_U)
        if r ≠ 0 then do
          kfree K mem
          let _ ← uvmdealloc K pagetable a oldsz
          return 0
        else uvmallocFrom pagetable oldsz newsz rounds ((a + PGSIZE) % 2 ^ 64)
    else return newsz

def uvmalloc (pagetable oldsz newsz : Nat) : Code Nat :=
  if newsz < oldsz then return oldsz
  else uvmallocFrom K pagetable (pgroundup oldsz) newsz (NPAGES + 2) (pgroundup oldsz)

/-- The loop of `freewalk` over the entries from `i` on; `free` is the recursive call. -/
def freeEntries (free : Nat → Code Unit) (pagetable : Nat) : List (Fin 512) → Code Unit
  | [] => return ()
  | i :: is => do
    let pte ← load64 (pagetable + 8 * i)
    if pte &&& PTE_V ≠ 0 ∧ pte &&& (PTE_R ||| PTE_W ||| PTE_X) = 0 then do
      free (pte2pa pte)
      store64 (pagetable + 8 * i) 0
      freeEntries free pagetable is
    else if pte &&& PTE_V ≠ 0 then throw "freewalk: leaf"
    else freeEntries free pagetable is

/-- Recursively free page-table pages, for as many levels as the kernel stack has room. -/
def freewalkFrom : (room pagetable : Nat) → Code Unit
  | 0, _ => throw "kerneltrap"
  | room + 1, pagetable => do
    freeEntries (freewalkFrom room) pagetable (List.finRange 512)
    kfree K pagetable

/-- A call of `freewalk` takes at least 16 of the bytes of a kernel stack. -/
def freewalk (pagetable : Nat) : Code Unit := freewalkFrom K (PGSIZE / 16) pagetable

def uvmfree (pagetable sz : Nat) : Code Unit :=
  if 0 < sz then do
    uvmunmap K pagetable 0 (pgroundup sz / PGSIZE) true
    freewalk K pagetable
  else freewalk K pagetable

/-- The loop of `uvmcopy`, and its error exit. -/
def uvmcopyFrom (old new sz : Nat) : (rounds i : Nat) → Code Int
  | 0, _ => throw "walk"
  | rounds + 1, i =>
    if i < sz then do
      match ← walk old i false with
      | none => throw "uvmcopy: pte should exist"
      | some pte => do
        let entry ← load64 pte
        if entry &&& PTE_V = 0 then throw "uvmcopy: page not present"
        else do
          match ← kalloc with
          | none => do
            uvmunmap K new 0 (i / PGSIZE) true
            return -1
          | some mem => do
            copyPage mem (pte2pa entry)
            let r ← mappages new i PGSIZE mem (pteFlags entry)
            if r ≠ 0 then do
              kfree K mem
              uvmunmap K new 0 (i / PGSIZE) true
              return -1
            else uvmcopyFrom old new sz rounds ((i + PGSIZE) % 2 ^ 64)
    else return 0

def uvmcopy (old new sz : Nat) : Code Int := uvmcopyFrom K old new sz (NPAGES + 1) 0

end Freeing

/-- mark a PTE invalid for user access. -/
def uvmclear (pagetable va : Nat) : Code Unit := do
  match ← walk pagetable va false with
  | none => throw "uvmclear"
  | some pte => do
    let entry ← load64 pte
    store64 pte (entry &&& (2 ^ 64 - 1 - PTE_U))

/-- The loop of `copyout`: every round copies at least one byte. -/
def copyoutFrom (pagetable : Nat) : (rounds dstva : Nat) → (src : List UInt8) → Code Int
  | 0, _, _ => return 0
  | rounds + 1, dstva, src =>
    if src = [] then return 0
    else do
      let va0 := pgrounddown dstva
      let pa0 ← walkaddr pagetable va0
      if pa0 = 0 then return -1
      else do
        let n := min (PGSIZE - (dstva - va0)) src.length
        store (pa0 + (dstva - va0)) (src.take n)
        copyoutFrom pagetable rounds ((va0 + PGSIZE) % 2 ^ 64) (src.drop n)

def copyout (pagetable dstva : Nat) (src : List UInt8) : Code Int :=
  copyoutFrom pagetable src.length dstva src

end Xv6.Vm
