import Xv6.Vm.Map

/-!
# Every table built by the kernel is a finite map

`Built K m r`: in memory `m` the page `r` is the root of a table made by `uvmcreate` and changed
by calls of `walk`, `mappages` and `uvmunmap` that returned, with anything in between that leaves
its pages alone. Pages are freed on unmapping only where that is proper: they are distinct, and
neither free nor tables.
-/

namespace Xv6.Vm

open Fallible Radix
open Xv6.Fs (PGSIZE)

variable {K : Symbols} {m m' : Mem} {r : Nat} {N F : Set Nat} {t : Nat → Option (Nat × Nat)}

inductive Built (K : Symbols) : Mem → Nat → Prop
  | create {m m' : Mem} {r : Nat} {F : Set Nat} :
      Frees K m F → uvmcreate m = .ok (some (r * PGSIZE), m') → Built K m' r
  | walk {m m' : Mem} {r va : Nat} {alloc : Bool} {a : Option Nat} :
      Built K m r → walk (r * PGSIZE) va alloc m = .ok (a, m') → Built K m' r
  | mappages {m m' : Mem} {r va size pa perm : Nat} {res : Int} :
      Built K m r → pa < 2 ^ 64 → perm < 2 ^ 64 →
      mappages (r * PGSIZE) va size pa perm m = .ok (res, m') → Built K m' r
  | uvmunmap {m m' : Mem} {r va npages : Nat} {doFree : Bool} :
      Built K m r →
      (doFree = true → ∀ F, Frees K m F → Loose K (m.tr r) (va / PGSIZE)
        ((va + npages * PGSIZE) % 2 ^ 64 / PGSIZE) (Nodes below m.entry r 2) F) →
      uvmunmap K (r * PGSIZE) va npages doFree m = .ok ((), m') → Built K m' r
  | other {m m' : Mem} {r : Nat} {F : Set Nat} :
      Built K m r → Frees K m' F →
      (∀ p ∈ Nodes below m.entry r 2, m'.page p = m.page p ∧ p ∉ F) → Built K m' r

/-- The tables are a tree and apart from the free pages. -/
structure Table (K : Symbols) (m : Mem) (r : Nat) (F : Set Nat) : Prop where
  space : Space K m r (Nodes below m.entry r 2) (m.tr r)
  free : Frees K m F
  apart : Disjoint (Nodes below m.entry r 2) F

theorem Space.table (sp : Space K m r N t) (free : Frees K m F) (apart : Disjoint N F) :
    Table K m r F := by
  obtain rfl := sp.nodes
  obtain rfl := sp.trans
  exact ⟨sp, free, apart⟩

theorem Grown.table_of {U : Set Nat} (g : Grown K m m' r N F U t) (apart : Disjoint N F) :
    Table K m' r (F \ U) := g.space.table g.free (apart_grow apart)

theorem apart_given {doFree : Bool} {k s : Nat} (apart : Disjoint N F)
    (loose : doFree = true → Loose K t k s N F) : Disjoint N (F ∪ given doFree t k s) := by
  refine Set.disjoint_union_right.mpr ⟨apart, ?_⟩
  rw [given]
  split
  case isTrue yes =>
    refine Set.disjoint_left.mpr fun p hp => ?_
    rintro ⟨j, f, low, high, hj⟩
    obtain ⟨q, e, -, table, -⟩ := (loose yes).page j _ f low high hj
    obtain rfl : p = q := Nat.eq_of_mul_eq_mul_right (by decide) e
    exact table hp
  case isFalse no => exact Set.disjoint_empty N

theorem Built.table (built : Built K m r) : ∃ F, Table K m r F := by
  induction built with
  | @create m m' r F free ran =>
    rcases (run_uvmcreate (P := True) free).post ran with ⟨null, -⟩ | ⟨q, hq, root, sp, free', -⟩
    · cases null
    · obtain rfl : r = q := Nat.eq_of_mul_eq_mul_right (by decide) (Option.some.inj root)
      exact ⟨F \ {r}, sp.table free' Set.disjoint_sdiff_right⟩
  | @walk m m' r va alloc a _ ran ih =>
    obtain ⟨F, h⟩ := ih
    cases alloc with
    | true =>
      obtain ⟨-, U, grown, -⟩ := (run_walk_alloc h.space h.free h.apart).post ran
      exact ⟨F \ U, grown.table_of h.apart⟩
    | false =>
      obtain ⟨-, rfl, -⟩ := run_walk_find.post ran
      exact ⟨F, h⟩
  | @mappages m m' r va size pa perm res _ hpa hperm ran ih =>
    obtain ⟨F, h⟩ := ih
    obtain ⟨U, n, grown, -⟩ := (run_mappages h.space h.free h.apart hpa hperm).post ran
    exact ⟨F \ U, grown.table_of h.apart⟩
  | @uvmunmap m m' r va npages doFree _ proper ran ih =>
    obtain ⟨F, h⟩ := ih
    have loose := fun yes => proper yes F h.free
    rw [Vm.uvmunmap] at ran
    split at ran
    case isTrue => cases ran
    case isFalse aligned =>
      have start : va = va / PGSIZE * PGSIZE := by
        simp only [PGSIZE] at aligned ⊢
        omega
      have stop : (va + npages * PGSIZE) % 2 ^ 64 = (va + npages * PGSIZE) % 2 ^ 64 / PGSIZE * PGSIZE := by
        simp only [PGSIZE] at aligned ⊢
        omega
      rw [stop] at ran
      nth_rewrite 2 [start] at ran
      obtain ⟨sp, free, -⟩ := (run_uvmunmapFrom h.space h.free h.apart loose).post ran
      exact ⟨_, sp.table free (apart_given h.apart loose)⟩
  | @other m m' r F' _ free same ih =>
    obtain ⟨F, h⟩ := ih
    have sp := h.space.frame fun p hp => (same p hp).1
    exact ⟨F', sp.table free (Set.disjoint_left.mpr fun p hp => (same p hp).2)⟩

/-! ## What the calls do to the map -/

theorem Table.walk_keeps {va : Nat} (h : Table K m r F) (low : va < MAXVA) :
    ∃ a m', walk (r * PGSIZE) va true m = .ok (a, m') ∧ m'.tr r = m.tr r := by
  obtain ⟨a, m', ran, -, U, grown, -⟩ := (run_walk_alloc h.space h.free h.apart).total low
  exact ⟨a, m', ran, grown.space.trans⟩

/-- The number of pages in a range that starts with a page. -/
def pages (size : Nat) : Nat := (size + PGSIZE - 1) / PGSIZE

theorem Table.mappages_sets {k size pa perm : Nat} (h : Table K m r F) (pos : 0 < size)
    (high : k * PGSIZE + size ≤ MAXVA) (hpa : pa < 2 ^ 64) (aligned : pa % PGSIZE = 0)
    (hperm : perm < 1024) (unmapped : ∀ j, k ≤ j → j < k + pages size → m.tr r j = none) :
    ∃ res m' c, mappages (r * PGSIZE) (k * PGSIZE) size pa perm m = .ok (res, m') ∧
      (res = 0 ∧ c = pages size ∨ res = -1 ∧ c < pages size) ∧
      (∀ j < c, m'.tr r (k + j) = some ((pa + j * PGSIZE) % 2 ^ 64, perm ||| PTE_V)) ∧
      ∀ j, ¬ (k ≤ j ∧ j < k + c) → m'.tr r j = m.tr r j := by
  have last : (k * PGSIZE + size - 1) / PGSIZE + 1 = k + pages size := by
    simp only [pages, PGSIZE]
    omega
  have inside : k * PGSIZE + size ≤ 2 ^ 64 := high.trans (by decide)
  obtain ⟨res, m', ran, U, c, grown, -, result⟩ :=
    (run_mappages h.space h.free h.apart hpa (hperm.trans (by decide))).total
      ⟨pos, high, fun j low below => unmapped j (by rwa [base_div] at low) (by omega)⟩
  rw [base_div] at grown result
  refine ⟨res, m', c, ran, ?_, ?_, ?_⟩
  · rw [Nat.mod_eq_of_lt (by omega)] at result
    rcases result with ⟨rfl, all⟩ | ⟨rfl, some⟩
    · exact .inl ⟨rfl, by omega⟩
    · have := some inside
      exact .inr ⟨rfl, by omega⟩
  · intro j hj
    have addr : (pa + j * PGSIZE) % 2 ^ 64 / PGSIZE * PGSIZE = (pa + j * PGSIZE) % 2 ^ 64 := by
      simp only [PGSIZE] at aligned ⊢
      omega
    rw [grown.space.trans, spread, if_pos (by omega), Nat.add_sub_cancel_left,
      leaf_pte hperm (Nat.mod_lt _ (by decide)), addr]
  · intro j away
    rw [grown.space.trans, spread, if_neg away]

theorem Table.uvmunmap_removes {k n : Nat} {doFree : Bool} (h : Table K m r F) (high : k + n ≤ NPAGES)
    (mapped : ∀ j, k ≤ j → j < k + n → ∃ pa f, m.tr r j = some (pa, f) ∧ f ≠ PTE_V)
    (loose : doFree = true → Loose K (m.tr r) k (k + n) (Nodes below m.entry r 2) F) :
    ∃ m', uvmunmap K (r * PGSIZE) (k * PGSIZE) n doFree m = .ok ((), m') ∧
      ∀ j, m'.tr r j = if k ≤ j ∧ j < k + n then none else m.tr r j := by
  obtain ⟨⟨⟩, m', ran, sp, -⟩ := (run_uvmunmap h.space h.free h.apart high loose).total mapped
  exact ⟨m', ran, fun j => by rw [sp.trans, erase]⟩

theorem Table.walkaddr_reads {va : Nat} (h : Table K m r F) :
    walkaddr (r * PGSIZE) va m = .ok (userAddr (m.tr r (va / PGSIZE)), m) := by
  have read : Meets (walkaddr (r * PGSIZE) va) m True _ := run_walkaddr h.space
  obtain ⟨pa, m', ran, rfl, rfl⟩ := read.total trivial
  exact ran

theorem pteOf_inj {p p' k k' : Nat} (h : pteOf p k = pteOf p' k') : p = p' ∧ ix 0 k = ix 0 k' := by
  have lt : 8 * (ix 0 k).val < PGSIZE := slot_lt
  have lt' : 8 * (ix 0 k').val < PGSIZE := slot_lt
  simp only [pteOf, PGSIZE] at h lt lt'
  exact ⟨by omega, Fin.ext (by omega)⟩

/-- The entries of two virtual pages are at different addresses. -/
theorem Table.entries_apart {k k' a : Nat} (h : Table K m r F) (hk : k < NPAGES) (hk' : k' < NPAGES)
    (find : walk (r * PGSIZE) (k * PGSIZE) false m = .ok (some a, m))
    (find' : walk (r * PGSIZE) (k' * PGSIZE) false m = .ok (some a, m)) : k = k' := by
  have entry : ∀ j, walk (r * PGSIZE) (j * PGSIZE) false m = .ok (some a, m) →
      ∃ p, follow below m.entry r (upper j 0) = some p ∧ a = pteOf p j := by
    intro j ran
    obtain ⟨-, -, found⟩ := run_walk_find.post ran
    rw [base_div] at found
    obtain ⟨p, reach, rfl⟩ := Option.map_eq_some_iff.mp found.symm
    exact ⟨p, reach, rfl⟩
  obtain ⟨p, reach, rfl⟩ := entry k find
  obtain ⟨p', reach', same⟩ := entry k' find'
  obtain ⟨rfl, slot⟩ := pteOf_inj same
  exact page_eq hk hk' (h.space.tree le_rfl le_rfl reach reach') slot

def sampleSymbols : Symbols where
  kernelEnd := 0x80001000
  trampoline := 0x80000000
  forkret := 0x80000000
  aligned := by decide
  base := by decide
  text := by decide
  ram := by decide

def sampleMem : Mem where
  page := fun p => if 0x80001 ≤ p ∧ p < 0x8000a then Bytes.Buffer.zero.putNum 8 0 ((p + 1) * PGSIZE)
    else Bytes.Buffer.zero
  freelist := 0x80001 * PGSIZE

theorem sampleMem_free : Frees sampleSymbols sampleMem {p | 0x80001 ≤ p ∧ p ≤ 0x8000a} := by
  refine ⟨⟨(List.range 10).map (0x80001 + ·), by decide, ?_, ?_⟩, ?_⟩
  · intro p
    simp only [List.mem_map, List.mem_range, Set.mem_ofPred_eq]
    constructor
    · rintro ⟨i, hi, rfl⟩
      omega
    · exact fun h => ⟨p - 0x80001, by omega, by omega⟩
  · have last : sampleMem.get64 (0x8000a * PGSIZE) = 0 := by decide +kernel
    refine ⟨rfl, ?_, ?_, ?_, ?_, ?_, ?_, ?_, ?_, ?_, last⟩
    all_goals decide +kernel
  · rintro p ⟨low, high⟩
    constructor
    · simp only [sampleSymbols, PGSIZE]
      omega
    · simp only [PHYSTOP, KERNBASE, PGSIZE]
      omega

/-- The memory after `uvmcreate`; the table is in page `0x80001`. -/
def sampleTable : Mem := after uvmcreate sampleMem

theorem sampleTable_built : Built sampleSymbols sampleTable 0x80001 :=
  .create sampleMem_free (ok_of_answer (by decide +kernel))

abbrev UART0 : Nat := 0x10000000

end Xv6.Vm
