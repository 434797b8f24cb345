import Xv6.Vm.Proc
import Xv6.Vm.User

/-!
# Page tables from `proc_pagetable` to `proc_freepagetable`

`Bare m r d`: the table with root `r` has tables down to depth `d` and no other valid entry, as
`freewalk` demands. It then frees exactly the tables.
-/

namespace Xv6.Vm

open Fallible Radix
open Xv6.Fs (PGSIZE)

variable {K : Symbols} {m m' : Mem} {r p q d : Nat} {N F T : Set Nat} {P : Prop}
variable {t : Nat → Option (Nat × Nat)}

def Bare (m : Mem) (r d : Nat) : Prop :=
  ∀ (is : List (Fin 512)) (p : Nat) (i : Fin 512), is.length ≤ d → follow below m.entry r is = some p →
    m.entry p i &&& PTE_V ≠ 0 → is.length < d ∧ pteFlags (m.entry p i) = PTE_V

theorem Bare.below {i : Fin 512} (bare : Bare m r (d + 1)) (link : below (m.entry r i) = some q) :
    Bare m q d := by
  intro is p j short reach valid
  have down : follow Vm.below m.entry r (i :: is) = some p := by
    rw [follow, link]
    exact reach
  obtain ⟨lt, flags⟩ := bare (i :: is) p j (Nat.succ_le_succ short) down valid
  exact ⟨Nat.lt_of_succ_lt_succ lt, flags⟩

/-- A table of the lowest level is empty. -/
theorem Bare.bottom {i : Fin 512} (bare : Bare m r 0) : ¬ m.entry r i &&& PTE_V ≠ 0 := by
  intro valid
  exact absurd (bare [] r i le_rfl rfl valid).1 (Nat.lt_irrefl 0)

theorem store64_run {a v : Nat} : store64 a v m = .ok ((), m.put64 a v) := rfl

theorem load_entry {i : Fin 512} : load64 (p * PGSIZE + 8 * i) m = .ok (m.entry p i, m) := by
  rw [load64, get64_entry]

/-- The tables below an entry. -/
def Sub (m : Mem) (p d : Nat) (i : Fin 512) : Set Nat :=
  {x | ∃ q, below (m.entry p i) = some q ∧ x ∈ Nodes below m.entry q d}

theorem sub_of_link {i : Fin 512} (link : below (m.entry p i) = some q) :
    Sub m p d i = Nodes below m.entry q d := by
  ext x
  constructor
  · rintro ⟨q', link', hx⟩
    obtain rfl := Option.some.inj (link.symm.trans link')
    exact hx
  · exact fun hx => ⟨q, link, hx⟩

theorem sub_of_none {i : Fin 512} (none : below (m.entry p i) = none) : Sub m p d i = ∅ := by
  refine Set.eq_empty_iff_forall_notMem.mpr ?_
  rintro x ⟨q, link, -⟩
  rw [none] at link
  cases link

/-- The tables below some entries of a table. -/
def Subs (m : Mem) (p d : Nat) (is : List (Fin 512)) : Set Nat := {x | ∃ i ∈ is, x ∈ Sub m p d i}

theorem subs_cons {i : Fin 512} {is : List (Fin 512)} :
    Subs m p d (i :: is) = Sub m p d i ∪ Subs m p d is := by
  ext x
  constructor
  · rintro ⟨j, hj, hx⟩
    rcases List.mem_cons.mp hj with rfl | hj
    · exact .inl hx
    · exact .inr ⟨j, hj, hx⟩
  · rintro (hx | ⟨j, hj, hx⟩)
    · exact ⟨i, List.mem_cons_self, hx⟩
    · exact ⟨j, List.mem_cons_of_mem i hj, hx⟩

/-- Two entries lead to different tables. -/
theorem sub_apart {i j : Fin 512} (tree : Unshared below m.entry p (d + 1)) (other : i ≠ j) :
    Disjoint (Sub m p d i) (Sub m p d j) := by
  refine Set.disjoint_left.mpr ?_
  rintro x ⟨q, hq, hx⟩ ⟨q', hq', hx'⟩
  exact other (tree.apart hq hq' hx hx')

theorem not_mem_sub {i : Fin 512} (tree : Unshared below m.entry p (d + 1)) : p ∉ Sub m p d i := by
  rintro ⟨q, hq, hx⟩
  exact tree.root_not_below hq hx

/-- What `freewalk` is to do with a table of depth `d`, in any memory that agrees with `m₀` on it. -/
def Freed (K : Symbols) (m₀ : Mem) (call : Nat → Code Unit) (q d : Nat) (P : Prop) : Prop :=
  ∀ (m : Mem) (F : Set Nat), (∀ x ∈ Nodes below m₀.entry q d, m.page x = m₀.page x) → Frees K m F →
    Disjoint (Nodes below m₀.entry q d) F → Meets (call (q * PGSIZE)) m P fun _ m' =>
      Frees K m' (F ∪ Nodes below m₀.entry q d) ∧ Only (Nodes below m₀.entry q d) m m'

/-- The loop of `freewalk` over the entries of a table, given what the recursive calls do. -/
theorem run_freeEntries {call : Nat → Code Unit} {m₀ : Mem} {is : List (Fin 512)}
    (tree : Unshared below m₀.entry p (d + 1)) (bare : Bare m₀ p (d + 1))
    (recur : ∀ i q, below (m₀.entry p i) = some q → Freed K m₀ call q d P) (nodup : is.Nodup)
    (entries : ∀ i ∈ is, m.entry p i = m₀.entry p i)
    (same : ∀ x ∈ Subs m₀ p d is, m.page x = m₀.page x) (free : Frees K m F)
    (apart : Disjoint (Subs m₀ p d is) F) (used : p ∉ F) :
    Meets (freeEntries call (p * PGSIZE) is) m P fun _ m' =>
      Frees K m' (F ∪ Subs m₀ p d is) ∧ Only (insert p (Subs m₀ p d is)) m m' := by
  induction is generalizing m F with
  | nil =>
    refine Meets.pure ⟨?_, Only.refl⟩
    have none : Subs m₀ p d [] = ∅ := Set.eq_empty_iff_forall_notMem.mpr (by simp [Subs])
    rw [none, Set.union_empty]
    exact free
  | cons i is ih =>
    obtain ⟨fresh, nodup⟩ := List.nodup_cons.mp nodup
    have here := entries i List.mem_cons_self
    rw [subs_cons] at same apart ⊢
    obtain ⟨apart_i, apart_is⟩ := Set.disjoint_union_left.mp apart
    refine Meets.step (load_entry.trans (by rw [here])) ?_
    by_cases valid : m₀.entry p i &&& PTE_V ≠ 0
    · have flags := (bare [] p i (Nat.zero_le _) rfl valid).2
      have link : below (m₀.entry p i) = some (pte2pa (m₀.entry p i) / PGSIZE) := by
        rw [below, if_pos valid]
      have bits : m₀.entry p i &&& (PTE_R ||| PTE_W ||| PTE_X) = 0 := by
        rw [and_flags _ rfl, flags]
        rfl
      have sub := sub_of_link (d := d) link
      have notSub : p ∉ Sub m₀ p d i := not_mem_sub tree
      rw [if_pos ⟨valid, bits⟩, ← pte2pa_base]
      rw [sub] at same apart_i notSub
      refine Meets.bind (recur i _ link m F (fun x hx => same x (.inl hx)) free apart_i) ?_
      rintro _ m₁ ⟨free₁, only₁⟩
      refine Meets.step store64_run ?_
      have used₁ : p ∉ F ∪ Sub m₀ p d i := by
        rw [sub]
        rintro (h | h)
        · exact used h
        · exact notSub h
      rw [← sub] at free₁ only₁
      have free₂ : Frees K (m₁.put64 (p * PGSIZE + 8 * i) 0) (F ∪ Sub m₀ p d i) := by
        refine free₁.frame rfl fun x hx => only_put64 x ?_
        rintro rfl
        exact used₁ hx
      have away : ∀ j ∈ is, Disjoint (Sub m₀ p d j) (Sub m₀ p d i) :=
        fun j hj => sub_apart tree fun e => fresh (e ▸ hj)
      refine (ih nodup ?_ ?_ free₂ ?_ used₁).mono ?_
      · intro j hj
        have other : j ≠ i := fun e => fresh (e ▸ hj)
        rw [entry_put64_index other, entry_congr (only₁ p fun h => used₁ (.inr h)),
          entries j (List.mem_cons_of_mem i hj)]
      · intro x hx
        obtain ⟨j, hj, hx'⟩ := hx
        have hp : x ≠ p := fun e => not_mem_sub tree (e ▸ hx')
        rw [only_put64 x hp, only₁ x (Set.disjoint_left.mp (away j hj) hx'), same x (.inr ⟨j, hj, hx'⟩)]
      · refine Set.disjoint_union_right.mpr ⟨apart_is, Set.disjoint_left.mpr ?_⟩
        rintro x ⟨j, hj, hx⟩
        exact Set.disjoint_left.mp (away j hj) hx
      · rintro _ m' ⟨free', only'⟩
        rw [Set.union_assoc] at free'
        refine ⟨free', (only₁.mono ?_).trans ((only_put64.mono ?_).trans (only'.mono ?_))⟩
        · exact fun x hx => .inr (.inl hx)
        · exact Set.singleton_subset_iff.mpr (.inl rfl)
        · exact Set.insert_subset_insert Set.subset_union_right
    · have none : below (m₀.entry p i) = none := by rw [below, if_neg valid]
      rw [if_neg fun h => valid h.1, if_neg valid, sub_of_none none, Set.empty_union]
      refine ih nodup (fun j hj => entries j (List.mem_cons_of_mem i hj)) (fun x hx => same x (.inr hx)) free
        apart_is used

/-- `freewalk` frees the tables. -/
theorem run_freewalkFrom {room : Nat} {m₀ : Mem} (enough : d < room) (tree : Unshared below m₀.entry p d)
    (bare : Bare m₀ p d) (ram : ∀ x ∈ Nodes below m₀.entry p d, K.Ram x) :
    Freed K m₀ (freewalkFrom K room) p d P := by
  induction room generalizing p d with
  | zero => omega
  | succ room ih =>
    intro m F same free apart
    have used : p ∉ F := Set.disjoint_left.mp apart root_mem
    have entries : ∀ i, m.entry p i = m₀.entry p i := fun i => entry_congr (same p root_mem)
    rw [freewalkFrom]
    cases d with
    | zero =>
      have loop : ∀ is : List (Fin 512), freeEntries (freewalkFrom K room) (p * PGSIZE) is m = .ok ((), m) := by
        intro is
        induction is with
        | nil => rfl
        | cons i is rest =>
          have invalid := bare.bottom (i := i)
          rw [freeEntries, bind_ok load_entry, entries, if_neg fun h => invalid h.1, if_neg invalid]
          exact rest
      have only : Nodes below m₀.entry p 0 = {p} := Set.ext fun x => mem_nodes_zero
      refine Meets.step (loop _) ((free.run_kfree (ram p root_mem) used).mono ?_)
      rintro _ m' ⟨free', only'⟩
      rw [only, Set.union_singleton]
      exact ⟨free', only'⟩
    | succ d =>
      have parts : Nodes below m₀.entry p (d + 1) = insert p (Subs m₀ p d (List.finRange 512)) := by
        ext x
        rw [mem_nodes_succ, Set.mem_insert_iff]
        constructor
        · rintro (rfl | ⟨i, q, link, hx⟩)
          · exact .inl rfl
          · exact .inr ⟨i, List.mem_finRange i, q, link, hx⟩
        · rintro (rfl | ⟨i, -, q, link, hx⟩)
          · exact .inl rfl
          · exact .inr ⟨i, q, link, hx⟩
      have recur : ∀ i q, below (m₀.entry p i) = some q → Freed K m₀ (freewalkFrom K room) q d P := by
        intro i q link
        refine ih (by omega) (tree.below link) (bare.below link) fun x hx => ram x ?_
        exact mem_nodes_succ.mpr (.inr ⟨i, q, link, hx⟩)
      rw [parts] at same apart ⊢
      refine Meets.bind (run_freeEntries tree bare recur (List.nodup_finRange 512) (fun i _ => entries i)
        (fun x hx => same x (.inr hx)) free (apart.mono_left (Set.subset_insert ..)) used) ?_
      rintro _ m₁ ⟨free₁, only₁⟩
      have notIn : p ∉ F ∪ Subs m₀ p d (List.finRange 512) := by
        rintro (h | ⟨i, -, h⟩)
        · exact used h
        · exact not_mem_sub tree h
      refine (free₁.run_kfree (ram p root_mem) notIn).mono ?_
      rintro _ m' ⟨free', only'⟩
      rw [Set.union_insert]
      exact ⟨free', only₁.trans (only'.mono (Set.singleton_subset_iff.mpr (.inl rfl)))⟩

/-- A space that maps nothing can be freed. -/
theorem Space.bare (sp : Space K m r N t) (empty : ∀ k, t k = none) : Bare m r 2 := by
  intro is p i short reach valid
  by_cases inner : is.length < 2
  · exact ⟨inner, sp.inner is p i inner reach valid⟩
  · exfalso
    obtain ⟨a, b, rfl⟩ : ∃ a b, is = [a, b] := List.length_eq_two.mp (by omega)
    have first : m.entry r a &&& PTE_V ≠ 0 := by
      intro invalid
      rw [follow, below, if_neg (not_not.mpr invalid)] at reach
      cases reach
    have low := sp.low a first
    have hb := b.isLt
    have hi := i.isLt
    -- the virtual page with the indices `a`, `b` and `i`
    have hk : a.val * 2 ^ 18 + b.val * 2 ^ 9 + i.val < NPAGES := by
      simp only [NPAGES, MAXVA, PGSIZE]
      omega
    have path : upper (a.val * 2 ^ 18 + b.val * 2 ^ 9 + i.val) 0 = [a, b] := by
      simp only [upper, ix, List.cons.injEq, Fin.ext_iff, and_true]
      omega
    have slot : ix 0 (a.val * 2 ^ 18 + b.val * 2 ^ 9 + i.val) = i := by
      simp only [ix, Fin.ext_iff]
      omega
    have entry := sp.tr_of_find hk (path ▸ reach)
    rw [empty, slot, leaf, if_pos valid] at entry
    cases entry

theorem run_freewalk (sp : Space K m r N t) (free : Frees K m F) (apart : Disjoint N F)
    (empty : ∀ k, t k = none) :
    Meets (freewalk K (r * PGSIZE)) m P fun _ m' => Frees K m' (N ∪ F) ∧ Only N m m' := by
  have nodes := sp.nodes
  have freed := run_freewalkFrom (P := P) (show 2 < PGSIZE / 16 by decide) sp.tree (sp.bare empty)
    fun x hx => sp.ram x (nodes ▸ hx)
  have run := freed m F (fun _ _ => rfl) free (by rw [nodes]; exact apart)
  rw [nodes] at run
  rw [Set.union_comm]
  exact run

/-! ## `uvmfree` -/

/-- The user pages and the tables are freed, if nothing else is mapped. -/
theorem run_uvmfree {sz : Nat} (img : Img K m r (pages sz) t N T) (free : Frees K m F) (apart : Disjoint T F)
    (alone : ∀ k, pages sz ≤ k → t k = none) :
    Meets (uvmfree K (r * PGSIZE) sz) m P fun _ m' => Frees K m' (T ∪ F) ∧ Only T m m' := by
  have empty : ∀ k, erase t 0 (pages sz) k = none := by
    intro k
    rw [erase]
    split
    · rfl
    · exact alone k (by omega)
  rw [uvmfree]
  split
  case isTrue pos =>
    have small : sz + PGSIZE ≤ 2 ^ 64 := by
      have bound := img.le_ram
      simp only [pages, PGSIZE] at bound ⊢
      omega
    rw [pgroundup_eq small, base_div]
    refine Meets.bind (run_unmap_all img free apart) ?_
    rintro _ m₁ ⟨space, free₁, only₁⟩
    have apart₁ : Disjoint N (F ∪ frames t 0 (pages sz)) :=
      Set.disjoint_union_right.mpr ⟨apart.mono_left img.tables_sub,
        Set.disjoint_left.mpr fun p hN hp => img.not_table hp hN⟩
    refine (run_freewalk space free₁ apart₁ empty).mono ?_
    rintro _ m' ⟨free', only'⟩
    refine ⟨?_, only₁.trans (only'.mono img.tables_sub)⟩
    rwa [Set.union_comm F, ← Set.union_assoc, img.total] at free'
  case isFalse zero =>
    have none : pages sz = 0 := by
      obtain rfl : sz = 0 := by omega
      rfl
    have tables : T = N := by rw [← img.total, none, frames_none le_rfl, Set.union_empty]
    rw [tables]
    exact run_freewalk img.space free (apart.mono_left img.tables_sub) fun k => alone k (by omega)

/-! ## `proc_pagetable` and `proc_freepagetable` -/

/-- A table without user pages. -/
theorem Space.img (sp : Space K m r N t) : Img K m r 0 t N N :=
  ⟨sp, by omega, by omega, by rw [frames_none le_rfl, Set.union_empty]⟩

/-- The trampoline and the trapframe in page `q` are mapped at the top of an address space. -/
structure Top (K : Symbols) (t : Nat → Option (Nat × Nat)) (q : Nat) : Prop where
  trampoline : t (NPAGES - 1) = some (K.trampoline, PTE_R ||| PTE_X ||| PTE_V)
  trapframe : t (NPAGES - 2) = some (q * PGSIZE, PTE_R ||| PTE_W ||| PTE_V)

theorem trampoline_base (K : Symbols) : K.trampoline / PGSIZE * PGSIZE = K.trampoline :=
  Nat.div_mul_cancel (Nat.dvd_of_mod_eq_zero K.aligned)

theorem trampoline_lt (K : Symbols) : K.trampoline < 2 ^ 64 := by
  have := K.text
  have := K.ram
  simp only [PHYSTOP, KERNBASE, PGSIZE] at *
  omega

/-- One page above the user pages is unmapped, and not freed. -/
theorem run_unmap_top {k n : Nat} (img : Img K m r n t N T) (free : Frees K m F) (apart : Disjoint T F)
    (high : n ≤ k) (hk : k < NPAGES) {pa f : Nat} (entry : t k = some (pa, f)) (hf : f ≠ PTE_V) :
    Meets (uvmunmap K (r * PGSIZE) (k * PGSIZE) 1 false) m P fun _ m' =>
      Img K m' r n (Function.update t k none) N T ∧ Frees K m' F ∧ Only N m m' := by
  have run : Meets (uvmunmap K (r * PGSIZE) (k * PGSIZE) 1 false) m _ _ :=
    run_uvmunmap img.space free (apart.mono_left img.tables_sub) (Nat.succ_le_of_lt hk) nofun
  refine (run.needs ?_).mono ?_
  · intro _ j low below
    obtain rfl : j = k := by omega
    exact ⟨pa, f, entry, hf⟩
  · rintro _ m' ⟨space, free', only⟩
    have update : erase t k (k + 1) = Function.update t k none := by
      rw [← erase_succ (Nat.lt_succ_self k), erase_none le_rfl]
    have same : ∀ j, j < n → Function.update t k none j = t j :=
      fun j hj => Function.update_of_ne (by omega) ..
    rw [given, if_neg (by decide), Set.union_empty] at free' only
    rw [update] at space
    refine ⟨⟨space, ?_, ?_, ?_⟩, free', only⟩
    · intro j hj
      rw [same j hj]
      exact img.mapped j hj
    · intro i j p f g hi hj
      rw [same i hi, same j hj]
      exact img.inj i j p f g hi hj
    · rw [frames_congr fun j _ hj => same j hj]
      exact img.total

/-- Everything is freed. -/
theorem run_procFreepagetable {sz q : Nat} (img : Img K m r (pages sz) t N T) (free : Frees K m F)
    (apart : Disjoint T F) (top : Top K t q) (gap : ∀ j, pages sz ≤ j → j < NPAGES - 2 → t j = none) :
    Meets (procFreepagetable K (r * PGSIZE) sz) m P fun _ m' => Frees K m' (T ∪ F) ∧ Only T m m' := by
  have bound : pages sz < NPAGES - 2 := img.le_ram.trans_lt (by decide)
  refine Meets.bind (run_unmap_top (k := NPAGES - 1) img free apart (by omega) (by decide) top.trampoline
    (by decide)) ?_
  rintro _ m₁ ⟨img₁, free₁, only₁⟩
  have entry : Function.update t (NPAGES - 1) none (NPAGES - 2) = some (q * PGSIZE, PTE_R ||| PTE_W ||| PTE_V) := by
    rw [Function.update_of_ne (by decide)]
    exact top.trapframe
  refine Meets.bind (run_unmap_top (k := NPAGES - 2) img₁ free₁ apart (by omega) (by decide) entry (by decide)) ?_
  rintro _ m₂ ⟨img₂, free₂, only₂⟩
  refine (run_uvmfree img₂ free₂ apart ?_).mono ?_
  · intro k low
    by_cases frame : k = NPAGES - 2
    · rw [frame, Function.update_self]
    · rw [Function.update_of_ne frame]
      by_cases line : k = NPAGES - 1
      · rw [line, Function.update_self]
      · rw [Function.update_of_ne line]
        by_cases out : NPAGES ≤ k
        · exact img.space.tr_high out
        · exact gap k low (by omega)
  · rintro _ m' ⟨free', only'⟩
    exact ⟨free', ((only₁.trans only₂).mono img.tables_sub).trans only'⟩

/-- A table that maps nothing is freed. -/
theorem run_uvmfree_empty (sp : Space K m r N t) (free : Frees K m F) (apart : Disjoint N F)
    (empty : ∀ k, t k = none) :
    Meets (uvmfree K (r * PGSIZE) 0) m P fun _ m' => Frees K m' (N ∪ F) ∧ Only N m m' := by
  rw [uvmfree, if_neg (Nat.lt_irrefl 0)]
  exact run_freewalk sp free apart empty

/-- A new table with the trampoline and the trapframe, or no page left, and nothing kept. -/
theorem run_procPagetable {q : Nat} (free : Frees K m F) (hq : q * PGSIZE < 2 ^ 64) :
    Meets (procPagetable K (q * PGSIZE)) m P fun a m' =>
      a = none ∧ Frees K m' F ∧ Only F m m' ∨
      ∃ r t N F', a = some (r * PGSIZE) ∧ Img K m' r 0 t N N ∧ Frees K m' F' ∧ Disjoint N F' ∧ N ∪ F' = F ∧
        Only F m m' ∧ Top K t q ∧ ∀ j, j < NPAGES - 2 → t j = none := by
  refine Meets.bind (run_uvmcreate free) ?_
  rintro _ m₁ (⟨rfl, rfl, -⟩ | ⟨r, hr, rfl, sp, free₁, only₁⟩)
  · exact Meets.pure (.inl ⟨rfl, free, Only.refl⟩)
  have total₁ : ({r} : Set Nat) ∪ F \ {r} = F := Set.union_sdiff_cancel (Set.singleton_subset_iff.mpr hr)
  have apart₁ : Disjoint {r} (F \ {r}) := Set.disjoint_sdiff_right
  replace only₁ := only₁.mono (Set.singleton_subset_iff.mpr hr)
  have line : Meets (mappages (r * PGSIZE) ((NPAGES - 1) * PGSIZE) PGSIZE (K.trampoline / PGSIZE * PGSIZE)
      (PTE_R ||| PTE_X)) m₁ P _ :=
    run_mappages_one sp free₁ apart₁ (by decide) (by rw [trampoline_base]; exact trampoline_lt K) (by decide) rfl
  rw [trampoline_base] at line
  refine Meets.bind line ?_
  rintro _ m₂ ⟨U, ⟨rfl, grown⟩ | ⟨rfl, grown⟩⟩
  · have total₂ := grown.total.trans total₁
    have only₂ := only₁.trans (grown.only.mono (total₁ ▸ grown.tables_sub))
    have apart₂ := apart_grow (U := U) apart₁
    rw [if_neg (by decide)]
    refine Meets.bind (run_mappages_one (k := NPAGES - 2) grown.space grown.free apart₂ (by decide) hq
      (by decide) (by rw [Function.update_of_ne (by decide)])) ?_
    rintro _ m₃ ⟨V, ⟨rfl, grown₃⟩ | ⟨rfl, grown₃⟩⟩
    · have only₃ := only₂.trans (grown₃.only.mono (total₂ ▸ grown₃.tables_sub))
      rw [if_neg (by decide)]
      refine Meets.pure (.inr ⟨r, _, _, _, rfl, grown₃.space.img, grown₃.free, apart_grow apart₂,
        grown₃.total.trans total₂, only₃, ⟨?_, Function.update_self ..⟩, ?_⟩)
      · rw [Function.update_of_ne (by decide), Function.update_self]
      · intro j hj
        rw [Function.update_of_ne (by omega), Function.update_of_ne (by omega)]
    · -- the trapframe could not be mapped
      have only₃ := only₂.trans (grown₃.only.mono (total₂ ▸ grown₃.tables_sub))
      have total₃ := grown₃.total.trans total₂
      have apart₃ := apart_grow (U := V) apart₂
      rw [if_pos (by decide)]
      refine Meets.bind (run_unmap_top (k := NPAGES - 1) grown₃.space.img grown₃.free apart₃ (Nat.zero_le _)
        (by decide) (Function.update_self ..) (by decide)) ?_
      rintro _ m₄ ⟨img₄, free₄, only₄⟩
      refine Meets.bind (run_uvmfree_empty img₄.space free₄ apart₃ ?_) ?_
      · intro k
        by_cases line : k = NPAGES - 1
        · rw [line, Function.update_self]
        · rw [Function.update_of_ne line, Function.update_of_ne line]
      · rintro _ m₅ ⟨free₅, only₅⟩
        rw [total₃] at free₅
        have sub : {r} ∪ U ∪ V ⊆ F := total₃ ▸ Set.subset_union_left
        exact Meets.pure (.inl ⟨rfl, free₅, only₃.trans ((only₄.trans only₅).mono sub)⟩)
  · rw [if_pos (by decide)]
    refine Meets.bind (run_uvmfree_empty grown.space grown.free (apart_grow apart₁) fun _ => rfl) ?_
    rintro _ m₃ ⟨free₃, only₃⟩
    rw [grown.total.trans total₁] at free₃
    have sub : {r} ∪ U ⊆ F := total₁ ▸ grown.tables_sub
    exact Meets.pure (.inl ⟨rfl, free₃, only₁.trans ((grown.only.trans only₃).mono sub)⟩)

end Xv6.Vm
