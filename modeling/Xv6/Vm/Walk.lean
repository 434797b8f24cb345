import Xv6.Vm.Space

/-!
# What `walk` and `walkaddr` find and change

`Grown` is what `walk` with `alloc` may do: some free pages become tables, and no translation
changes.
-/

namespace Xv6.Vm

open Fallible Radix
open Xv6.Fs (PGSIZE)

variable {K : Symbols} {m m' m'' : Mem} {r p k va : Nat} {N F U V : Set Nat} {P : Prop}
variable {t t' t'' : Nat → Option (Nat × Nat)}

theorem pte2pa_base (pte : Nat) : pte2pa pte / PGSIZE * PGSIZE = pte2pa pte := by
  simp only [pte2pa, PGSIZE]
  omega

theorem pa2pte_lt {pa : Nat} (hpa : pa < 2 ^ 64) : pa2pte pa < 2 ^ 64 := by
  simp only [pa2pte, PGSIZE]
  omega

/-! ## Finding an entry -/

/-- The address of the entry of the virtual page `k` in its lowest table `p`. -/
def pteOf (p k : Nat) : Nat := p * PGSIZE + 8 * ix 0 k

theorem load_pteOf : load64 (pteOf p k) m = .ok (m.entry p (ix 0 k), m) := by
  rw [load64, pteOf, get64_entry]

theorem load_px {level : Nat} : load64 (p * PGSIZE + 8 * px level va) m =
    .ok (m.entry p (ix level (va / PGSIZE)), m) := by
  rw [load64, px_eq, get64_entry]

theorem upper_le (k : Nat) {level : Nat} (h : level ≤ 2) : ∃ js, upper k 0 = upper k level ++ js := by
  obtain rfl | rfl | rfl : level = 0 ∨ level = 1 ∨ level = 2 := by omega
  · exact ⟨[], rfl⟩
  · exact ⟨[ix 1 k], rfl⟩
  · exact ⟨[ix 2 k, ix 1 k], rfl⟩

theorem follow_upper_succ {level : Nat} (h : level < 2)
    (reach : follow below m.entry r (upper k (level + 1)) = some p) :
    follow below m.entry r (upper k level) = below (m.entry p (ix (level + 1) k)) := by
  rw [upper_succ h, follow_snoc, reach, Option.bind_some]

theorem run_walkFrom_find {level : Nat} (h : level ≤ 2)
    (reach : follow below m.entry r (upper (va / PGSIZE) level) = some p) :
    Meets (walkFrom va false level (p * PGSIZE)) m P fun a m' => m' = m ∧
      a = (follow below m.entry r (upper (va / PGSIZE) 0)).map (pteOf · (va / PGSIZE)) := by
  induction level generalizing p with
  | zero =>
    apply Meets.pure
    rw [reach, px_eq]
    exact ⟨rfl, rfl⟩
  | succ level ih =>
    refine Meets.step load_px ?_
    have next := follow_upper_succ h reach
    split
    case isTrue valid =>
      rw [below, if_pos valid] at next
      rw [← pte2pa_base]
      exact ih (by omega) next
    case isFalse invalid =>
      rw [below, if_neg invalid] at next
      apply Meets.pure
      obtain ⟨js, path⟩ := upper_le (va / PGSIZE) (Nat.le_of_lt h)
      rw [path, follow_append, next]
      exact ⟨rfl, rfl⟩

/-- `walk` without `alloc` finds the entry of a page if its tables exist. -/
theorem run_walk_find : Meets (walk (r * PGSIZE) va false) m (va < MAXVA) fun a m' => va < MAXVA ∧ m' = m ∧
    a = (follow below m.entry r (upper (va / PGSIZE) 0)).map (pteOf · (va / PGSIZE)) := by
  rw [walk]
  split
  · exact Meets.throw _ (by omega)
  · exact (run_walkFrom_find le_rfl rfl).mono fun _ _ h => ⟨by omega, h⟩

/-! ## Growing the tree -/

/-- The free pages `U` have become tables. -/
structure Grown (K : Symbols) (m m' : Mem) (r : Nat) (N F U : Set Nat)
    (t : Nat → Option (Nat × Nat)) : Prop where
  sub : U ⊆ F
  space : Space K m' r (N ∪ U) t
  free : Frees K m' (F \ U)
  only : Only (N ∪ U) m m'

theorem Grown.refl (sp : Space K m r N t) (free : Frees K m F) : Grown K m m r N F ∅ t :=
  ⟨Set.empty_subset F, by rwa [Set.union_empty], by rwa [Set.sdiff_empty], Only.refl⟩

theorem Grown.trans (g : Grown K m m' r N F U t) (g' : Grown K m' m'' r (N ∪ U) (F \ U) V t') :
    Grown K m m'' r N F (U ∪ V) t' := by
  refine ⟨Set.union_subset g.sub (g'.sub.trans Set.sdiff_subset), ?_, ?_, ?_⟩
  · rw [← Set.union_assoc]
    exact g'.space
  · rw [← Set.sdiff_sdiff]
    exact g'.free
  · rw [← Set.union_assoc]
    exact (g.only.mono Set.subset_union_left).trans g'.only

/-- The pages of the tree stay apart from the free ones. -/
theorem apart_grow (apart : Disjoint N F) : Disjoint (N ∪ U) (F \ U) :=
  Set.disjoint_union_left.mpr ⟨apart.mono_right Set.sdiff_subset, Set.disjoint_sdiff_right⟩

theorem Grown.total (g : Grown K m m' r N F U t) : N ∪ U ∪ F \ U = N ∪ F := by
  rw [Set.union_assoc, Set.union_sdiff_cancel g.sub]

theorem Grown.tables_sub (g : Grown K m m' r N F U t) : N ∪ U ⊆ N ∪ F :=
  Set.union_subset_union_right N g.sub

/-- A store to the entry of a page, in a tree that has grown. -/
theorem Grown.put {v : Nat} (g : Grown K m m' r N F U t) (apart : Disjoint N F) (hk : k < NPAGES)
    (find : follow below m'.entry r (upper k 0) = some p) (hv : v < 2 ^ 64) :
    Grown K m (m'.put64 (pteOf p k) v) r N F U (Function.update t k (leaf v)) := by
  have table : p ∈ N ∪ U := g.space.mem le_rfl find
  refine ⟨g.sub, g.space.put hk find hv, ?_, ?_⟩
  · refine g.free.frame rfl ?_
    intro x hx
    apply only_put64
    rintro rfl
    exact Set.disjoint_left.mp (apart_grow apart) table hx
  · exact g.only.trans (only_put64.mono (Set.singleton_subset_iff.mpr table))

/-- The empty table in page `q`, entered in the table `p`. -/
def Mem.hang (m : Mem) (p : Nat) (i : Fin 512) (q : Nat) : Mem :=
  (m.fill (q * PGSIZE) 0).put64 (p * PGSIZE + 8 * i) (pa2pte (q * PGSIZE) ||| PTE_V)

theorem hang_page_other {i : Fin 512} {q x : Nat} (hp : x ≠ p) (hq : x ≠ q) :
    (m.hang p i q).page x = m.page x := (only_put64 x hp).trans (fill_page_other hq)

/-- One new table. -/
theorem Grown.table {is : List (Fin 512)} {i : Fin 512} {q : Nat} (sp : Space K m r N t)
    (apart : Disjoint N F) (short : is.length < 2) (first : is = [] → i.val < 256)
    (reach : follow below m.entry r is = some p) (vacant : m.entry p i &&& PTE_V = 0) (hq : q ∈ F) (free : Frees K m' (F \ {q}))
    (only : Only {q} m m') (ram : K.Ram q) :
    Grown K m (m'.hang p i q) r N F {q} t ∧
      follow below (m'.hang p i q).entry r (is ++ [i]) = some q := by
  have table : p ∈ N := sp.mem short.le reach
  have fresh : q ∉ N := fun h => Set.disjoint_left.mp apart h hq
  have hpq : q ≠ p := fun e => fresh (e ▸ table)
  have small : pa2pte (q * PGSIZE) ||| PTE_V < 2 ^ 64 :=
    pte_lt (by decide) (ram.lt.trans (by decide))
  have bare : ∀ j, (m'.hang p i q).entry q j = 0 :=
    fun j => (entry_put64_page hpq).trans entry_fill_zero
  have same : ∀ x j, x ≠ q → (x = p → j ≠ i) → (m'.hang p i q).entry x j = m.entry x j := by
    intro x j hx place
    have page : (m'.fill (q * PGSIZE) 0).page x = m.page x := (fill_page_other hx).trans (only x hx)
    by_cases hp : x = p
    · subst hp
      exact (entry_put64_index (place rfl)).trans (entry_congr page)
    · exact (entry_put64_page hp).trans (entry_congr page)
  obtain ⟨space, find⟩ := sp.graft short first reach vacant fresh ram (entry_put64_same small) bare same
  refine ⟨⟨Set.singleton_subset_iff.mpr hq, ?_, ?_, ?_⟩, find⟩
  · rw [Set.union_singleton]
    exact space
  · refine free.frame rfl ?_
    rintro x ⟨hx, other⟩
    have away : x ≠ p := fun e => Set.disjoint_left.mp apart (e ▸ table) hx
    exact hang_page_other away other
  · intro x hx
    rw [Set.mem_union, Set.mem_singleton_iff, not_or] at hx
    have away : x ≠ p := fun e => hx.1 (e ▸ table)
    exact (hang_page_other away hx.2).trans (only x hx.2)

theorem run_walkFrom_alloc {level : Nat} (h : level ≤ 2) (hva : va < MAXVA) (sp : Space K m r N t) (free : Frees K m F)
    (apart : Disjoint N F) (reach : follow below m.entry r (upper (va / PGSIZE) level) = some p) :
    Meets (walkFrom va true level (p * PGSIZE)) m P fun a m' => ∃ U, Grown K m m' r N F U t ∧
      (a = none ∨ ∃ q, a = some (pteOf q (va / PGSIZE)) ∧
        follow below m'.entry r (upper (va / PGSIZE) 0) = some q) := by
  induction level generalizing p m N F with
  | zero =>
    apply Meets.pure
    refine ⟨∅, Grown.refl sp free, .inr ⟨p, ?_, reach⟩⟩
    rw [px_eq]
    rfl
  | succ level ih =>
    refine Meets.step load_px ?_
    have next := follow_upper_succ h reach
    split
    case isTrue valid =>
      rw [below, if_pos valid] at next
      rw [← pte2pa_base]
      exact ih (by omega) sp free apart next
    case isFalse invalid =>
      rw [if_pos rfl]
      refine Meets.bind free.run_kalloc ?_
      rintro _ m₁ (⟨rfl, rfl, -⟩ | ⟨q, hq, rfl, free₁, only⟩)
      · exact Meets.pure ⟨∅, Grown.refl sp free, .inl rfl⟩
      · have short : (upper (va / PGSIZE) (level + 1)).length < 2 := by
          rw [length_upper _ h]
          omega
        have first : upper (va / PGSIZE) (level + 1) = [] → (ix (level + 1) (va / PGSIZE)).val < 256 := by
          intro top
          obtain rfl : level = 1 := by
            rw [← List.length_eq_zero_iff, length_upper _ h] at top
            omega
          simp only [ix, MAXVA, PGSIZE] at hva ⊢
          omega
        obtain ⟨grown, find⟩ := Grown.table sp apart short first reach (not_not.mp invalid) hq free₁ only
          (free.ram q hq)
        rw [← upper_succ h] at find
        rw [px_eq]
        refine Meets.step rfl (Meets.step rfl ?_)
        refine (ih (by omega) grown.space grown.free (apart_grow apart) find).mono ?_
        rintro a m' ⟨V, grown', rest⟩
        exact ⟨{q} ∪ V, grown.trans grown', rest⟩

/-- `walk` with `alloc` finds the entry of a page, or there is no page left for a table. Either way
no translation has changed. -/
theorem run_walk_alloc (sp : Space K m r N t) (free : Frees K m F) (apart : Disjoint N F) :
    Meets (walk (r * PGSIZE) va true) m (va < MAXVA) fun a m' => va < MAXVA ∧ ∃ U, Grown K m m' r N F U t ∧
      (a = none ∨ ∃ q, a = some (pteOf q (va / PGSIZE)) ∧
        follow below m'.entry r (upper (va / PGSIZE) 0) = some q) := by
  rw [walk]
  split
  · exact Meets.throw _ (by omega)
  · exact (run_walkFrom_alloc le_rfl (by omega) sp free apart rfl).mono fun _ _ h => ⟨by omega, h⟩

/-! ## `walkaddr` -/

/-- What `walkaddr` makes of a translation. -/
def userAddr : Option (Nat × Nat) → Nat
  | none => 0
  | some (pa, flags) => if flags &&& PTE_U = 0 then 0 else pa

/-- `walkaddr` reads the translation, whatever the memory holds. -/
theorem walkaddr_eq : walkaddr (r * PGSIZE) va m = .ok (userAddr (m.tr r (va / PGSIZE)), m) := by
  have read : Meets (walkaddr (r * PGSIZE) va) m True fun pa m' =>
      m' = m ∧ pa = userAddr (m.tr r (va / PGSIZE)) := by
    rw [walkaddr, Mem.tr]
    split
    case isTrue high =>
      rw [if_neg (by simp only [NPAGES, MAXVA, PGSIZE] at *; omega)]
      exact Meets.pure ⟨rfl, rfl⟩
    case isFalse low =>
      rw [if_pos (by simp only [NPAGES, MAXVA, PGSIZE] at *; omega)]
      refine Meets.bind (run_walk_find.needs fun _ => by omega) ?_
      rintro _ m ⟨-, rfl, rfl⟩
      cases follow below m.entry r (upper (va / PGSIZE) 0) with
      | none => exact Meets.pure ⟨rfl, rfl⟩
      | some p =>
        refine Meets.step load_pteOf ?_
        rw [Option.bind_some, leaf]
        split
        case isTrue invalid => exact Meets.pure ⟨rfl, by rw [if_neg (not_not.mpr invalid)]; rfl⟩
        case isFalse valid =>
          rw [userAddr, ← and_user]
          split
          · exact Meets.pure ⟨rfl, rfl⟩
          · exact Meets.pure ⟨rfl, rfl⟩
  obtain ⟨pa, m', ran, rfl, rfl⟩ := read.total trivial
  exact ran

theorem run_walkaddr (sp : Space K m r N t) : Meets (walkaddr (r * PGSIZE) va) m P fun pa m' =>
    m' = m ∧ pa = userAddr (t (va / PGSIZE)) :=
  Meets.of_ok walkaddr_eq ⟨rfl, by rw [sp.trans]⟩

end Xv6.Vm
