import Xv6.Vm.Walk

/-!
# What `mappages`, `uvmunmap` and `uvmcreate` do to a space

The loops of `mappages` and `uvmunmap` change the translation page by page; `Loose` says which
pages `uvmunmap` may free.
-/

namespace Xv6.Vm

open Fallible Radix
open Xv6.Fs (PGSIZE)

variable {K : Symbols} {m m' m'' : Mem} {r p k va : Nat} {N F U V : Set Nat} {P : Prop}
variable {t t' t'' : Nat → Option (Nat × Nat)}

/-! ## `mappages` -/

/-- The translation `t` with `n` pages from `k` on mapped to the addresses from `pa` on. -/
def spread (t : Nat → Option (Nat × Nat)) (k n pa perm : Nat) : Nat → Option (Nat × Nat) := fun j =>
  if k ≤ j ∧ j < k + n then leaf (pa2pte ((pa + (j - k) * PGSIZE) % 2 ^ 64) ||| perm ||| PTE_V) else t j

theorem spread_zero {pa perm : Nat} : spread t k 0 pa perm = t := by
  funext j
  rw [spread, if_neg (by omega)]

/-- The first page, and then the others. -/
theorem spread_succ {n pa perm : Nat} (hpa : pa < 2 ^ 64) :
    spread (Function.update t k (leaf (pa2pte pa ||| perm ||| PTE_V))) (k + 1) n ((pa + PGSIZE) % 2 ^ 64) perm =
      spread t k (n + 1) pa perm := by
  funext j
  by_cases here : j = k
  · subst here
    rw [spread, spread, if_neg (by omega), if_pos (by omega), Function.update_self, Nat.sub_self, Nat.zero_mul,
      Nat.add_zero, Nat.mod_eq_of_lt hpa]
  · have addr : k + 1 ≤ j → ((pa + PGSIZE) % 2 ^ 64 + (j - (k + 1)) * PGSIZE) % 2 ^ 64 =
        (pa + (j - k) * PGSIZE) % 2 ^ 64 := by
      intro later
      rw [Nat.mod_add_mod]
      congr 1
      simp only [PGSIZE]
      omega
    rw [spread, spread, Function.update_of_ne here]
    by_cases later : k + 1 ≤ j ∧ j < k + 1 + n
    · rw [if_pos later, if_pos (by omega), addr later.1]
    · rw [if_neg later, if_neg (by omega)]

theorem run_mappagesFrom {rounds l pa perm : Nat} (sp : Space K m r N t) (free : Frees K m F)
    (apart : Disjoint N F) (hpa : pa < 2 ^ 64) (hperm : perm < 2 ^ 64) :
    Meets (mappagesFrom (r * PGSIZE) (l * PGSIZE) perm rounds (k * PGSIZE) pa) m
      (k ≤ l ∧ l < NPAGES ∧ l < k + rounds ∧ ∀ j, k ≤ j → j ≤ l → t j = none)
      fun res m' => ∃ U n, Grown K m m' r N F U (spread t k n pa perm) ∧
        (∀ j, k ≤ j → j < k + n → j < NPAGES ∧ t j = none) ∧
        (res = 0 ∧ l + 1 = k + n ∨ res = -1 ∧ (k ≤ l → k + n ≤ l)) := by
  induction rounds generalizing k pa t N F m with
  | zero => exact Meets.throw _ (by omega)
  | succ rounds ih =>
    rw [mappagesFrom]
    have low : k ≤ l ∧ l < NPAGES ∧ l < k + (rounds + 1) ∧ (∀ j, k ≤ j → j ≤ l → t j = none) →
        k * PGSIZE < MAXVA := by
      simp only [NPAGES, MAXVA, PGSIZE]
      omega
    refine Meets.bind ((run_walk_alloc sp free apart).needs low) ?_
    rintro a m₁ ⟨hva, U, grown, walked⟩
    have hk : k < NPAGES := by
      simp only [NPAGES, MAXVA, PGSIZE] at *
      omega
    rw [base_div] at walked
    rcases walked with rfl | ⟨q, rfl, find⟩
    · refine Meets.pure ⟨U, 0, ?_, by omega, .inr ⟨rfl, by omega⟩⟩
      rw [spread_zero]
      exact grown
    · refine Meets.step load_pteOf ?_
      have entry := grown.space.tr_of_find hk find
      split
      case isTrue valid =>
        apply Meets.throw
        rintro ⟨hkl, -, -, unmapped⟩
        rw [unmapped k le_rfl hkl, leaf, if_pos valid] at entry
        cases entry
      case isFalse invalid =>
        rw [leaf, if_neg invalid] at entry
        have hv : pa2pte pa ||| perm ||| PTE_V < 2 ^ 64 := by
          exact Nat.or_lt_two_pow (Nat.or_lt_two_pow (pa2pte_lt hpa) hperm) (by decide)
        have grown' := grown.put apart hk find hv
        refine Meets.step rfl ?_
        split
        case isTrue done =>
          obtain rfl : k = l := by
            simp only [PGSIZE] at done
            omega
          refine Meets.pure ⟨U, 1, ?_, ?_, .inl ⟨rfl, rfl⟩⟩
          · rw [← spread_succ hpa, spread_zero]
            exact grown'
          · intro j low high
            obtain rfl : j = k := by omega
            exact ⟨hk, entry⟩
        case isFalse more =>
          have next : (k * PGSIZE + PGSIZE) % 2 ^ 64 = (k + 1) * PGSIZE := by
            simp only [NPAGES, MAXVA, PGSIZE] at hk ⊢
            omega
          rw [next]
          have last : k ≠ l := fun e => more (by rw [e])
          refine ((ih grown'.space grown'.free (apart_grow apart) (Nat.mod_lt _ (by decide))).needs ?_).mono ?_
          · rintro ⟨hkl, hl, hr, unmapped⟩
            refine ⟨by omega, hl, by omega, ?_⟩
            intro j low high
            rw [Function.update_of_ne (by omega)]
            exact unmapped j (by omega) high
          · rintro res m' ⟨V, n, grown'', before, result⟩
            refine ⟨U ∪ V, n + 1, ?_, ?_, ?_⟩
            · rw [← spread_succ hpa]
              exact grown'.trans grown''
            · intro j low high
              by_cases here : j = k
              · exact here ▸ ⟨hk, entry⟩
              · have := before j (by omega) (by omega)
                rwa [Function.update_of_ne here] at this
            · rcases result with ⟨rfl, all⟩ | ⟨rfl, some⟩
              · exact .inl ⟨rfl, by omega⟩
              · exact .inr ⟨rfl, by omega⟩

/-- The pages that `size` bytes from `va` on lie in are mapped, or some of the first of them. -/
theorem run_mappages {size pa perm : Nat} (sp : Space K m r N t) (free : Frees K m F)
    (apart : Disjoint N F) (hpa : pa < 2 ^ 64) (hperm : perm < 2 ^ 64) :
    Meets (mappages (r * PGSIZE) va size pa perm) m
      (0 < size ∧ va + size ≤ MAXVA ∧ ∀ j, va / PGSIZE ≤ j → j ≤ (va + size - 1) / PGSIZE → t j = none)
      fun res m' => ∃ U n, Grown K m m' r N F U (spread t (va / PGSIZE) n pa perm) ∧
        (∀ j, va / PGSIZE ≤ j → j < va / PGSIZE + n → j < NPAGES ∧ t j = none) ∧
        (res = 0 ∧ (va + size - 1) % 2 ^ 64 / PGSIZE + 1 = va / PGSIZE + n ∨
          res = -1 ∧ (va + size ≤ 2 ^ 64 → va / PGSIZE + n ≤ (va + size - 1) / PGSIZE)) := by
  rw [mappages]
  split
  · exact Meets.throw _ (by omega)
  · refine ((run_mappagesFrom sp free apart hpa hperm).needs ?_).mono ?_
    · rintro ⟨pos, high, unmapped⟩
      have wrap : (va + size - 1) % 2 ^ 64 = va + size - 1 := by
        simp only [MAXVA] at high
        omega
      rw [wrap]
      refine ⟨?_, ?_, ?_, unmapped⟩
      all_goals
        simp only [NPAGES, MAXVA, PGSIZE] at high ⊢
        omega
    · rintro res m' ⟨U, n, grown, before, result⟩
      refine ⟨U, n, grown, before, ?_⟩
      rcases result with ⟨rfl, all⟩ | ⟨rfl, some⟩
      · exact .inl ⟨rfl, all⟩
      · refine .inr ⟨rfl, fun inside => ?_⟩
        rw [Nat.mod_eq_of_lt (by omega)] at some
        exact some (Nat.div_le_div_right (by omega))

theorem spread_one {perm : Nat} (hpa : p * PGSIZE < 2 ^ 64) (hperm : perm < 1024) :
    spread t k 1 (p * PGSIZE) perm = Function.update t k (some (p * PGSIZE, perm ||| PTE_V)) := by
  rw [← spread_succ hpa, spread_zero, leaf_pte hperm hpa, base_div]

/-- One page is mapped, or there is no page left for a table. -/
theorem run_mappages_one {perm : Nat} (sp : Space K m r N t) (free : Frees K m F) (apart : Disjoint N F)
    (hk : k < NPAGES) (hpa : p * PGSIZE < 2 ^ 64) (hperm : perm < 1024) (unmapped : t k = none) :
    Meets (mappages (r * PGSIZE) (k * PGSIZE) PGSIZE (p * PGSIZE) perm) m P fun res m' => ∃ U,
      res = 0 ∧ Grown K m m' r N F U (Function.update t k (some (p * PGSIZE, perm ||| PTE_V))) ∨
      res = -1 ∧ Grown K m m' r N F U t := by
  have last : (k * PGSIZE + PGSIZE - 1) / PGSIZE = k := by
    simp only [PGSIZE]
    omega
  have high : k * PGSIZE + PGSIZE ≤ MAXVA := by
    simp only [NPAGES, MAXVA, PGSIZE] at hk ⊢
    omega
  refine ((run_mappages sp free apart hpa (hperm.trans (by decide))).needs fun _ => ?_).mono ?_
  · refine ⟨by decide, high, fun j low below => ?_⟩
    rw [last] at below
    rw [base_div] at low
    obtain rfl : j = k := by omega
    exact unmapped
  · rintro res m' ⟨U, n, grown, -, result⟩
    have small : k * PGSIZE + PGSIZE - 1 < 2 ^ 64 := by
      simp only [MAXVA, PGSIZE] at high ⊢
      omega
    rw [Nat.mod_eq_of_lt small, last, base_div] at result
    rw [base_div] at grown
    refine ⟨U, ?_⟩
    rcases result with ⟨rfl, one⟩ | ⟨rfl, few⟩
    · obtain rfl : n = 1 := by omega
      rw [spread_one hpa hperm] at grown
      exact .inl ⟨rfl, grown⟩
    · have := few (by omega)
      obtain rfl : n = 0 := by omega
      rw [spread_zero] at grown
      exact .inr ⟨rfl, grown⟩

/-! ## `uvmunmap` -/

/-- The translation `t` without the pages from `k` to `s`. -/
def erase (t : Nat → Option (Nat × Nat)) (k s : Nat) : Nat → Option (Nat × Nat) := fun j =>
  if k ≤ j ∧ j < s then none else t j

theorem erase_none {s : Nat} (h : s ≤ k) : erase t k s = t := by
  funext j
  rw [erase, if_neg (by omega)]

theorem erase_succ {s : Nat} (h : k < s) : erase (Function.update t k none) (k + 1) s = erase t k s := by
  funext j
  by_cases here : j = k
  · subst here
    rw [erase, erase, if_neg (by omega), if_pos (by omega), Function.update_self]
  · rw [erase, erase, Function.update_of_ne here]
    exact if_congr (by omega) rfl rfl

/-- The physical pages behind the virtual pages from `k` to `s`. -/
def frames (t : Nat → Option (Nat × Nat)) (k s : Nat) : Set Nat :=
  {p | ∃ j f, k ≤ j ∧ j < s ∧ t j = some (p * PGSIZE, f)}

/-- The pages behind `k` to `s` may be freed: they are distinct pages of memory, neither free nor
tables. -/
structure Loose (K : Symbols) (t : Nat → Option (Nat × Nat)) (k s : Nat) (N F : Set Nat) : Prop where
  page : ∀ j pa f, k ≤ j → j < s → t j = some (pa, f) → ∃ p, pa = p * PGSIZE ∧ K.Ram p ∧ p ∉ N ∧ p ∉ F
  inj : ∀ i j pa f g, k ≤ i → i < s → k ≤ j → j < s → t i = some (pa, f) → t j = some (pa, g) → i = j

theorem Loose.next {s : Nat} {f : Nat} (loose : Loose K t k s N F) (h : k < s)
    (hk : t k = some (p * PGSIZE, f)) : Loose K (Function.update t k none) (k + 1) s N (insert p F) := by
  have same : ∀ j, k + 1 ≤ j → Function.update t k none j = t j :=
    fun j hj => Function.update_of_ne (by omega) ..
  constructor
  · intro j pa g low high hj
    rw [same j low] at hj
    obtain ⟨q, rfl, ram, table, free⟩ := loose.page j pa g (by omega) high hj
    refine ⟨q, rfl, ram, table, ?_⟩
    rintro (rfl | hq)
    · have := loose.inj k j _ _ _ le_rfl h (by omega) high hk hj
      omega
    · exact free hq
  · intro i j pa g g' hi hi' hj hj' ti tj
    rw [same i hi] at ti
    rw [same j hj] at tj
    exact loose.inj i j pa g g' (by omega) hi' (by omega) hj' ti tj

/-- What `uvmunmap` gives back. -/
def given (doFree : Bool) (t : Nat → Option (Nat × Nat)) (k s : Nat) : Set Nat :=
  if doFree then frames t k s else ∅

theorem given_empty {doFree : Bool} {s : Nat} (h : s ≤ k) : given doFree t k s = ∅ := by
  rw [given]
  split
  · exact Set.eq_empty_iff_forall_notMem.mpr fun p ⟨j, _, low, high, _⟩ => by omega
  · rfl

theorem given_next {doFree : Bool} {s : Nat} :
    given doFree (Function.update t k none) (k + 1) s ⊆ given doFree t k s := by
  rw [given, given]
  split
  · rintro p ⟨j, f, low, high, hj⟩
    rw [Function.update_of_ne (by omega)] at hj
    exact ⟨j, f, by omega, high, hj⟩
  · exact le_rfl

/-- The page behind `k`, and then the others. -/
theorem frames_succ {s f : Nat} (h : k < s) (hk : t k = some (p * PGSIZE, f)) :
    insert p (frames (Function.update t k none) (k + 1) s) = frames t k s := by
  ext q
  rw [Set.mem_insert_iff]
  constructor
  · rintro (rfl | ⟨j, g, low, high, hj⟩)
    · exact ⟨k, f, le_rfl, h, hk⟩
    · rw [Function.update_of_ne (by omega)] at hj
      exact ⟨j, g, by omega, high, hj⟩
  · rintro ⟨j, g, low, high, hj⟩
    by_cases here : j = k
    · subst here
      obtain ⟨e, -⟩ := Prod.mk.inj (Option.some.inj (hk.symm.trans hj))
      exact .inl (Nat.eq_of_mul_eq_mul_right (by decide) e).symm
    · exact .inr ⟨j, g, by omega, high, by rwa [Function.update_of_ne here]⟩

/-- The end of a round of `uvmunmap`: the page is freed or not, and its entry cleared. -/
theorem run_clear {α : Type} {Q : α → Mem → Prop} {rest : Code α} {doFree : Bool} {s f : Nat} {pa q : Nat}
    (sp : Space K m r N t) (free : Frees K m F) (apart : Disjoint N F) (hk : k < NPAGES)
    (find : follow below m.entry r (upper k 0) = some q) (hks : k < s) (entry : t k = some (pa, f))
    (loose : doFree = true → Loose K t k s N F)
    (cont : ∀ m' F', Space K m' r N (Function.update t k none) → Frees K m' F' → Disjoint N F' →
      (doFree = true → Loose K (Function.update t k none) (k + 1) s N F') →
      F' ∪ given doFree (Function.update t k none) (k + 1) s = F ∪ given doFree t k s →
      Only (N ∪ given doFree t k s) m m' → Meets rest m' P Q) :
    Meets (do if doFree then kfree K pa
              store64 (pteOf q k) 0
              rest) m P Q := by
  have table : q ∈ N := sp.mem le_rfl find
  cases doFree with
  | false =>
    have space := sp.put hk find (v := 0) (by decide)
    rw [leaf_zero] at space
    change Meets (store64 (pteOf q k) 0 >>= fun _ => rest) m P Q
    refine Meets.step rfl ?_
    refine cont _ F space (free.frame rfl ?_) apart nofun rfl ?_
    · intro x hx
      apply only_put64
      rintro rfl
      exact Set.disjoint_left.mp apart table hx
    · exact only_put64.mono fun x hx => .inl (Set.mem_singleton_iff.mp hx ▸ table)
  | true =>
    obtain ⟨p, rfl, ram, notTable, notFree⟩ := (loose rfl).page k pa f le_rfl hks entry
    refine Meets.bind (free.run_kfree ram notFree) ?_
    rintro _ m₁ ⟨free₁, only⟩
    have away : ∀ x ∈ N, x ≠ p := fun x hx e => notTable (e ▸ hx)
    have sp₁ : Space K m₁ r N t := sp.frame fun x hx => only x (away x hx)
    have find₁ : follow below m₁.entry r (upper k 0) = some q := by
      rw [← find]
      apply follow_congr
      intro js i x short reach
      exact entry_congr (only x (away x (sp.mem (by rw [length_upper k (by decide)] at short; omega) reach)))
    have space := sp₁.put hk find₁ (v := 0) (by decide)
    rw [leaf_zero] at space
    have apart₁ : Disjoint N (insert p F) := Set.disjoint_left.mpr fun x hx => by
      rintro (e | hF)
      · exact away x hx e
      · exact Set.disjoint_left.mp apart hx hF
    refine Meets.step rfl ?_
    refine cont _ (insert p F) space (free₁.frame rfl ?_) apart₁ (fun _ => (loose rfl).next hks entry) ?_ ?_
    · intro x hx
      apply only_put64
      rintro rfl
      exact Set.disjoint_left.mp apart₁ table hx
    · rw [given, given, if_pos rfl, if_pos rfl, ← frames_succ hks entry, Set.insert_union, Set.union_insert]
    · rw [given, if_pos rfl, ← frames_succ hks entry]
      refine Only.trans (only.mono ?_) (only_put64.mono ?_)
      · exact fun x hx => .inr (.inl hx)
      · exact fun x hx => .inl (Set.mem_singleton_iff.mp hx ▸ table)

theorem run_uvmunmapFrom {doFree : Bool} {rounds s : Nat} (sp : Space K m r N t) (free : Frees K m F)
    (apart : Disjoint N F) (loose : doFree = true → Loose K t k s N F) :
    Meets (uvmunmapFrom K (r * PGSIZE) (s * PGSIZE) doFree rounds (k * PGSIZE)) m
      (k ≤ s ∧ s < k + rounds ∧ ∀ j, k ≤ j → j < s → j < NPAGES ∧ ∃ pa f, t j = some (pa, f) ∧ f ≠ PTE_V)
      fun _ m' => Space K m' r N (erase t k s) ∧ Frees K m' (F ∪ given doFree t k s) ∧
        Only (N ∪ given doFree t k s) m m' := by
  induction rounds generalizing k t F m with
  | zero => exact Meets.throw _ (by omega)
  | succ rounds ih =>
    rw [uvmunmapFrom]
    split
    case isFalse done =>
      have empty : s ≤ k := by
        simp only [PGSIZE] at done
        omega
      apply Meets.pure
      rw [erase_none empty, given_empty empty, Set.union_empty, Set.union_empty]
      exact ⟨sp, free, Only.refl⟩
    case isTrue more =>
      have hks : k < s := by
        simp only [PGSIZE] at more
        omega
      have here : (k ≤ s ∧ s < k + (rounds + 1) ∧ ∀ j, k ≤ j → j < s → j < NPAGES ∧
          ∃ pa f, t j = some (pa, f) ∧ f ≠ PTE_V) → k < NPAGES ∧ ∃ pa f, t k = some (pa, f) ∧ f ≠ PTE_V :=
        fun h => h.2.2 k le_rfl hks
      refine Meets.bind (run_walk_find.needs fun h => ?_) ?_
      · have := (here h).1
        simp only [NPAGES, MAXVA, PGSIZE] at this ⊢
        omega
      rintro _ m ⟨hva, rfl, rfl⟩
      have hk : k < NPAGES := by
        simp only [NPAGES, MAXVA, PGSIZE] at hva ⊢
        omega
      rw [base_div]
      cases find : follow below m.entry r (upper k 0) with
      | none =>
        refine Meets.throw _ fun h => ?_
        obtain ⟨-, pa, f, mapped, -⟩ := here h
        rw [sp.tr_of_not_find find] at mapped
        cases mapped
      | some q =>
        refine Meets.step load_pteOf ?_
        have entry := sp.tr_of_find hk find
        split
        case isTrue invalid =>
          refine Meets.throw _ fun h => ?_
          obtain ⟨-, pa, f, mapped, -⟩ := here h
          rw [entry, leaf, if_neg (not_not.mpr invalid)] at mapped
          cases mapped
        case isFalse valid =>
        rw [leaf, if_pos valid] at entry
        split
        case isTrue node =>
          refine Meets.throw _ fun h => ?_
          obtain ⟨-, pa, f, mapped, perm⟩ := here h
          rw [entry] at mapped
          obtain ⟨-, rfl⟩ := Prod.mk.inj (Option.some.inj mapped)
          exact perm node
        case isFalse isLeaf =>
          apply run_clear sp free apart hk find hks entry loose
          intro m₁ F₁ sp₁ free₁ apart₁ loose₁ all only₁
          have next : (k * PGSIZE + PGSIZE) % 2 ^ 64 = (k + 1) * PGSIZE := by
            simp only [NPAGES, MAXVA, PGSIZE] at hk ⊢
            omega
          rw [next]
          refine ((ih sp₁ free₁ apart₁ loose₁).needs ?_).mono ?_
          · rintro ⟨-, fuel, mapped⟩
            refine ⟨by omega, by omega, ?_⟩
            intro j low high
            rw [Function.update_of_ne (by omega)]
            exact mapped j (by omega) high
          · rintro _ m' ⟨sp', free', only'⟩
            rw [erase_succ hks] at sp'
            rw [all] at free'
            refine ⟨sp', free', only₁.trans (only'.mono ?_)⟩
            exact Set.union_subset_union_right N given_next

/-- A range of pages that are mapped, none of them as a table would be, is unmapped. -/
theorem run_uvmunmap {doFree : Bool} {n : Nat} (sp : Space K m r N t) (free : Frees K m F)
    (apart : Disjoint N F) (high : k + n ≤ NPAGES) (loose : doFree = true → Loose K t k (k + n) N F) :
    Meets (uvmunmap K (r * PGSIZE) (k * PGSIZE) n doFree) m
      (∀ j, k ≤ j → j < k + n → ∃ pa f, t j = some (pa, f) ∧ f ≠ PTE_V)
      fun _ m' => Space K m' r N (erase t k (k + n)) ∧ Frees K m' (F ∪ given doFree t k (k + n)) ∧
        Only (N ∪ given doFree t k (k + n)) m m' := by
  have stop : (k * PGSIZE + n * PGSIZE) % 2 ^ 64 = (k + n) * PGSIZE := by
    simp only [NPAGES, MAXVA, PGSIZE] at high ⊢
    omega
  rw [uvmunmap, if_neg (not_not.mpr base_mod), stop]
  refine (run_uvmunmapFrom sp free apart loose).needs ?_
  intro mapped
  refine ⟨by omega, by omega, ?_⟩
  intro j low below
  exact ⟨by omega, mapped j low below⟩

/-! ## `uvmcreate` -/

/-- A page of zeros is a table without entries. -/
theorem space_empty (ram : K.Ram r) (bare : ∀ i, m.entry r i = 0) : Space K m r {r} fun _ => none := by
  have paths : ∀ is : List (Fin 512), is ≠ [] → follow below m.entry r is = none := by
    intro is some
    cases is with
    | nil => exact absurd rfl some
    | cons i is => rw [follow, bare, below_zero, Option.bind_none]
  have only : ∀ (is : List (Fin 512)) p, follow below m.entry r is = some p → is = [] ∧ p = r := by
    intro is p reach
    by_cases empty : is = []
    · subst empty
      exact ⟨rfl, (Option.some.inj reach).symm⟩
    · rw [paths is empty] at reach
      cases reach
  refine ⟨?_, ?_, ?_, ?_, ?_, ?_⟩
  · intro is js p _ _ reach reach'
    rw [(only is p reach).1, (only js p reach').1]
  · ext p
    rw [Set.mem_singleton_iff]
    constructor
    · rintro ⟨is, -, reach⟩
      exact (only is p reach).2
    · rintro rfl
      exact Radix.root_mem
  · rintro p rfl
    exact ram
  · intro is p i _ reach valid
    rw [(only is p reach).2, bare] at valid
    simp at valid
  · intro i valid
    rw [bare] at valid
    simp at valid
  · funext j
    rw [Mem.tr, paths _ (by simp [upper]), Option.bind_none, ite_self]

theorem run_uvmcreate (free : Frees K m F) : Meets uvmcreate m P fun a m' =>
    (a = none ∧ m' = m ∧ F = ∅) ∨ ∃ r ∈ F, a = some (r * PGSIZE) ∧ Space K m' r {r} (fun _ => none) ∧
      Frees K m' (F \ {r}) ∧ Only {r} m m' := by
  refine Meets.bind free.run_kalloc ?_
  rintro _ m₁ (⟨rfl, rfl, empty⟩ | ⟨r, hr, rfl, free₁, only⟩)
  · exact Meets.pure (.inl ⟨rfl, rfl, empty⟩)
  · refine Meets.step rfl (Meets.pure (.inr ⟨r, hr, rfl, ?_, ?_, ?_⟩))
    · exact space_empty (free.ram r hr) fun i => entry_fill_zero
    · exact free₁.frame rfl fun x hx => fill_page_other hx.2
    · exact only.trans fun x hx => fill_page_other hx

end Xv6.Vm
