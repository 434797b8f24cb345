import Xv6.Radix
import Xv6.Vm.Code

/-!
# Page tables as finite maps

`m.tr r k` is the translation of the virtual page `k` by the three-level table whose root is the
page `r`: the address and the flags of the leaf. `Space K m r N t` says that the table is a tree
on the pages `N` and translates as `t`. What `walk` finds and adds, and what a store to an entry
does to the translation, follow from the rules of `Radix`.
-/

namespace Xv6.Vm

open Bytes Fallible Radix
open Xv6.Fs (PGSIZE)

/-! ## Entries -/

/-- The entry `i` of the table in page `p`. -/
def Mem.entry (m : Mem) (p : Nat) (i : Fin 512) : Nat := (m.page p).num 8 (8 * i)

/-- The table that an entry leads to. -/
def below (pte : Nat) : Option Nat := if pte &&& PTE_V ≠ 0 then some (pte2pa pte / PGSIZE) else none

/-- What an entry of a lowest table says. -/
def leaf (pte : Nat) : Option (Nat × Nat) :=
  if pte &&& PTE_V ≠ 0 then some (pte2pa pte, pteFlags pte) else none

section Entries

variable {m : Mem} {p q v pa : Nat} {i j : Fin 512}

theorem slot_lt : 8 * i.val < PGSIZE := by
  have := i.isLt
  simp only [PGSIZE]
  omega

theorem get64_entry : m.get64 (p * PGSIZE + 8 * i) = m.entry p i := by
  rw [Mem.get64, at_div slot_lt, at_mod slot_lt, Mem.entry]

theorem entry_lt : m.entry p i < 2 ^ 64 := Buffer.num_lt ..

theorem entry_congr {m' : Mem} (same : m'.page p = m.page p) : m'.entry p i = m.entry p i := by
  rw [Mem.entry, Mem.entry, same]

theorem entry_put64_same (hv : v < 2 ^ 64) : (m.put64 (p * PGSIZE + 8 * i) v).entry p i = v := by
  have := i.isLt
  rw [Mem.entry, Mem.put64, put_page_same slot_lt]
  exact Buffer.num_putNum_same (by simp only [PGSIZE]; omega) hv

theorem entry_put64_index (other : j ≠ i) :
    (m.put64 (p * PGSIZE + 8 * i) v).entry p j = m.entry p j := by
  have : j.val ≠ i.val := fun e => other (Fin.ext e)
  rw [Mem.entry, Mem.put64, put_page_same slot_lt]
  exact Buffer.num_putNum_disjoint (by omega)

theorem entry_put64_page (other : q ≠ p) :
    (m.put64 (p * PGSIZE + 8 * i) v).entry q j = m.entry q j :=
  entry_congr (put_page_other slot_lt other)

theorem only_put64 : Only {p} m (m.put64 (p * PGSIZE + 8 * i) v) := only_put slot_lt

theorem entry_fill_zero : (m.fill (p * PGSIZE) 0).entry p i = 0 := by
  rw [Mem.entry, fill_page_same]
  exact Buffer.num_zero ..

theorem flags_eq (pte : Nat) : pteFlags pte = pte % 1024 := Nat.and_two_pow_sub_one_eq_mod pte 10

/-- The bits below the address are the flags. -/
theorem and_flags (pte : Nat) {b : Nat} (hb : b = 0x3FF &&& b) : pte &&& b = pteFlags pte &&& b := by
  rw [pteFlags, Nat.and_assoc, ← hb]

theorem and_valid (pte : Nat) : pte &&& PTE_V = pteFlags pte &&& PTE_V := and_flags pte rfl

theorem and_user (pte : Nat) : pte &&& PTE_U = pteFlags pte &&& PTE_U := and_flags pte rfl

/-- An entry is the address of a page together with flags. -/
theorem pte_eq {f : Nat} (hf : f < 1024) : pa2pte pa ||| f = pa2pte pa + f := by
  have h := Nat.two_pow_add_eq_or_of_lt (i := 10) hf (pa / PGSIZE)
  rw [pa2pte, Nat.mul_comm _ 1024]
  exact h.symm

theorem flags_pte {f : Nat} (hf : f < 1024) : pteFlags (pa2pte pa ||| f) = f := by
  rw [pte_eq hf, flags_eq, pa2pte]
  omega

theorem pa_pte {f : Nat} (hf : f < 1024) (hpa : pa < 2 ^ 64) :
    pte2pa (pa2pte pa ||| f) = pa / PGSIZE * PGSIZE := by
  rw [pte_eq hf, pte2pa, pa2pte]
  simp only [PGSIZE]
  omega

theorem pte_lt {f : Nat} (hf : f < 1024) (hpa : pa < 2 ^ 64) : pa2pte pa ||| f < 2 ^ 64 := by
  rw [pte_eq hf, pa2pte]
  simp only [PGSIZE]
  omega

theorem valid_or (f : Nat) : (f ||| PTE_V) &&& PTE_V ≠ 0 := by
  rw [Nat.and_or_distrib_right]
  simp only [PTE_V, Nat.and_self]
  intro h
  exact absurd (Nat.or_eq_zero_iff.mp h).2 (by decide)

theorem or_valid_lt {f : Nat} (hf : f < 1024) : f ||| PTE_V < 1024 :=
  Nat.or_lt_two_pow (n := 10) hf (by decide)

/-- The entry that `mappages` writes. -/
theorem leaf_pte {f : Nat} (hf : f < 1024) (hpa : pa < 2 ^ 64) :
    leaf (pa2pte pa ||| f ||| PTE_V) = some (pa / PGSIZE * PGSIZE, f ||| PTE_V) := by
  rw [Nat.or_assoc, leaf, if_pos (by rw [← Nat.or_assoc]; exact valid_or _), pa_pte (or_valid_lt hf) hpa,
    flags_pte (or_valid_lt hf)]

theorem leaf_zero : leaf 0 = none := by
  rw [leaf, if_neg (by simp)]

theorem below_zero : below 0 = none := by
  rw [below, if_neg (by simp)]

/-- The entry that `walk` writes. -/
theorem below_pte (hq : q * PGSIZE < 2 ^ 64) : below (pa2pte (q * PGSIZE) ||| PTE_V) = some q := by
  rw [below, if_pos (valid_or _), pa_pte (by decide) hq, base_div, base_div]

end Entries

/-! ## Indices -/

/-- The index of a level in the number of a virtual page. -/
def ix (level k : Nat) : Fin 512 := ⟨k / 2 ^ (9 * level) % 512, Nat.mod_lt _ (by decide)⟩

theorem px_eq (level va : Nat) : px level va = ix level (va / PGSIZE) := by
  rw [px, ix, Fin.mk.injEq, Nat.div_div_eq_div_mul, Nat.pow_add]

/-- The indices above a level. -/
def upper (k : Nat) : Nat → List (Fin 512)
  | 0 => [ix 2 k, ix 1 k]
  | 1 => [ix 2 k]
  | _ => []

theorem upper_succ {k level : Nat} (h : level < 2) : upper k level = upper k (level + 1) ++ [ix (level + 1) k] := by
  obtain rfl | rfl : level = 0 ∨ level = 1 := by omega
  · rfl
  · rfl

theorem length_upper (k : Nat) {level : Nat} (h : level ≤ 2) : (upper k level).length = 2 - level := by
  obtain rfl | rfl | rfl : level = 0 ∨ level = 1 ∨ level = 2 := by omega
  · rfl
  · rfl
  · rfl

/-- Distinct virtual pages have distinct indices. -/
theorem page_eq {k k' : Nat} (hk : k < NPAGES) (hk' : k' < NPAGES) (path : upper k 0 = upper k' 0)
    (slot : ix 0 k = ix 0 k') : k = k' := by
  simp only [upper, ix, List.cons.injEq, Fin.mk.injEq, NPAGES, MAXVA, PGSIZE] at *
  omega

/-! ## Spaces -/

/-- The translation of the virtual page `k` by the table with root `r`. -/
def Mem.tr (m : Mem) (r k : Nat) : Option (Nat × Nat) :=
  if k < NPAGES then
    (follow below m.entry r (upper k 0)).bind fun p => leaf (m.entry p (ix 0 k))
  else none

structure Space (K : Symbols) (m : Mem) (r : Nat) (N : Set Nat) (t : Nat → Option (Nat × Nat)) :
    Prop where
  tree : Unshared below m.entry r 2
  nodes : Nodes below m.entry r 2 = N
  ram : ∀ p ∈ N, K.Ram p
  inner : ∀ (is : List (Fin 512)) (p : Nat) (i : Fin 512), is.length < 2 →
    follow below m.entry r is = some p → m.entry p i &&& PTE_V ≠ 0 → pteFlags (m.entry p i) = PTE_V
  low : ∀ i, m.entry r i &&& PTE_V ≠ 0 → i.val < 256
  trans : m.tr r = t

variable {K : Symbols} {m m' : Mem} {r p q k v : Nat} {N F : Set Nat}
variable {t : Nat → Option (Nat × Nat)}

/-- A change outside the tables leaves the translation alone. -/
theorem tr_congr (same : ∀ p ∈ Nodes below m.entry r 2, m'.page p = m.page p) : m'.tr r = m.tr r := by
  have entries : ∀ p ∈ Nodes below m.entry r 2, ∀ i, m'.entry p i = m.entry p i := by
    intro p hp i
    exact entry_congr (same p hp)
  funext k
  have deep : (upper k 0).length ≤ 2 := le_rfl
  rw [Mem.tr, Mem.tr, follow_of_same entries (Nat.le_succ_of_le deep)]
  refine if_congr Iff.rfl (Option.bind_congr fun p find => ?_) rfl
  rw [entries p (mem_of_follow deep find)]

namespace Space

theorem frame (sp : Space K m r N t) (same : ∀ p ∈ N, m'.page p = m.page p) : Space K m' r N t := by
  have entries : ∀ p ∈ Nodes below m.entry r 2, ∀ i, m'.entry p i = m.entry p i := by
    intro p hp i
    exact entry_congr (same p (sp.nodes ▸ hp))
  have paths : ∀ is : List (Fin 512), is.length ≤ 2 →
      follow below m'.entry r is = follow below m.entry r is := by
    intro is short
    exact follow_of_same entries (by omega)
  refine ⟨sp.tree.of_same entries, (nodes_of_same entries).trans sp.nodes, sp.ram, ?_, ?_, ?_⟩
  · intro is p i short reach valid
    rw [paths is short.le] at reach
    rw [entries p (mem_of_follow short.le reach)] at valid ⊢
    exact sp.inner is p i short reach valid
  · intro i valid
    rw [entries r Radix.root_mem] at valid
    exact sp.low i valid
  · rw [← sp.trans]
    exact tr_congr fun p hp => same p (sp.nodes ▸ hp)

theorem mem (sp : Space K m r N t) {is : List (Fin 512)} (short : is.length ≤ 2)
    (reach : follow below m.entry r is = some p) : p ∈ N :=
  sp.nodes ▸ mem_of_follow short reach

theorem root_mem (sp : Space K m r N t) : r ∈ N := sp.nodes ▸ Radix.root_mem

theorem tr_of_find (sp : Space K m r N t) (hk : k < NPAGES)
    (find : follow below m.entry r (upper k 0) = some p) : t k = leaf (m.entry p (ix 0 k)) := by
  rw [← sp.trans, Mem.tr, if_pos hk, find]
  rfl

theorem tr_of_not_find (sp : Space K m r N t) (find : follow below m.entry r (upper k 0) = none) :
    t k = none := by
  rw [← sp.trans, Mem.tr, find]
  simp

theorem tr_high (sp : Space K m r N t) (hk : NPAGES ≤ k) : t k = none := by
  rw [← sp.trans, Mem.tr, if_neg (by omega)]

/-- A store to the entry of a virtual page changes the translation of that page and no other. -/
theorem put (sp : Space K m r N t) (hk : k < NPAGES)
    (find : follow below m.entry r (upper k 0) = some p) (hv : v < 2 ^ 64) :
    Space K (m.put64 (p * PGSIZE + 8 * ix 0 k) v) r N (Function.update t k (leaf v)) := by
  have deep : (upper k 0).length = 2 := rfl
  have same : ∀ x i, x ≠ p → (m.put64 (p * PGSIZE + 8 * ix 0 k) v).entry x i = m.entry x i :=
    fun x i other => entry_put64_page other
  have paths : ∀ is : List (Fin 512), is.length ≤ 2 →
      follow below (m.put64 (p * PGSIZE + 8 * ix 0 k) v).entry r is = follow below m.entry r is :=
    fun is short => sp.tree.follow_bottom find deep same short
  refine ⟨sp.tree.bottom find deep same, (sp.tree.nodes_bottom find deep same).trans sp.nodes, sp.ram,
    ?_, ?_, ?_⟩
  · intro is x i short reach valid
    rw [paths is short.le] at reach
    have other : x ≠ p := by
      rintro rfl
      have path := sp.tree short.le deep.le reach find
      rw [path, deep] at short
      exact absurd short (by decide)
    rw [same x i other] at valid ⊢
    exact sp.inner is x i short reach valid
  · intro i valid
    have other : r ≠ p := by
      rintro rfl
      have path : [] = upper k 0 := sp.tree (Nat.zero_le 2) deep.le rfl find
      cases path
    rw [same r i other] at valid
    exact sp.low i valid
  · funext k'
    by_cases here : k' = k
    · subst here
      rw [Function.update_self, Mem.tr, if_pos hk, paths _ deep.le, find, Option.bind_some,
        entry_put64_same hv]
    · rw [Function.update_of_ne here, ← sp.trans, Mem.tr, Mem.tr]
      by_cases hk' : k' < NPAGES
      · rw [if_pos hk', if_pos hk', paths _ (length_upper k' (by decide)).le]
        refine Option.bind_congr fun x find' => ?_
        by_cases table : x = p
        · subst table
          -- two pages in one table differ in the lowest index
          have slot : ix 0 k' ≠ ix 0 k := fun slot =>
            here (page_eq hk' hk (sp.tree deep.le deep.le find' find) slot)
          rw [entry_put64_index slot]
        · rw [same x _ table]
      · rw [if_neg hk', if_neg hk']

/-- A new empty table below an unused entry changes no translation. -/
theorem graft (sp : Space K m r N t) {is : List (Fin 512)} {i : Fin 512} (short : is.length < 2)
    (first : is = [] → i.val < 256) (reach : follow below m.entry r is = some p) (vacant : m.entry p i &&& PTE_V = 0)
    (fresh : q ∉ N) (ram : K.Ram q) (link : m'.entry p i = pa2pte (q * PGSIZE) ||| PTE_V)
    (bare : ∀ j, m'.entry q j = 0)
    (same : ∀ x j, x ≠ q → (x = p → j ≠ i) → m'.entry x j = m.entry x j) :
    Space K m' r (insert q N) t ∧ follow below m'.entry r (is ++ [i]) = some q := by
  have old : q ∉ Nodes below m.entry r 2 := sp.nodes ▸ fresh
  have small : q * PGSIZE < 2 ^ 64 := ram.lt.trans (by decide)
  have g : Graft below m.entry m'.entry r 2 is p i q :=
    { reach, inner := short, vacant := by rw [below, if_neg (not_not.mpr vacant)]
      fresh := old, link := by rw [link, below_pte small]
      bare := fun j => by rw [bare, below_zero]
      same }
  refine ⟨⟨sp.tree.graft g, ?_, ?_, ?_, ?_, ?_⟩, sp.tree.follow_graft_new g⟩
  · rw [sp.tree.nodes_graft g, sp.nodes]
  · rintro x (rfl | hx)
    · exact ram
    · exact sp.ram x hx
  · intro js x j hjs at_x valid
    rw [sp.tree.follow_graft g hjs.le] at at_x
    by_cases new : js = is ++ [i]
    · rw [if_pos new, Option.some.injEq] at at_x
      subst at_x
      rw [bare] at valid
      simp at valid
    · rw [if_neg new] at at_x
      have hx : x ≠ q := by
        rintro rfl
        exact old (mem_of_follow hjs.le at_x)
      by_cases place : x = p ∧ j = i
      · rw [place.1, place.2, link]
        exact flags_pte (by decide)
      · have entry := same x j hx fun e e' => place ⟨e, e'⟩
        rw [entry] at valid ⊢
        exact sp.inner js x j hjs at_x valid
  · intro j valid
    have hr : r ≠ q := by
      rintro rfl
      exact old Radix.root_mem
    by_cases place : r = p ∧ j = i
    · rw [place.2]
      have path : is = [] := sp.tree short.le (Nat.zero_le 2) (place.1 ▸ reach) rfl
      exact first path
    · rw [same r j hr fun e e' => place ⟨e, e'⟩] at valid
      exact sp.low j valid
  · rw [← sp.trans]
    funext k
    rw [Mem.tr, Mem.tr]
    by_cases hk : k < NPAGES
    · have deep : (upper k 0).length ≤ 2 := le_rfl
      rw [if_pos hk, if_pos hk, sp.tree.follow_graft g deep]
      by_cases new : upper k 0 = is ++ [i]
      · rw [if_pos new, new, g.follow_vacant, Option.bind_some, bare, leaf_zero, Option.bind_none]
      · rw [if_neg new]
        refine Option.bind_congr fun x find => ?_
        have hx : x ≠ q := by
          rintro rfl
          exact old (mem_of_follow deep find)
        have lower : x ≠ p := by
          rintro rfl
          have path := sp.tree deep short.le find reach
          rw [← path] at short
          exact absurd short (Nat.lt_irrefl 2)
        rw [same x _ hx fun e => absurd e lower]
    · rw [if_neg hk, if_neg hk]

end Space

end Xv6.Vm
