import Mathlib
import Xv6.Vm.Tables

/-!
# User memory: `uvmdealloc` and `uvmalloc`

`Img K m r n t N T`: the table with root `r` and tables `N` translates as `t`, the virtual pages
below `n` are mapped to distinct pages of memory, and these pages and the tables together are `T`.
The free pages `F` are apart from `T`; pages only move between `T` and `F`.
-/

namespace Xv6.Vm

open Fallible Radix
open Xv6.Fs (PGSIZE)

variable {K : Symbols} {m m' m'' : Mem} {r n k p q f : Nat} {N F T U : Set Nat} {P : Prop}
variable {t : Nat → Option (Nat × Nat)}

structure Img (K : Symbols) (m : Mem) (r n : Nat) (t : Nat → Option (Nat × Nat)) (N T : Set Nat) :
    Prop where
  space : Space K m r N t
  mapped : ∀ k < n, ∃ p f, t k = some (p * PGSIZE, f) ∧ f ≠ PTE_V ∧ K.Ram p ∧ p ∉ N
  inj : ∀ i j p f g, i < n → j < n → t i = some (p * PGSIZE, f) → t j = some (p * PGSIZE, g) → i = j
  total : N ∪ frames t 0 n = T

theorem base_inj (h : p * PGSIZE = q * PGSIZE) : p = q := Nat.eq_of_mul_eq_mul_right (by decide) h

theorem some_inj {pa pa' f g : Nat} (h : (some (pa, f) : Option (Nat × Nat)) = some (pa', g)) :
    pa = pa' ∧ f = g := Prod.mk.inj (Option.some.inj h)

theorem mem_frames (hk : k < n) (h : t k = some (p * PGSIZE, f)) : p ∈ frames t 0 n :=
  ⟨k, f, Nat.zero_le k, hk, h⟩

theorem frames_congr {t' : Nat → Option (Nat × Nat)} {i j : Nat}
    (same : ∀ k, i ≤ k → k < j → t' k = t k) : frames t' i j = frames t i j := by
  ext p
  constructor
  · rintro ⟨k, f, low, high, h⟩
    exact ⟨k, f, low, high, (same k low high).symm.trans h⟩
  · rintro ⟨k, f, low, high, h⟩
    exact ⟨k, f, low, high, (same k low high).trans h⟩

theorem frames_split {i j s : Nat} (hij : i ≤ j) (hjs : j ≤ s) :
    frames t i s = frames t i j ∪ frames t j s := by
  ext p
  constructor
  · rintro ⟨k, f, low, high, h⟩
    by_cases first : k < j
    · exact .inl ⟨k, f, low, first, h⟩
    · exact .inr ⟨k, f, by omega, high, h⟩
  · rintro (⟨k, f, low, high, h⟩ | ⟨k, f, low, high, h⟩)
    · exact ⟨k, f, low, by omega, h⟩
    · exact ⟨k, f, by omega, high, h⟩

theorem frames_none {i j : Nat} (h : j ≤ i) : frames t i j = ∅ :=
  Set.eq_empty_iff_forall_notMem.mpr fun p ⟨k, _, low, high, _⟩ => by omega

namespace Img

theorem tables_sub (img : Img K m r n t N T) : N ⊆ T := img.total ▸ Set.subset_union_left

theorem frames_sub (img : Img K m r n t N T) : frames t 0 n ⊆ T := img.total ▸ Set.subset_union_right

theorem not_table (img : Img K m r n t N T) (hp : p ∈ frames t 0 n) : p ∉ N := by
  obtain ⟨k, f, -, hk, h⟩ := hp
  obtain ⟨q, g, hq, -, -, table⟩ := img.mapped k hk
  obtain rfl := base_inj (some_inj (h.symm.trans hq)).1
  exact table

theorem ram (img : Img K m r n t N T) (hp : p ∈ frames t 0 n) : K.Ram p := by
  obtain ⟨k, f, -, hk, h⟩ := hp
  obtain ⟨q, g, hq, -, ram, -⟩ := img.mapped k hk
  obtain rfl := base_inj (some_inj (h.symm.trans hq)).1
  exact ram

theorem ram_total (img : Img K m r n t N T) (hp : p ∈ T) : K.Ram p := by
  rw [← img.total] at hp
  rcases hp with table | user
  · exact img.space.ram p table
  · exact img.ram user

/-- Changes elsewhere do not concern the table. -/
theorem frame (img : Img K m r n t N T) (same : ∀ p ∈ N, m'.page p = m.page p) : Img K m' r n t N T :=
  ⟨img.space.frame same, img.mapped, img.inj, img.total⟩

theorem loose (img : Img K m r n t N T) (apart : Disjoint T F) {i : Nat} : Loose K t i n N F := by
  constructor
  · intro j pa g _ high hj
    obtain ⟨p, f, hp, -, ram, table⟩ := img.mapped j high
    obtain ⟨rfl, -⟩ := some_inj (hj.symm.trans hp)
    exact ⟨p, rfl, ram, table, Set.disjoint_left.mp apart (img.frames_sub (mem_frames high hp))⟩
  · intro j j' pa f g _ hj _ hj' h h'
    obtain ⟨p, f', hp, -⟩ := img.mapped j hj
    obtain ⟨rfl, -⟩ := some_inj (h.symm.trans hp)
    exact img.inj j j' p f g hj hj' h h'

/-- No page is behind two virtual pages. -/
theorem frames_apart {i j s : Nat} (img : Img K m r n t N T) (hij : i ≤ j) (hs : s ≤ n) :
    Disjoint (frames t 0 i) (frames t j s) := by
  refine Set.disjoint_left.mpr ?_
  rintro p ⟨k, f, -, hk, h⟩ ⟨k', f', hk', hn, h'⟩
  have := img.inj k k' p f f' (by omega) (by omega) h h'
  omega

/-- The number of pages is bounded by the memory. -/
theorem le_ram (img : Img K m r n t N T) : n ≤ 32768 := by
  have page : ∀ k ∈ Finset.range n, ((t k).getD (0, 0)).1 / PGSIZE ∈ Finset.Ico 0x80000 0x88000 := by
    intro k hk
    obtain ⟨p, f, hp, -, ram, -⟩ := img.mapped k (Finset.mem_range.mp hk)
    rw [hp, Option.getD_some, base_div, Finset.mem_Ico]
    have := K.base
    have := K.text
    have := ram.1
    have := ram.2
    simp only [KERNBASE, PHYSTOP, PGSIZE] at *
    omega
  have card := Finset.card_le_card_of_injOn _ page (by
    intro i hi j hj same
    obtain ⟨p, f, hp, -⟩ := img.mapped i (Finset.mem_range.mp hi)
    obtain ⟨q, g, hq, -⟩ := img.mapped j (Finset.mem_range.mp hj)
    have pq : p = q := by simpa only [hp, hq, Option.getD_some, base_div] using same
    exact img.inj i j p f g (Finset.mem_range.mp hi) (Finset.mem_range.mp hj) hp (pq ▸ hq))
  simpa using card

/-- Fewer pages. -/
theorem shrink {i : Nat} (img : Img K m r n t N T) (hi : i ≤ n) (space : Space K m' r N (erase t i n)) :
    Img K m' r i (erase t i n) N (N ∪ frames t 0 i) := by
  have same : ∀ k, k < i → erase t i n k = t k := by
    intro k hk
    rw [erase, if_neg (by omega)]
  refine ⟨space, ?_, ?_, ?_⟩
  · intro k hk
    rw [same k hk]
    exact img.mapped k (by omega)
  · intro j j' p f g hj hj' h h'
    rw [same j hj] at h
    rw [same j' hj'] at h'
    exact img.inj j j' p f g (by omega) (by omega) h h'
  · rw [frames_congr fun k _ hk => same k hk]

/-- One more page, and some tables, all of them free before. -/
theorem grow (img : Img K m r n t N T) (apart : Disjoint T F) (hp : p ∈ F) (ram : K.Ram p) (hf : f ≠ PTE_V)
    (sub : U ⊆ F \ {p}) (space : Space K m' r (N ∪ U) (Function.update t n (some (p * PGSIZE, f)))) :
    Img K m' r (n + 1) (Function.update t n (some (p * PGSIZE, f))) (N ∪ U) (insert p (T ∪ U)) := by
  have old : ∀ k, k < n → Function.update t n (some (p * PGSIZE, f)) k = t k :=
    fun k hk => Function.update_of_ne (by omega) ..
  have notIn : p ∉ T := fun h => Set.disjoint_left.mp apart h hp
  refine ⟨space, ?_, ?_, ?_⟩
  · intro k hk
    by_cases last : k = n
    · subst last
      refine ⟨p, f, Function.update_self .., hf, ram, ?_⟩
      rintro (h | h)
      · exact notIn (img.tables_sub h)
      · exact (sub h).2 rfl
    · have hk' : k < n := by omega
      rw [old k hk']
      obtain ⟨q, g, hq, hg, hram, table⟩ := img.mapped k hk'
      refine ⟨q, g, hq, hg, hram, ?_⟩
      rintro (h | h)
      · exact table h
      · exact Set.disjoint_left.mp apart (img.frames_sub (mem_frames hk' hq)) (sub h).1
  · -- the new page was free, so no other page is mapped to it
    have new : ∀ j q g, j < n → t j = some (q * PGSIZE, g) → q ≠ p := by
      rintro j q g hj h rfl
      exact notIn (img.frames_sub (mem_frames hj h))
    intro i j q g g' hi hj hqi hqj
    by_cases hin : i = n
    · by_cases hjn : j = n
      · omega
      · subst hin
        rw [Function.update_self] at hqi
        rw [old j (by omega)] at hqj
        exact absurd (base_inj (some_inj hqi).1).symm (new j q g' (by omega) hqj)
    · rw [old i (by omega)] at hqi
      by_cases hjn : j = n
      · subst hjn
        rw [Function.update_self] at hqj
        exact absurd (base_inj (some_inj hqj).1).symm (new i q g (by omega) hqi)
      · rw [old j (by omega)] at hqj
        exact img.inj i j q g g' (by omega) (by omega) hqi hqj
  · have last : frames (Function.update t n (some (p * PGSIZE, f))) n (n + 1) = {p} := by
      ext q
      rw [Set.mem_singleton_iff]
      constructor
      · rintro ⟨j, g, low, high, h⟩
        obtain rfl : j = n := by omega
        rw [Function.update_self] at h
        exact (base_inj (some_inj h).1).symm
      · rintro rfl
        exact ⟨n, f, le_rfl, by omega, Function.update_self ..⟩
    rw [frames_split (Nat.zero_le n) (Nat.le_succ n), last, frames_congr fun k _ hk => old k hk, ← img.total]
    ext x
    simp only [Set.mem_union, Set.mem_insert_iff, Set.mem_singleton_iff]
    tauto

/-- More tables, free before. -/
theorem tables (img : Img K m r n t N T) (apart : Disjoint T F) (sub : U ⊆ F)
    (space : Space K m' r (N ∪ U) t) : Img K m' r n t (N ∪ U) (T ∪ U) := by
  refine ⟨space, ?_, img.inj, ?_⟩
  · intro k hk
    obtain ⟨p, f, hp, hf, ram, table⟩ := img.mapped k hk
    refine ⟨p, f, hp, hf, ram, ?_⟩
    rintro (h | h)
    · exact table h
    · exact Set.disjoint_left.mp apart (img.frames_sub (mem_frames hk hp)) (sub h)
  · rw [← img.total, Set.union_right_comm]

end Img

/-! ## Sizes -/

theorem pgroundup_eq {sz : Nat} (h : sz + PGSIZE ≤ 2 ^ 64) : pgroundup sz = pages sz * PGSIZE := by
  have small : sz + PGSIZE - 1 < 2 ^ 64 := by
    simp only [PGSIZE] at h ⊢
    omega
  rw [pgroundup, Nat.mod_eq_of_lt small, pages]

theorem pages_base : pages (k * PGSIZE) = k := by
  simp only [pages, PGSIZE]
  omega

theorem pages_mono {a b : Nat} (h : a ≤ b) : pages a ≤ pages b := by
  simp only [pages, PGSIZE]
  omega

theorem lt_pages {sz : Nat} : k < pages sz ↔ k * PGSIZE < sz := by
  simp only [pages, PGSIZE]
  omega

theorem ofInt_toInt {a : Nat} (h : a < 2 ^ 31) : ofInt (toInt a) = a := by
  have small : toInt a = a := by
    unfold toInt
    exact Int.bmod_eq_of_le (by simp) (by simp; omega)
  rw [small]
  simp only [ofInt]
  omega

/-! ## `uvmdealloc` -/

/-- The pages above the new size are unmapped and freed. -/
theorem run_uvmdealloc {oldsz newsz : Nat} (img : Img K m r (pages oldsz) t N T) (free : Frees K m F)
    (apart : Disjoint T F) (high : oldsz ≤ MAXVA) :
    Meets (uvmdealloc K (r * PGSIZE) oldsz newsz) m P fun x m' => x = min oldsz newsz ∧
      ∃ T' F', Img K m' r (min (pages oldsz) (pages newsz)) (erase t (pages newsz) (pages oldsz)) N T' ∧
        Frees K m' F' ∧ Disjoint T' F' ∧ T' ∪ F' = T ∪ F ∧
        Only (N ∪ frames t (pages newsz) (pages oldsz)) m m' := by
  have same : pages oldsz ≤ pages newsz → Img K m r (min (pages oldsz) (pages newsz))
      (erase t (pages newsz) (pages oldsz)) N T := by
    intro none
    rw [Nat.min_eq_left none, erase_none none]
    exact img
  rw [uvmdealloc]
  split
  case isTrue grow =>
    exact Meets.pure ⟨(Nat.min_eq_left grow).symm, T, F, same (pages_mono grow), free, apart, rfl, Only.refl⟩
  case isFalse shrink =>
    have size : newsz = min oldsz newsz := (Nat.min_eq_right (by omega)).symm
    have less : pages newsz ≤ pages oldsz := pages_mono (by omega)
    have small : oldsz + PGSIZE ≤ 2 ^ 64 := by
      simp only [MAXVA, PGSIZE] at high ⊢
      omega
    rw [pgroundup_eq small, pgroundup_eq (show newsz + PGSIZE ≤ 2 ^ 64 by omega)]
    split
    case isTrue some =>
      have bound : pages oldsz ≤ 32768 := img.le_ram
      have count : (pages oldsz * PGSIZE - pages newsz * PGSIZE) / PGSIZE = pages oldsz - pages newsz := by
        simp only [PGSIZE]
        omega
      rw [count, ofInt_toInt (by omega)]
      have sum : pages newsz + (pages oldsz - pages newsz) = pages oldsz := by omega
      have loose : Loose K t (pages newsz) (pages newsz + (pages oldsz - pages newsz)) N F := by
        rw [sum]
        exact img.loose apart
      have inside : pages newsz + (pages oldsz - pages newsz) ≤ NPAGES := by
        simp only [NPAGES, MAXVA, PGSIZE]
        omega
      have run : Meets (uvmunmap K (r * PGSIZE) (pages newsz * PGSIZE) (pages oldsz - pages newsz) true) m _ _ :=
        run_uvmunmap img.space free (apart.mono_left img.tables_sub) inside fun _ => loose
      refine Meets.bind (run.needs ?_) ?_
      · intro _ j _ hj
        obtain ⟨p, f, hp, hf, -⟩ := img.mapped j (by omega)
        exact ⟨_, f, hp, hf⟩
      · rintro _ m' ⟨space, free', only⟩
        rw [sum, given, if_pos rfl] at free' only
        rw [sum] at space
        have img' := img.shrink less space
        have parts := frames_split (t := t) (Nat.zero_le _) less
        refine Meets.pure ⟨size, _, _, by rwa [Nat.min_eq_right less], free', ?_, ?_, only⟩
        · refine Set.disjoint_union_left.mpr ⟨Set.disjoint_union_right.mpr ⟨?_, ?_⟩,
            Set.disjoint_union_right.mpr ⟨?_, ?_⟩⟩
          · exact apart.mono_left img.tables_sub
          · exact Set.disjoint_left.mpr fun p hN hp => img.not_table (parts ▸ .inr hp) hN
          · exact apart.mono_left ((parts ▸ Set.subset_union_left).trans img.frames_sub)
          · exact img.frames_apart le_rfl le_rfl
        · rw [← img.total, parts]
          ext x
          simp only [Set.mem_union]
          tauto
    case isFalse none =>
      refine Meets.pure ⟨size, T, F, same ?_, free, apart, rfl, Only.refl⟩
      simp only [PGSIZE] at none
      omega

/-- All user pages are unmapped and freed. -/
theorem run_unmap_all (img : Img K m r n t N T) (free : Frees K m F) (apart : Disjoint T F) :
    Meets (uvmunmap K (r * PGSIZE) 0 n true) m P fun _ m' => Space K m' r N (erase t 0 n) ∧
      Frees K m' (F ∪ frames t 0 n) ∧ Only T m m' := by
  have high : 0 + n ≤ NPAGES := by
    have := img.le_ram
    simp only [NPAGES, MAXVA, PGSIZE]
    omega
  have loose : Loose K t 0 (0 + n) N F := by
    rw [Nat.zero_add]
    exact img.loose apart
  have run : Meets (uvmunmap K (r * PGSIZE) (0 * PGSIZE) n true) m _ _ :=
    run_uvmunmap img.space free (apart.mono_left img.tables_sub) high fun _ => loose
  rw [Nat.zero_add, given, if_pos rfl, img.total, Nat.zero_mul] at run
  refine run.needs fun _ j _ hj => ?_
  obtain ⟨p, f, hp, hf, -⟩ := img.mapped j hj
  exact ⟨_, f, hp, hf⟩

/-! ## `uvmalloc` -/

/-- The pages from `b` to `k` have been given up; what is left of the failed attempt are tables. -/
def Refused (K : Symbols) (m m' : Mem) (r b k : Nat) (t : Nat → Option (Nat × Nat)) (N T F : Set Nat) :
    Prop :=
  ∃ N' T' F', Img K m' r b (erase t b k) N' T' ∧ Frees K m' F' ∧ Disjoint T' F' ∧ T' ∪ F' = T ∪ F ∧
    Only (N ∪ F ∪ frames t b k) m m'

/-- The permissions of user pages. -/
abbrev userFlags : Nat := PTE_W ||| PTE_X ||| PTE_R ||| PTE_U ||| PTE_V

/-- The pages from `k` to `n` have been added, with the flags and bytes `what` says. -/
def Extended (K : Symbols) (m m' : Mem) (r k n : Nat) (t : Nat → Option (Nat × Nat)) (N T F : Set Nat)
    (what : Nat → Nat × Bytes.Buffer PGSIZE) : Prop :=
  ∃ t' N' T' F', Img K m' r (max k n) t' N' T' ∧ Frees K m' F' ∧ Disjoint T' F' ∧ T' ∪ F' = T ∪ F ∧
    Only (N ∪ F) m m' ∧ (∀ j, ¬ (k ≤ j ∧ j < n) → t' j = t j) ∧
    ∀ j, k ≤ j → j < n → ∃ p ∈ F, t' j = some (p * PGSIZE, (what j).1) ∧ m'.page p = (what j).2

/-- New user pages. -/
def blank : Nat → Nat × Bytes.Buffer PGSIZE := fun _ => (userFlags, Bytes.Buffer.zero)

theorem run_give_up {b : Nat} (img : Img K m r k t N T) (free : Frees K m F) (apart : Disjoint T F) (hb : b ≤ k) :
    Meets (uvmdealloc K (r * PGSIZE) (k * PGSIZE) (b * PGSIZE)) m P fun _ m' =>
      Refused K m m' r b k t N T F := by
  have high : k * PGSIZE ≤ MAXVA := by
    have := img.le_ram
    simp only [MAXVA, PGSIZE]
    omega
  have whole : Img K m r (pages (k * PGSIZE)) t N T := by
    rw [pages_base]
    exact img
  refine (run_uvmdealloc whole free apart high).mono ?_
  rintro _ m' ⟨-, T', F', img', free', apart', total, only⟩
  rw [pages_base, pages_base, Nat.min_eq_right hb] at img'
  rw [pages_base, pages_base] at only
  refine ⟨N, T', F', img', free', apart', total, only.mono ?_⟩
  exact Set.union_subset_union_left _ Set.subset_union_left

/-- A page taken from the free ones becomes a user page, with the tables `U` it needed. -/
theorem total_grow (hp : p ∈ F) (sub : U ⊆ F \ {p}) : insert p (T ∪ U) ∪ (F \ {p}) \ U = T ∪ F := by
  ext x
  have := @sub x
  simp only [Set.mem_union, Set.mem_insert_iff, Set.mem_sdiff, Set.mem_singleton_iff] at *
  by_cases hx : x = p
  · subst hx
    tauto
  · tauto

theorem apart_extend (apart : Disjoint T F) (sub : U ⊆ F \ {p}) :
    Disjoint (insert p (T ∪ U)) ((F \ {p}) \ U) := by
  refine Set.disjoint_left.mpr ?_
  rintro x (rfl | hx | hx) ⟨⟨hF, other⟩, hU⟩
  · exact other rfl
  · exact Set.disjoint_left.mp apart hx hF
  · exact hU hx

theorem erase_update {b : Nat} {v : Option (Nat × Nat)} (hb : b ≤ k) (unmapped : t k = none) :
    erase (Function.update t k v) b (k + 1) = erase t b k := by
  funext j
  rw [erase, erase]
  by_cases here : j = k
  · subst here
    rw [if_pos (by omega), if_neg (by omega), unmapped]
  · rw [Function.update_of_ne here]
    exact if_congr (by omega) rfl rfl

theorem frames_update_sub {b : Nat} :
    frames (Function.update t k (some (p * PGSIZE, f))) b (k + 1) ⊆ insert p (frames t b k) := by
  rintro q ⟨j, g, low, high, h⟩
  by_cases here : j = k
  · subst here
    rw [Function.update_self] at h
    exact .inl (base_inj (some_inj h).1).symm
  · rw [Function.update_of_ne here] at h
    exact .inr ⟨j, g, low, by omega, h⟩

/-- What a round of `uvmalloc` that maps the free page `p` has changed. -/
structure Mapped (K : Symbols) (m m' : Mem) (r k p : Nat) (t : Nat → Option (Nat × Nat)) (N T F U : Set Nat)
    (f : Nat) : Prop where
  free_before : p ∈ F
  sub : U ⊆ F \ {p}
  img : Img K m' r (k + 1) (Function.update t k (some (p * PGSIZE, f))) (N ∪ U) (insert p (T ∪ U))
  free : Frees K m' ((F \ {p}) \ U)
  apart : Disjoint (insert p (T ∪ U)) ((F \ {p}) \ U)
  only : Only (insert p (N ∪ U)) m m'

namespace Mapped

theorem refused {b : Nat} (h : Mapped K m m' r k p t N T F U f) (hb : b ≤ k) (unmapped : t k = none)
    (rest : Refused K m' m'' r b (k + 1) (Function.update t k (some (p * PGSIZE, f))) (N ∪ U)
      (insert p (T ∪ U)) ((F \ {p}) \ U)) : Refused K m m'' r b k t N T F := by
  obtain ⟨N', T', F', img', free', apart', total, only⟩ := rest
  rw [erase_update hb unmapped] at img'
  refine ⟨N', T', F', img', free', apart', total.trans (total_grow h.free_before h.sub), ?_⟩
  refine (h.only.mono ?_).trans (only.mono ?_)
  · rintro x (rfl | hx | hx)
    · exact .inl (.inr h.free_before)
    · exact .inl (.inl hx)
    · exact .inl (.inr (h.sub hx).1)
  · rintro x (((hx | hx) | hx) | hx)
    · exact .inl (.inl hx)
    · exact .inl (.inr (h.sub hx).1)
    · exact .inl (.inr hx.1.1)
    · rcases frames_update_sub hx with rfl | hx
      · exact .inl (.inr h.free_before)
      · exact .inr hx

theorem extended {what : Nat → Nat × Bytes.Buffer PGSIZE} (h : Mapped K m m' r k p t N T F U f) (hn : k < n)
    (page : what k = (f, m'.page p))
    (rest : Extended K m' m'' r (k + 1) n (Function.update t k (some (p * PGSIZE, f))) (N ∪ U)
      (insert p (T ∪ U)) ((F \ {p}) \ U) what) : Extended K m m'' r k n t N T F what := by
  obtain ⟨t', N', T', F', img', free', apart', total, only, same, new⟩ := rest
  have last : max (k + 1) n = max k n := by omega
  rw [last] at img'
  refine ⟨t', N', T', F', img', free', apart', total.trans (total_grow h.free_before h.sub), ?_, ?_, ?_⟩
  · refine (h.only.mono ?_).trans (only.mono ?_)
    · rintro x (rfl | hx | hx)
      · exact .inr h.free_before
      · exact .inl hx
      · exact .inr (h.sub hx).1
    · rintro x ((hx | hx) | hx)
      · exact .inl hx
      · exact .inr (h.sub hx).1
      · exact .inr hx.1.1
  · intro j away
    rw [same j (by omega), Function.update_of_ne (by omega)]
  · intro j low high
    by_cases here : j = k
    · subst here
      have keep : p ∉ N ∪ U ∪ (F \ {p}) \ U := by
        have table := h.img.not_table (mem_frames (Nat.lt_succ_self _) (Function.update_self ..))
        rintro (hx | hx)
        · exact table hx
        · exact hx.1.2 rfl
      rw [page, same j (by omega), Function.update_self]
      exact ⟨p, h.free_before, rfl, only p keep⟩
    · obtain ⟨q, hq, entry, bytes⟩ := new j (by omega) high
      exact ⟨q, hq.1.1, entry, bytes⟩

end Mapped

/-- What a failed attempt to map a page has changed: there are more tables. -/
structure Spilt (K : Symbols) (m m' : Mem) (r k : Nat) (t : Nat → Option (Nat × Nat)) (N T F U : Set Nat) :
    Prop where
  sub : U ⊆ F
  img : Img K m' r k t (N ∪ U) (T ∪ U)
  free : Frees K m' (F \ U)
  apart : Disjoint (T ∪ U) (F \ U)
  only : Only (N ∪ F) m m'

theorem Spilt.refused {b : Nat} (h : Spilt K m m' r k t N T F U)
    (rest : Refused K m' m'' r b k t (N ∪ U) (T ∪ U) (F \ U)) : Refused K m m'' r b k t N T F := by
  obtain ⟨N', T', F', img', free', apart', total, only⟩ := rest
  refine ⟨N', T', F', img', free', apart', ?_, ?_⟩
  · rw [total, Set.union_assoc, Set.union_sdiff_cancel h.sub]
  · refine (h.only.mono Set.subset_union_left).trans (only.mono ?_)
    rintro x (((hx | hx) | hx) | hx)
    · exact .inl (.inl hx)
    · exact .inl (.inr (h.sub hx))
    · exact .inl (.inr hx.1)
    · exact .inr hx

section NewPage

variable {m₁ m₂ : Mem} {perm : Nat}

/-- A page taken from the free ones and filled is mapped behind the last page. -/
theorem run_map_new (img : Img K m r k t N T) (apart : Disjoint T F) (hp : p ∈ F) (ram : K.Ram p)
    (free : Frees K m₁ (F \ {p})) (only : Only {p} m m₁) (hk : k < NPAGES) (unmapped : t k = none)
    (hperm : perm < 1024) (hf : perm ||| PTE_V ≠ PTE_V) :
    Meets (mappages (r * PGSIZE) (k * PGSIZE) PGSIZE (p * PGSIZE) perm) m₁ P fun res m₂ => ∃ U,
      res = 0 ∧ Mapped K m m₂ r k p t N T F U (perm ||| PTE_V) ∧ m₂.page p = m₁.page p ∨
      res = -1 ∧ Grown K m₁ m₂ r N (F \ {p}) U t := by
  have away : p ∉ T := fun h => Set.disjoint_left.mp apart h hp
  have space : Space K m₁ r N t :=
    img.space.frame fun x hx => only x fun e => away (e ▸ img.tables_sub hx)
  have apart₁ : Disjoint N (F \ {p}) := (apart.mono_left img.tables_sub).mono_right Set.sdiff_subset
  refine (run_mappages_one space free apart₁ hk (ram.lt.trans (by decide)) hperm unmapped).mono ?_
  rintro res m₂ ⟨U, ⟨rfl, grown⟩ | ⟨rfl, grown⟩⟩
  · refine ⟨U, .inl ⟨rfl, ?_, grown.only p ?_⟩⟩
    · exact
        { free_before := hp, sub := grown.sub, free := grown.free
          img := img.grow apart hp ram hf grown.sub grown.space
          apart := apart_extend apart grown.sub
          only := (only.mono (Set.singleton_subset_iff.mpr (.inl rfl))).trans
            (grown.only.mono (Set.subset_insert ..)) }
    · rintro (h | h)
      · exact away (img.tables_sub h)
      · exact (grown.sub h).2 rfl
  · exact ⟨U, .inr ⟨rfl, grown⟩⟩

/-- If that failed the page is freed again. -/
theorem run_drop_new (img : Img K m r k t N T) (apart : Disjoint T F) (hp : p ∈ F) (ram : K.Ram p)
    (only : Only {p} m m₁) (grown : Grown K m₁ m₂ r N (F \ {p}) U t) :
    Meets (kfree K (p * PGSIZE)) m₂ P fun _ m' => Spilt K m m' r k t N T F U := by
  have sub : U ⊆ F := grown.sub.trans Set.sdiff_subset
  have keep : ∀ x ∈ N ∪ U, x ≠ p := by
    rintro x (h | h) rfl
    · exact Set.disjoint_left.mp apart (img.tables_sub h) hp
    · exact (grown.sub h).2 rfl
  refine (grown.free.run_kfree ram fun h => h.1.2 rfl).mono ?_
  rintro _ m' ⟨free', only'⟩
  refine ⟨sub, ?_, ?_, ?_, ?_⟩
  · exact (img.tables apart sub grown.space).frame fun x hx => only' x (keep x hx)
  · have all : insert p ((F \ {p}) \ U) = F \ U := by
      ext x
      have := keep x
      simp only [Set.mem_union, Set.mem_insert_iff, Set.mem_sdiff, Set.mem_singleton_iff] at *
      by_cases hx : x = p
      · subst hx
        tauto
      · tauto
    rwa [all] at free'
  · exact apart_grow apart
  · refine (only.mono ?_).trans ((grown.only.mono ?_).trans (only'.mono ?_))
    · exact Set.singleton_subset_iff.mpr (.inr hp)
    · exact Set.union_subset_union_right N sub
    · exact Set.singleton_subset_iff.mpr (.inr hp)

end NewPage

theorem run_uvmallocFrom {rounds b newsz : Nat} (img : Img K m r k t N T) (free : Frees K m F)
    (apart : Disjoint T F) (hb : b ≤ k) (fuel : NPAGES ≤ k + rounds)
    (unmapped : ∀ j, k ≤ j → j < NPAGES - 2 → t j = none) :
    Meets (uvmallocFrom K (r * PGSIZE) (b * PGSIZE) newsz rounds (k * PGSIZE)) m P fun x m' =>
      x = 0 ∧ Refused K m m' r b k t N T F ∨ x = newsz ∧ Extended K m m' r k (pages newsz) t N T F blank := by
  induction rounds generalizing k t N T F m with
  | zero =>
    have := img.le_ram
    simp only [NPAGES, MAXVA, PGSIZE] at fuel
    omega
  | succ rounds ih =>
    have bound := img.le_ram
    rw [uvmallocFrom]
    split
    case isFalse done =>
      have above : pages newsz ≤ k := Nat.le_of_not_lt (lt_pages.not.mpr done)
      refine Meets.pure (.inr ⟨rfl, t, N, T, F, ?_, free, apart, rfl, Only.refl, fun _ _ => rfl, by omega⟩)
      rw [Nat.max_eq_left above]
      exact img
    case isTrue more =>
      have hk : k < NPAGES - 2 := by
        simp only [NPAGES, MAXVA, PGSIZE]
        omega
      have here := unmapped k le_rfl hk
      refine Meets.bind free.run_kalloc ?_
      rintro _ m₁ (⟨rfl, rfl, -⟩ | ⟨p, hp, rfl, free₁, only₁⟩)
      · refine Meets.bind (run_give_up img free apart hb) ?_
        exact fun _ m' refused => Meets.pure (.inl ⟨rfl, refused⟩)
      · have ram := free.ram p hp
        have only₂ : Only {p} m (m₁.fill (p * PGSIZE) 0) := only₁.trans fun x hx => fill_page_other hx
        have free₂ : Frees K (m₁.fill (p * PGSIZE) 0) (F \ {p}) :=
          free₁.frame rfl fun x hx => fill_page_other hx.2
        refine Meets.step rfl (Meets.bind (run_map_new img apart hp ram free₂ only₂ (by omega) here
          (by decide) (by decide)) ?_)
        rintro _ m₃ ⟨U, ⟨rfl, mapped, page⟩ | ⟨rfl, grown⟩⟩
        · have next : (k * PGSIZE + PGSIZE) % 2 ^ 64 = (k + 1) * PGSIZE := by
            simp only [PGSIZE]
            omega
          rw [if_neg (by decide), next]
          refine (ih mapped.img mapped.free mapped.apart (by omega) (by omega) ?_).mono ?_
          · intro j low high
            rw [Function.update_of_ne (by omega)]
            exact unmapped j (by omega) high
          · rintro x m' (⟨rfl, refused⟩ | ⟨rfl, extended⟩)
            · exact .inl ⟨rfl, mapped.refused hb here refused⟩
            · have zero : blank k = (userFlags, m₃.page p) := by
                rw [page, fill_page_same]
                rfl
              exact .inr ⟨rfl, mapped.extended (lt_pages.mpr more) zero extended⟩
        · rw [if_pos (by decide)]
          refine Meets.bind (run_drop_new img apart hp ram only₂ grown) ?_
          intro _ m₄ spilt
          refine Meets.bind (run_give_up spilt.img spilt.free spilt.apart hb) ?_
          exact fun _ m' refused => Meets.pure (.inl ⟨rfl, spilt.refused refused⟩)

/-- `uvmalloc` adds the pages up to the new size or changes no translation. -/
theorem run_uvmalloc {oldsz newsz : Nat} (img : Img K m r (pages oldsz) t N T) (free : Frees K m F)
    (apart : Disjoint T F) (le : oldsz ≤ newsz) (unmapped : ∀ j, pages oldsz ≤ j → j < NPAGES - 2 → t j = none) :
    Meets (uvmalloc K (r * PGSIZE) oldsz newsz) m P fun x m' =>
      x = 0 ∧ Refused K m m' r (pages oldsz) (pages oldsz) t N T F ∨
      x = newsz ∧ Extended K m m' r (pages oldsz) (pages newsz) t N T F blank := by
  have small : oldsz + PGSIZE ≤ 2 ^ 64 := by
    have := img.le_ram
    simp only [pages, PGSIZE] at this ⊢
    omega
  rw [uvmalloc, if_neg (by omega), pgroundup_eq small]
  exact run_uvmallocFrom img free apart le_rfl (by omega) unmapped

end Xv6.Vm
