import Xv6.Vm.Grow

/-!
# `uvmcopy`

The loop maps, page by page, copies of the pages of the old table; if it fails, the new table is
left without user pages.
-/

namespace Xv6.Vm

open Fallible Radix
open Xv6.Fs (PGSIZE)

variable {K : Symbols} {m m' m₀ : Mem} {r k n ro : Nat} {N F T No To : Set Nat} {P : Prop}
variable {t old : Nat → Option (Nat × Nat)}

/-- The flags of a translation, and the page it leads to. -/
def pageOf (m : Mem) (old : Nat → Option (Nat × Nat)) (j : Nat) : Nat × Bytes.Buffer PGSIZE :=
  match old j with
  | some (pa, f) => (f, m.page (pa / PGSIZE))
  | none => (0, Bytes.Buffer.zero)

theorem pageOf_some {j p f : Nat} (h : old j = some (p * PGSIZE, f)) : pageOf m old j = (f, m.page p) := by
  simp only [pageOf, h, base_div]

theorem or_valid {f : Nat} (h : f &&& PTE_V ≠ 0) : f ||| PTE_V = f := by
  rw [Nat.and_one_is_mod] at h
  have odd : f = 2 ^ 1 * (f / 2) + 1 := by omega
  have low : f = 2 ^ 1 * (f / 2) ||| 1 := odd.trans (Nat.two_pow_add_eq_or_of_lt (i := 1) (by decide) (f / 2))
  rw [low, Nat.or_assoc]
  rfl

/-- The flags of a leaf. -/
theorem leaf_flags {pte pa f : Nat} (h : leaf pte = some (pa, f)) :
    pa = pte2pa pte ∧ f = pteFlags pte ∧ pte &&& PTE_V ≠ 0 ∧ f < 1024 ∧ f ||| PTE_V = f := by
  rw [leaf] at h
  split at h
  case isTrue valid =>
    obtain ⟨rfl, rfl⟩ := some_inj h
    refine ⟨rfl, rfl, valid, ?_, or_valid (by rwa [← and_valid])⟩
    rw [flags_eq]
    omega
  case isFalse => cases h

/-- Memory with a copy of page `q` in page `p`. -/
def Mem.copied (m : Mem) (p q : Nat) : Mem := { m with page := Function.update m.page p (m.page q) }

theorem copyPage_run {p q : Nat} : copyPage (p * PGSIZE) (q * PGSIZE) m = .ok ((), m.copied p q) := by
  rw [copyPage, base_div, base_div]
  rfl

theorem copied_page_same {p q : Nat} : (m.copied p q).page p = m.page q := Function.update_self ..

theorem copied_page_other {p q x : Nat} (h : x ≠ p) : (m.copied p q).page x = m.page x :=
  Function.update_of_ne h ..

/-- What the error exit does. -/
theorem run_copy_undo (img : Img K m r k t N T) (free : Frees K m F) (apart : Disjoint T F) :
    Meets (uvmunmap K (r * PGSIZE) 0 k true) m P fun _ m' => Refused K m m' r 0 k t N T F := by
  refine (run_unmap_all img free apart).mono ?_
  rintro _ m' ⟨space, free', only⟩
  refine ⟨N, N, F ∪ frames t 0 k, space.img, free', ?_, ?_, only.mono ?_⟩
  · refine Set.disjoint_union_right.mpr ⟨apart.mono_left img.tables_sub, ?_⟩
    exact Set.disjoint_left.mpr fun p hN hp => img.not_table hp hN
  · rw [← img.total, Set.union_right_comm, Set.union_assoc, Set.union_comm F]
  · rw [← img.total]
    exact Set.union_subset_union_left _ Set.subset_union_left

theorem run_uvmcopyFrom {rounds sz : Nat} (src : Img K m₀ ro (pages sz) old No To)
    (same : ∀ p ∈ To, m.page p = m₀.page p) (img : Img K m r k t N T) (free : Frees K m F)
    (apart : Disjoint T F) (away : Disjoint To (T ∪ F)) (fuel : NPAGES ≤ k + rounds)
    (unmapped : ∀ j, k ≤ j → j < NPAGES - 2 → t j = none) :
    Meets (uvmcopyFrom K (ro * PGSIZE) (r * PGSIZE) sz rounds (k * PGSIZE)) m P fun x m' =>
      x = -1 ∧ Refused K m m' r 0 k t N T F ∨
      x = 0 ∧ Extended K m m' r k (pages sz) t N T F (pageOf m₀ old) := by
  induction rounds generalizing k t N T F m with
  | zero =>
    have := img.le_ram
    simp only [NPAGES, MAXVA, PGSIZE] at fuel
    omega
  | succ rounds ih =>
    have bound := img.le_ram
    rw [uvmcopyFrom]
    split
    case isFalse done =>
      have above : pages sz ≤ k := Nat.le_of_not_lt (lt_pages.not.mpr done)
      refine Meets.pure (.inr ⟨rfl, t, N, T, F, ?_, free, apart, rfl, Only.refl, fun _ _ => rfl, by omega⟩)
      rw [Nat.max_eq_left above]
      exact img
    case isTrue more =>
      have hk : k < NPAGES - 2 := by
        simp only [NPAGES, MAXVA, PGSIZE]
        omega
      have hn : k < pages sz := lt_pages.mpr more
      have here := unmapped k le_rfl hk
      obtain ⟨po, f, mapped, hf, -⟩ := src.mapped k hn
      have hpo : po ∈ To := src.frames_sub (mem_frames hn mapped)
      have table := (src.frame fun x hx => same x (src.tables_sub hx)).space
      refine Meets.bind (run_walk_find.needs fun _ => ?_) ?_
      · simp only [NPAGES, MAXVA, PGSIZE] at hk ⊢
        omega
      rintro _ m ⟨-, rfl, rfl⟩
      rw [base_div]
      cases find : follow below m.entry ro (upper k 0) with
      | none =>
        rw [table.tr_of_not_find find] at mapped
        cases mapped
      | some q =>
        have entry := table.tr_of_find (by omega) find
        obtain ⟨addr, flags, valid, small, bits⟩ := leaf_flags (entry.symm.trans mapped)
        refine Meets.step load_pteOf ?_
        rw [if_neg valid, ← addr, ← flags]
        refine Meets.bind free.run_kalloc ?_
        rintro _ m₁ (⟨rfl, rfl, -⟩ | ⟨p, hp, rfl, free₁, only₁⟩)
        · refine Meets.bind (run_copy_undo img free apart) ?_
          exact fun _ m' refused => Meets.pure (.inl ⟨rfl, refused⟩)
        · have ram := free.ram p hp
          have other : po ≠ p := fun e => Set.disjoint_left.mp away hpo (.inr (e ▸ hp))
          refine Meets.step copyPage_run ?_
          have only₂ : Only {p} m (m₁.copied p po) := only₁.trans fun x hx => copied_page_other hx
          have free₂ : Frees K (m₁.copied p po) (F \ {p}) :=
            free₁.frame rfl fun x hx => copied_page_other hx.2
          refine Meets.bind (run_map_new img apart hp ram free₂ only₂ (by omega) here small (by rwa [bits])) ?_
          rintro _ m₃ ⟨U, ⟨rfl, mapped₃, page⟩ | ⟨rfl, grown⟩⟩
          · have next : (k * PGSIZE + PGSIZE) % 2 ^ 64 = (k + 1) * PGSIZE := by
              simp only [PGSIZE]
              omega
            rw [if_neg (by decide), next]
            rw [bits] at mapped₃
            have total := total_grow (T := T) mapped₃.free_before mapped₃.sub
            have sub : insert p (N ∪ U) ⊆ T ∪ F := by
              rw [← total]
              exact (Set.insert_subset_insert (Set.union_subset_union_left U img.tables_sub)).trans
                Set.subset_union_left
            have keep : ∀ x ∈ To, m₃.page x = m.page x := fun x hx =>
              mapped₃.only x fun h => Set.disjoint_left.mp away hx (sub h)
            have copy : pageOf m₀ old k = (f, m₃.page p) := by
              rw [pageOf_some mapped, page, copied_page_same, only₁ po other, same po hpo]
            refine (ih (fun x hx => (keep x hx).trans (same x hx)) mapped₃.img mapped₃.free mapped₃.apart
              (by rw [total]; exact away) (by omega) ?_).mono ?_
            · intro j low high
              rw [Function.update_of_ne (by omega)]
              exact unmapped j (by omega) high
            · rintro x m' (⟨rfl, refused⟩ | ⟨rfl, extended⟩)
              · exact .inl ⟨rfl, mapped₃.refused (Nat.zero_le k) here refused⟩
              · exact .inr ⟨rfl, mapped₃.extended hn copy extended⟩
          · rw [if_pos (by decide)]
            refine Meets.bind (run_drop_new img apart hp ram only₂ grown) ?_
            intro _ m₄ spilt
            refine Meets.bind (run_copy_undo spilt.img spilt.free spilt.apart) ?_
            exact fun _ m' refused => Meets.pure (.inl ⟨rfl, spilt.refused refused⟩)

/-- `uvmcopy` gives the new table a copy of every page of the old one, or no page. -/
theorem run_uvmcopy {sz : Nat} (src : Img K m ro (pages sz) old No To) (img : Img K m r 0 t N T)
    (free : Frees K m F) (apart : Disjoint T F) (away : Disjoint To (T ∪ F))
    (unmapped : ∀ j, j < NPAGES - 2 → t j = none) :
    Meets (uvmcopy K (ro * PGSIZE) (r * PGSIZE) sz) m P fun x m' =>
      x = -1 ∧ Refused K m m' r 0 0 t N T F ∨
      x = 0 ∧ Extended K m m' r 0 (pages sz) t N T F (pageOf m old) := by
  have run : Meets (uvmcopyFrom K (ro * PGSIZE) (r * PGSIZE) sz (NPAGES + 1) (0 * PGSIZE)) m P _ :=
    run_uvmcopyFrom src (fun _ _ => rfl) img free apart away (by omega) fun j _ => unmapped j
  rw [Nat.zero_mul] at run
  exact run

end Xv6.Vm
