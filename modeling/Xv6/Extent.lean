import Mathlib

/-!
# Extents

An extent is a run of units of `w` bytes each, given by its address and the number of units.
`Tiles w blocks regions`: the blocks do not overlap, and have the same units as the regions.
-/

namespace Extents

/-- The address, and the number of units. -/
abbrev Extent : Type := Nat × Nat

variable {w : Nat}

/-- The address behind the extent. -/
def stop (w : Nat) (x : Extent) : Nat := x.1 + w * x.2

/-- The unit at address `u` is in the extent. -/
def Has (w : Nat) (u : Nat) (x : Extent) : Prop := ∃ j < x.2, u = x.1 + w * j

/-- No byte is in both. -/
def Apart (w : Nat) (x y : Extent) : Prop := stop w x ≤ y.1 ∨ stop w y ≤ x.1

theorem Apart.symm {x y : Extent} (h : Apart w x y) : Apart w y x := Or.symm h

instance : Std.Symm (Apart w) := ⟨fun _ _ h => h.symm⟩

structure Tiles (w : Nat) (blocks regions : List Extent) : Prop where
  pos : ∀ b ∈ blocks, 0 < b.2
  apart : blocks.Pairwise (Apart w)
  cover : ∀ u, (∃ r ∈ regions, Has w u r) ↔ ∃ b ∈ blocks, Has w u b
  total : (blocks.map Prod.snd).sum = (regions.map Prod.snd).sum

theorem Has.lt {u : Nat} {x : Extent} (hw : 0 < w) (h : Has w u x) : x.1 ≤ u ∧ u < stop w x := by
  obtain ⟨j, hj, rfl⟩ := h
  have : w * j < w * x.2 := Nat.mul_lt_mul_of_pos_left hj hw
  exact ⟨Nat.le_add_right _ _, Nat.add_lt_add_left this _⟩

/-- An extent is cut in two. -/
theorem has_split {u a n m : Nat} :
    Has w u (a, n + m) ↔ Has w u (a, n) ∨ Has w u (a + w * n, m) := by
  constructor
  · rintro ⟨j, hj, rfl⟩
    by_cases low : j < n
    · exact Or.inl ⟨j, low, rfl⟩
    · obtain ⟨k, rfl⟩ : ∃ k, j = n + k := ⟨j - n, by omega⟩
      refine Or.inr ⟨k, Nat.lt_of_add_lt_add_left hj, ?_⟩
      show a + w * (n + k) = a + w * n + w * k
      ring
  · rintro (⟨j, hj, rfl⟩ | ⟨j, hj, rfl⟩)
    · exact ⟨j, Nat.lt_add_right m hj, rfl⟩
    · refine ⟨n + j, Nat.add_lt_add_left hj n, ?_⟩
      show a + w * n + w * j = a + w * (n + j)
      ring

/-- The bytes of extents that do not overlap. -/
theorem exists_bytes {l : List Extent} (apart : l.Pairwise (Apart w)) :
    ∃ S : Finset Nat, S.card = w * (l.map Prod.snd).sum ∧ ∀ u, u ∈ S ↔ ∃ x ∈ l, x.1 ≤ u ∧ u < stop w x := by
  induction l with
  | nil => exact ⟨∅, rfl, by simp⟩
  | cons x l ih =>
    obtain ⟨others, apart⟩ := List.pairwise_cons.mp apart
    obtain ⟨S, card, mem⟩ := ih apart
    have disjoint : Disjoint (Finset.Ico x.1 (stop w x)) S := by
      rw [Finset.disjoint_left]
      intro u hu hS
      obtain ⟨y, hy, low, high⟩ := (mem u).mp hS
      have := Finset.mem_Ico.mp hu
      rcases others y hy with h | h
      · omega
      · omega
    refine ⟨Finset.Ico x.1 (stop w x) ∪ S, ?_, fun u => ?_⟩
    · rw [Finset.card_union_of_disjoint disjoint, card, Nat.card_Ico, List.map_cons, List.sum_cons, Nat.mul_add, stop,
        Nat.add_sub_cancel_left]
    · rw [Finset.mem_union, Finset.mem_Ico, mem, List.exists_mem_cons_iff]

/-- They fit below the address behind them all. -/
theorem units_le {l : List Extent} {limit : Nat} (apart : l.Pairwise (Apart w)) (below : ∀ x ∈ l, stop w x ≤ limit) :
    w * (l.map Prod.snd).sum ≤ limit := by
  obtain ⟨S, card, mem⟩ := exists_bytes apart
  rw [← card, ← Finset.card_range limit]
  refine Finset.card_le_card fun u hu => ?_
  obtain ⟨x, hx, -, high⟩ := (mem u).mp hu
  exact Finset.mem_range.mpr (high.trans_le (below x hx))

variable {blocks blocks' regions : List Extent} {x y : Extent}

theorem Tiles.perm (T : Tiles w blocks regions) (h : blocks.Perm blocks') : Tiles w blocks' regions where
  pos b hb := T.pos b (h.mem_iff.mpr hb)
  apart := (h.pairwise_iff fun hxy => hxy.symm).mp T.apart
  cover u := (T.cover u).trans (by simp only [h.mem_iff])
  total := by rw [← T.total, (h.map Prod.snd).sum_nat]

/-- A new region behind everything is a block. -/
theorem Tiles.add (T : Tiles w blocks regions) (pos : 0 < x.2) (behind : ∀ b ∈ blocks, stop w b ≤ x.1) :
    Tiles w (x :: blocks) (x :: regions) where
  pos := List.forall_mem_cons.mpr ⟨pos, T.pos⟩
  apart := List.pairwise_cons.mpr ⟨fun b hb => Or.inr (behind b hb), T.apart⟩
  cover u := by simp only [List.exists_mem_cons_iff, T.cover u]
  total := by simp only [List.map_cons, List.sum_cons, T.total]

/-- A block may be cut in two. -/
theorem Tiles.split {a n m : Nat} (hn : 0 < n) (hm : 0 < m) (T : Tiles w ((a, n + m) :: blocks) regions) :
    Tiles w ((a, n) :: (a + w * n, m) :: blocks) regions where
  pos := List.forall_mem_cons.mpr ⟨hn, List.forall_mem_cons.mpr
    ⟨hm, fun b hb => T.pos b (List.mem_cons_of_mem _ hb)⟩⟩
  apart := by
    obtain ⟨whole, others⟩ := List.pairwise_cons.mp T.apart
    have len : w * (n + m) = w * n + w * m := Nat.mul_add w n m
    refine List.pairwise_cons.mpr ⟨List.forall_mem_cons.mpr ⟨Or.inl (Nat.le_refl _), fun b hb => ?_⟩,
      List.pairwise_cons.mpr ⟨fun b hb => ?_, others⟩⟩
    · rcases whole b hb with h | h
      · refine Or.inl (Nat.le_trans ?_ h)
        simp only [stop]
        omega
      · exact Or.inr h
    · rcases whole b hb with h | h
      · refine Or.inl (Nat.le_trans ?_ h)
        simp only [stop]
        omega
      · exact Or.inr (Nat.le_trans h (Nat.le_add_right _ _))
  cover u := by
    rw [T.cover u]
    simp only [List.exists_mem_cons_iff, has_split, or_assoc]
  total := by
    rw [← T.total]
    simp only [List.map_cons, List.sum_cons, Nat.add_assoc]

/-- Two blocks that touch may be joined. -/
theorem Tiles.join {a n m : Nat} (hw : 0 < w) (T : Tiles w ((a, n) :: (a + w * n, m) :: blocks) regions) :
    Tiles w ((a, n + m) :: blocks) regions where
  pos := List.forall_mem_cons.mpr ⟨Nat.add_pos_left (T.pos _ List.mem_cons_self) m,
    fun b hb => T.pos b (List.mem_cons_of_mem _ (List.mem_cons_of_mem _ hb))⟩
  apart := by
    obtain ⟨first, others⟩ := List.pairwise_cons.mp T.apart
    obtain ⟨second, rest⟩ := List.pairwise_cons.mp others
    refine List.pairwise_cons.mpr ⟨fun b hb => ?_, rest⟩
    have len : w * (n + m) = w * n + w * m := Nat.mul_add w n m
    have inside : b.1 < stop w b := Nat.lt_add_of_pos_right
      (Nat.mul_pos hw (T.pos b (List.mem_cons_of_mem _ (List.mem_cons_of_mem _ hb))))
    have h₁ := first b (List.mem_cons_of_mem _ hb)
    have h₂ := second b hb
    simp only [Apart, stop] at h₁ h₂ inside ⊢
    omega
  cover u := by
    rw [T.cover u]
    simp only [List.exists_mem_cons_iff, has_split, or_assoc]
  total := by
    rw [← T.total]
    simp only [List.map_cons, List.sum_cons, Nat.add_assoc]

/-- Different blocks are apart. -/
theorem Tiles.apart_of_ne (T : Tiles w blocks regions) (hx : x ∈ blocks) (hy : y ∈ blocks) (ne : x ≠ y) :
    Apart w x y :=
  T.apart.forall hx hy ne

/-- Every unit is in one block. -/
theorem Tiles.unique (hw : 0 < w) (T : Tiles w blocks regions) {u : Nat} (hu : ∃ r ∈ regions, Has w u r) :
    ∃! b, b ∈ blocks ∧ Has w u b := by
  obtain ⟨b, hb, has⟩ := (T.cover u).mp hu
  refine ⟨b, ⟨hb, has⟩, ?_⟩
  rintro c ⟨hc, has'⟩
  by_contra ne
  have h := has.lt hw
  have h' := has'.lt hw
  rcases T.apart_of_ne hc hb ne with apart | apart
  · omega
  · omega

end Extents
