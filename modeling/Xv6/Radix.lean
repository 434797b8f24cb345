import Mathlib

/-!
# Trees of tables in memory

`e p i` is the entry with index `i` of the table `p`, and `child` says which table an entry
names, if any. `follow` goes down from a table along a path of indices. A tree is unshared down
to a depth if no table of it is reached by two paths; then an entry can be changed, and a new
table hung in, without a change to what any other path finds.
-/

namespace Radix

variable {ν κ V : Type}

/-- The table at the end of a path from `p`. -/
def follow (child : V → Option ν) (e : ν → κ → V) : ν → List κ → Option ν
  | p, [] => some p
  | p, i :: is => (child (e p i)).bind fun q => follow child e q is

/-- The tables that paths of length at most `d` lead to. -/
def Nodes (child : V → Option ν) (e : ν → κ → V) (r : ν) (d : Nat) : Set ν :=
  {p | ∃ is : List κ, is.length ≤ d ∧ follow child e r is = some p}

/-- No two paths of length at most `d` lead to the same table. -/
def Unshared (child : V → Option ν) (e : ν → κ → V) (r : ν) (d : Nat) : Prop :=
  ∀ ⦃is js : List κ⦄ ⦃p : ν⦄, is.length ≤ d → js.length ≤ d → follow child e r is = some p →
    follow child e r js = some p → is = js

variable {child : V → Option ν} {e e' : ν → κ → V} {r p q x : ν} {d : Nat} {is js : List κ}
variable {i j : κ}

theorem follow_append :
    follow child e r (is ++ js) = (follow child e r is).bind fun p => follow child e p js := by
  induction is generalizing r with
  | nil => rfl
  | cons i is ih =>
    cases h : child (e r i) with
    | none => simp [follow, h]
    | some q => simp [follow, h, ih]

theorem follow_snoc :
    follow child e r (is ++ [i]) = (follow child e r is).bind fun p => child (e p i) := by
  rw [follow_append]
  cases follow child e r is with
  | none => rfl
  | some p => simp [follow]

/-- Only the entries read on the way decide. -/
theorem follow_congr (same : ∀ (js : List κ) (i : κ) (p : ν), js.length < is.length →
    follow child e r js = some p → e' p i = e p i) :
    follow child e' r is = follow child e r is := by
  induction is using List.reverseRecOn with
  | nil => rfl
  | append_singleton is i ih =>
    have before : follow child e' r is = follow child e r is := by
      apply ih
      intro js j p short reach
      exact same js j p (by rw [List.length_append]; omega) reach
    rw [follow_snoc, follow_snoc, before]
    cases h : follow child e r is with
    | none => rfl
    | some p =>
      have entry : e' p i = e p i := same is i p (by simp) h
      simp [entry]

theorem root_mem : r ∈ Nodes child e r d := ⟨[], Nat.zero_le d, rfl⟩

theorem mem_of_follow (short : is.length ≤ d) (reach : follow child e r is = some p) :
    p ∈ Nodes child e r d := ⟨is, short, reach⟩

/-- A change outside the tables above the end of a path does not concern it. -/
theorem follow_of_same (same : ∀ p ∈ Nodes child e r d, ∀ i, e' p i = e p i)
    (short : is.length ≤ d + 1) : follow child e' r is = follow child e r is := by
  apply follow_congr
  intro js i p shorter reach
  exact same p (mem_of_follow (by omega) reach) i

theorem nodes_of_same (same : ∀ p ∈ Nodes child e r d, ∀ i, e' p i = e p i) :
    Nodes child e' r d = Nodes child e r d := by
  ext p
  constructor
  · rintro ⟨is, short, reach⟩
    exact ⟨is, short, (follow_of_same same (by omega)).symm.trans reach⟩
  · rintro ⟨is, short, reach⟩
    exact ⟨is, short, (follow_of_same same (by omega)).trans reach⟩

theorem Unshared.of_same (tree : Unshared child e r d)
    (same : ∀ p ∈ Nodes child e r d, ∀ i, e' p i = e p i) : Unshared child e' r d := by
  intro is js p his hjs reach reach'
  rw [follow_of_same same (by omega)] at reach reach'
  exact tree his hjs reach reach'

/-! ## Changes at the bottom -/

/-- The entries of a lowest table lead nowhere within the tree. -/
theorem Unshared.follow_bottom (tree : Unshared child e r d) (reach : follow child e r js = some p)
    (deep : js.length = d) (same : ∀ x i, x ≠ p → e' x i = e x i) (short : is.length ≤ d) :
    follow child e' r is = follow child e r is := by
  apply follow_congr
  intro ks i x shorter at_x
  apply same
  rintro rfl
  have path : ks = js := tree (by omega) (by omega) at_x reach
  rw [path] at shorter
  omega

theorem Unshared.bottom (tree : Unshared child e r d) (reach : follow child e r js = some p)
    (deep : js.length = d) (same : ∀ x i, x ≠ p → e' x i = e x i) : Unshared child e' r d := by
  intro is ks x his hks reach₁ reach₂
  rw [tree.follow_bottom reach deep same his] at reach₁
  rw [tree.follow_bottom reach deep same hks] at reach₂
  exact tree his hks reach₁ reach₂

theorem Unshared.nodes_bottom (tree : Unshared child e r d) (reach : follow child e r js = some p)
    (deep : js.length = d) (same : ∀ x i, x ≠ p → e' x i = e x i) :
    Nodes child e' r d = Nodes child e r d := by
  ext x
  constructor
  · rintro ⟨is, short, at_x⟩
    exact ⟨is, short, (tree.follow_bottom reach deep same short).symm.trans at_x⟩
  · rintro ⟨is, short, at_x⟩
    exact ⟨is, short, (tree.follow_bottom reach deep same short).trans at_x⟩

/-! ## A new table -/

/-- `e'` is `e` with the empty table `q`, new to the tree, in place of the entry `i` of the table
`p`, which named none. -/
structure Graft (child : V → Option ν) (e e' : ν → κ → V) (r : ν) (d : Nat) (js : List κ) (p : ν)
    (i : κ) (q : ν) : Prop where
  reach : follow child e r js = some p
  inner : js.length < d
  vacant : child (e p i) = none
  fresh : q ∉ Nodes child e r d
  link : child (e' p i) = some q
  bare : ∀ j, child (e' q j) = none
  same : ∀ x j, x ≠ q → (x = p → j ≠ i) → e' x j = e x j

/-- The path of a new table was empty. -/
theorem Graft.follow_vacant (g : Graft child e e' r d js p i q) :
    follow child e r (js ++ [i]) = none := by
  rw [follow_snoc, g.reach, Option.bind_some, g.vacant]

open Classical in
/-- The new table is found at its place, and all others where they were. -/
theorem Unshared.follow_graft (tree : Unshared child e r d) (g : Graft child e e' r d js p i q)
    (short : is.length ≤ d) :
    follow child e' r is = if is = js ++ [i] then some q else follow child e r is := by
  induction is using List.reverseRecOn with
  | nil =>
    rw [if_neg (by simp)]
    rfl
  | append_singleton is k ih =>
    have len : is.length < d := by
      rw [List.length_append, List.length_singleton] at short
      omega
    have here : is ++ [k] = js ++ [i] ↔ is = js ∧ k = i := by simp
    rw [follow_snoc, follow_snoc, ih len.le]
    by_cases below : is = js ++ [i]
    · -- one step below the new table, whose entries are empty
      have longer : ¬ (is = js ∧ k = i) := by
        rintro ⟨same, -⟩
        simp [same] at below
      rw [if_pos below, if_neg (here.not.mpr longer), below, g.follow_vacant]
      exact g.bare k
    · rw [if_neg below]
      cases h : follow child e r is with
      | none =>
        have away : ¬ (is = js ∧ k = i) := by
          rintro ⟨rfl, -⟩
          rw [g.reach] at h
          cases h
        rw [if_neg (here.not.mpr away)]
        rfl
      | some x =>
        have old : x ≠ q := by
          rintro rfl
          exact g.fresh (mem_of_follow len.le h)
        by_cases place : is = js ∧ k = i
        · obtain ⟨rfl, rfl⟩ := place
          obtain rfl : x = p := Option.some.inj (h.symm.trans g.reach)
          rw [if_pos rfl]
          exact g.link
        · rw [if_neg (here.not.mpr place)]
          have entry : e' x k = e x k := by
            apply g.same x k old
            rintro rfl rfl
            exact place ⟨tree len.le g.inner.le h g.reach, rfl⟩
          simp [entry]

theorem Unshared.follow_graft_new (tree : Unshared child e r d)
    (g : Graft child e e' r d js p i q) : follow child e' r (js ++ [i]) = some q := by
  have short : (js ++ [i]).length ≤ d := by
    have := g.inner
    rw [List.length_append, List.length_singleton]
    omega
  rw [tree.follow_graft g short, if_pos rfl]

theorem Unshared.follow_graft_old (tree : Unshared child e r d)
    (g : Graft child e e' r d js p i q) (short : is.length ≤ d) (old : follow child e r is = some x) :
    follow child e' r is = some x := by
  have other : is ≠ js ++ [i] := by
    rintro rfl
    rw [g.follow_vacant] at old
    cases old
  rw [tree.follow_graft g short, if_neg other, old]

theorem Unshared.graft (tree : Unshared child e r d) (g : Graft child e e' r d js p i q) :
    Unshared child e' r d := by
  intro is ks x his hks reach₁ reach₂
  rw [tree.follow_graft g his] at reach₁
  rw [tree.follow_graft g hks] at reach₂
  by_cases new₁ : is = js ++ [i]
  · by_cases new₂ : ks = js ++ [i]
    · rw [new₁, new₂]
    · rw [if_pos new₁] at reach₁
      rw [if_neg new₂, ← reach₁] at reach₂
      exact absurd (mem_of_follow hks reach₂) g.fresh
  · rw [if_neg new₁] at reach₁
    by_cases new₂ : ks = js ++ [i]
    · rw [if_pos new₂] at reach₂
      rw [← reach₂] at reach₁
      exact absurd (mem_of_follow his reach₁) g.fresh
    · rw [if_neg new₂] at reach₂
      exact tree his hks reach₁ reach₂

theorem Unshared.nodes_graft (tree : Unshared child e r d) (g : Graft child e e' r d js p i q) :
    Nodes child e' r d = insert q (Nodes child e r d) := by
  ext x
  rw [Set.mem_insert_iff]
  constructor
  · rintro ⟨is, short, reach⟩
    rw [tree.follow_graft g short] at reach
    split at reach
    · exact .inl (Option.some.inj reach).symm
    · exact .inr ⟨is, short, reach⟩
  · rintro (rfl | ⟨is, short, reach⟩)
    · have := g.inner
      refine ⟨js ++ [i], ?_, tree.follow_graft_new g⟩
      rw [List.length_append, List.length_singleton]
      omega
    · exact ⟨is, short, tree.follow_graft_old g short reach⟩

/-! ## Subtrees -/

theorem mem_nodes_zero : p ∈ Nodes child e r 0 ↔ p = r := by
  constructor
  · rintro ⟨is, short, reach⟩
    obtain rfl : is = [] := List.eq_nil_of_length_eq_zero (by omega)
    exact (Option.some.inj reach).symm
  · rintro rfl
    exact root_mem

theorem mem_nodes_succ : p ∈ Nodes child e r (d + 1) ↔
    p = r ∨ ∃ i q, child (e r i) = some q ∧ p ∈ Nodes child e q d := by
  constructor
  · rintro ⟨is, short, reach⟩
    cases is with
    | nil => exact .inl (Option.some.inj reach).symm
    | cons i is =>
      obtain ⟨q, link, rest⟩ := Option.bind_eq_some_iff.mp reach
      exact .inr ⟨i, q, link, is, Nat.le_of_succ_le_succ short, rest⟩
  · rintro (rfl | ⟨i, q, link, is, short, rest⟩)
    · exact root_mem
    · refine ⟨i :: is, Nat.succ_le_succ short, ?_⟩
      rw [follow, link]
      exact rest

theorem Unshared.below (tree : Unshared child e r (d + 1)) (link : child (e r i) = some q) :
    Unshared child e q d := by
  intro is js p his hjs reach₁ reach₂
  have down : ∀ ks, follow child e r (i :: ks) = follow child e q ks := by
    intro ks
    rw [follow, link]
    rfl
  have paths : i :: is = i :: js := tree (Nat.succ_le_succ his) (Nat.succ_le_succ hjs)
    ((down is).trans reach₁) ((down js).trans reach₂)
  exact (List.cons.inj paths).2

/-- Two entries of one table have no table below in common. -/
theorem Unshared.apart (tree : Unshared child e r (d + 1)) (hq : child (e r i) = some q)
    (hp : child (e r j) = some p) (in_q : x ∈ Nodes child e q d) (in_p : x ∈ Nodes child e p d) :
    i = j := by
  obtain ⟨is, his, reach₁⟩ := in_q
  obtain ⟨js, hjs, reach₂⟩ := in_p
  have paths : i :: is = j :: js := by
    apply @tree (i :: is) (j :: js) x (Nat.succ_le_succ his) (Nat.succ_le_succ hjs)
    · rw [follow, hq]
      exact reach₁
    · rw [follow, hp]
      exact reach₂
  exact (List.cons.inj paths).1

theorem Unshared.root_not_below (tree : Unshared child e r (d + 1)) (link : child (e r i) = some q) :
    r ∉ Nodes child e q d := by
  rintro ⟨is, short, reach⟩
  have paths : [] = i :: is := by
    apply @tree [] (i :: is) r (Nat.zero_le _) (Nat.succ_le_succ short) rfl
    rw [follow, link]
    exact reach
  cases paths

end Radix
