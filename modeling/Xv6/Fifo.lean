import Mathlib

/-!
# Queues with free-running counters

A queue of at most `N` items in an array of `N` slots. `head` and `tail` count the items taken and
added, modulo `M`; the slot of a counter is its value modulo `N`. `N` divides `M`, as with counters
of a machine word and a power of two of slots, so that slots do not jump when a counter wraps.
-/

namespace Fifo

/-- `N` slots, and counters modulo `M`. -/
structure Sizes (N M : Nat) : Prop where
  pos : 0 < N
  lt : N < M
  dvd : N ∣ M

variable {α : Type} {N M head tail : Nat} {slot : Nat → α}

/-- The number of items between two counters. -/
def count (M head tail : Nat) : Nat := (tail + M - head) % M

/-- The items, oldest first. -/
def items (N M : Nat) (slot : Nat → α) (head tail : Nat) : List α :=
  (List.range (count M head tail)).map fun j => slot ((head + j) % N)

@[simp] theorem length_items : (items N M slot head tail).length = count M head tail := by
  simp [items]

theorem count_cases (hh : head < M) (ht : tail < M) :
    (head ≤ tail ∧ count M head tail = tail - head) ∨ (tail < head ∧ count M head tail = tail + M - head) := by
  by_cases h : head ≤ tail
  · refine Or.inl ⟨h, ?_⟩
    rw [count, show tail + M - head = tail - head + M by omega, Nat.add_mod_right, Nat.mod_eq_of_lt (by omega)]
  · refine Or.inr ⟨by omega, ?_⟩
    rw [count, Nat.mod_eq_of_lt (by omega)]

/-- The counter after the next item. -/
theorem next_cases (ht : tail < M) :
    (tail + 1 < M ∧ (tail + 1) % M = tail + 1) ∨ (tail + 1 = M ∧ (tail + 1) % M = 0) := by
  rcases Nat.lt_or_ge (tail + 1) M with h | h
  · exact Or.inl ⟨h, Nat.mod_eq_of_lt h⟩
  · obtain rfl : M = tail + 1 := by omega
    exact Or.inr ⟨rfl, Nat.mod_self _⟩

theorem count_eq_zero_iff (hh : head < M) (ht : tail < M) : count M head tail = 0 ↔ head = tail := by
  rcases count_cases hh ht with ⟨h, e⟩ | ⟨h, e⟩ <;> rw [e] <;> omega

/-- The test for a full queue. -/
theorem count_eq_iff (sizes : Sizes N M) (hh : head < M) (ht : tail < M) :
    count M head tail = N ↔ tail = (head + N) % M := by
  have lt := sizes.lt
  have pos := sizes.pos
  rcases Nat.lt_or_ge (head + N) M with h | h
  · rw [Nat.mod_eq_of_lt h]
    rcases count_cases hh ht with ⟨_, e⟩ | ⟨_, e⟩ <;> rw [e] <;> omega
  · rw [Nat.mod_eq_sub_mod h, Nat.mod_eq_of_lt (by omega)]
    rcases count_cases hh ht with ⟨_, e⟩ | ⟨_, e⟩ <;> rw [e] <;> omega

theorem count_push (hh : head < M) (ht : tail < M) (room : count M head tail + 1 < M) :
    count M head ((tail + 1) % M) = count M head tail + 1 := by
  have next : (tail + 1) % M < M := Nat.mod_lt _ (by omega)
  rcases next_cases ht with ⟨_, n⟩ | ⟨_, n⟩ <;> rw [n] at next ⊢ <;>
    rcases count_cases hh ht with ⟨_, e⟩ | ⟨_, e⟩ <;> rcases count_cases hh next with ⟨_, e'⟩ | ⟨_, e'⟩ <;>
      rw [e, e'] <;> omega

theorem count_pop (hh : head < M) (ht : tail < M) (some : 0 < count M head tail) :
    count M ((head + 1) % M) tail + 1 = count M head tail := by
  have next : (head + 1) % M < M := Nat.mod_lt _ (by omega)
  rcases next_cases hh with ⟨_, n⟩ | ⟨_, n⟩ <;> rw [n] at next ⊢ <;>
    rcases count_cases hh ht with ⟨_, e⟩ | ⟨_, e⟩ <;> rcases count_cases next ht with ⟨_, e'⟩ | ⟨_, e'⟩ <;>
      rw [e] at some <;> rw [e, e'] <;> omega

/-- The slot after the last item. -/
theorem tail_slot (sizes : Sizes N M) (hh : head < M) (ht : tail < M) :
    tail % N = (head + count M head tail) % N := by
  obtain ⟨k, rfl⟩ := sizes.dvd
  rcases count_cases hh ht with ⟨_, e⟩ | ⟨_, e⟩ <;> rw [e]
  · rw [show head + (tail - head) = tail by omega]
  · rw [show head + (tail + N * k - head) = tail + N * k by omega, Nat.add_mul_mod_self_left]

/-- Different items are in different slots. -/
theorem slot_ne {i j : Nat} (h : i < j) (lt : j < i + N) : (head + i) % N ≠ (head + j) % N := by
  intro same
  have dvd : N ∣ (head + j) - (head + i) := Nat.dvd_of_mod_eq_zero (Nat.sub_mod_eq_zero_of_mod_eq same.symm)
  have zero := Nat.eq_zero_of_dvd_of_lt dvd (by omega)
  omega

theorem items_push (sizes : Sizes N M) (hh : head < M) (ht : tail < M) (room : count M head tail < N) (x : α) :
    items N M (Function.update slot (tail % N) x) head ((tail + 1) % M) = items N M slot head tail ++ [x] := by
  have lt := sizes.lt
  rw [items, count_push hh ht (by omega), List.range_succ, List.map_append, tail_slot sizes hh ht]
  congr 1
  · refine List.map_congr_left fun j hj => ?_
    rw [List.mem_range] at hj
    exact Function.update_of_ne (slot_ne hj (by omega)) _ _
  · simp

theorem items_pop (sizes : Sizes N M) (hh : head < M) (ht : tail < M) (some : 0 < count M head tail) :
    items N M slot head tail = slot (head % N) :: items N M slot ((head + 1) % M) tail := by
  have step : ∀ j, ((head + 1) % M + j) % N = (head + (j + 1)) % N := by
    intro j
    rw [Nat.add_mod, Nat.mod_mod_of_dvd _ sizes.dvd, ← Nat.add_mod]
    congr 1
    omega
  rw [items, ← count_pop hh ht some, List.range_succ_eq_map, List.map_cons, List.map_map, items]
  simp only [Nat.add_zero, Function.comp_def, Nat.succ_eq_add_one, step]

/-! ## A queue in two parts -/

section Parts

variable {mid : Nat}

end Parts

/-! ## Taking the last item back -/

end Fifo
