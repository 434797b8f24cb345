import Xv6.Bytes

/-!
# Strings that end in NUL

`Run what p l` says that the bytes from `p` on are `l`, `IsStr what p l` that the C string at `p` is `l`.
-/

namespace Bytes

/-- The bytes `l` stand at `p`. -/
def Run (what : Nat → UInt8) : Nat → List UInt8 → Prop
  | _, [] => True
  | p, c :: l => what p = c ∧ Run what (p + 1) l

/-- The string at `p`, as far as it is read. -/
def cstr (what : Nat → UInt8) : Nat → Nat → List UInt8
  | 0, _ => []
  | k + 1, p => if what p = 0 then [] else what p :: cstr what k (p + 1)

/-- `strchr(p, c)`, as far as it is read: where the first `c` of the string is. -/
def strchr (what : Nat → UInt8) (c : UInt8) : Nat → Nat → Option Nat
  | 0, _ => none
  | k + 1, p => if what p = 0 then none else if what p = c then some p else strchr what c k (p + 1)

section

variable {what what' : Nat → UInt8} {p k : Nat} {c : UInt8} {l l' : List UInt8}

theorem run_iff : Run what p l ↔ ∀ j (h : j < l.length), what (p + j) = l[j] := by
  induction l generalizing p with
  | nil => exact ⟨fun _ _ h => absurd h (Nat.not_lt_zero _), fun _ => trivial⟩
  | cons c l ih =>
    rw [Run, ih]
    constructor
    · rintro ⟨first, rest⟩ j h
      cases j with
      | zero => exact first
      | succ j =>
        have next := rest j (Nat.lt_of_succ_lt_succ h)
        rwa [Nat.add_right_comm] at next
    · intro all
      refine ⟨all 0 (Nat.succ_pos _), fun j h => ?_⟩
      rw [Nat.add_right_comm]
      exact all (j + 1) (Nat.succ_lt_succ h)

theorem Run.append : Run what p (l ++ l') ↔ Run what p l ∧ Run what (p + l.length) l' := by
  induction l generalizing p with
  | nil => simp [Run]
  | cons c l ih => simp [Run, ih, and_assoc, Nat.add_assoc, Nat.add_comm 1]

theorem Run.congr (h : Run what p l) (same : ∀ x, p ≤ x → x < p + l.length → what' x = what x) :
    Run what' p l := by
  rw [run_iff] at h ⊢
  intro j hj
  rw [same (p + j) (by omega) (by omega), h j hj]

theorem cstr_of_run (h : Run what p (l ++ [0])) (nonzero : 0 ∉ l) (enough : l.length < k) : cstr what k p = l := by
  induction l generalizing p k with
  | nil =>
    obtain ⟨k, rfl⟩ : ∃ k', k = k' + 1 := ⟨k - 1, by simp only [List.length_nil] at enough; omega⟩
    rw [cstr, if_pos h.1]
  | cons c l ih =>
    obtain ⟨k, rfl⟩ : ∃ k', k = k' + 1 := ⟨k - 1, by simp only [List.length_cons] at enough; omega⟩
    rw [List.mem_cons, not_or] at nonzero
    rw [cstr, h.1, if_neg (Ne.symm nonzero.1), ih h.2 nonzero.2 (Nat.lt_of_succ_lt_succ enough)]

/-- The string up to `c`. -/
theorem strchr_of_run (h : Run what p (l ++ [c])) (nonzero : 0 ∉ l) (other : c ∉ l) (pos : c ≠ 0)
    (enough : l.length < k) : strchr what c k p = some (p + l.length) := by
  induction l generalizing p k with
  | nil =>
    obtain ⟨k, rfl⟩ : ∃ k', k = k' + 1 := ⟨k - 1, by simp only [List.length_nil] at enough; omega⟩
    rw [strchr, h.1, if_neg pos, if_pos rfl, List.length_nil, Nat.add_zero]
  | cons d l ih =>
    obtain ⟨k, rfl⟩ : ∃ k', k = k' + 1 := ⟨k - 1, by simp only [List.length_cons] at enough; omega⟩
    rw [List.mem_cons, not_or] at nonzero other
    rw [strchr, h.1, if_neg (Ne.symm nonzero.1), if_neg (Ne.symm other.1),
      ih h.2 nonzero.2 other.2 (Nat.lt_of_succ_lt_succ enough), List.length_cons, Nat.add_right_comm, Nat.add_assoc]

/-- A string without `c`. -/
theorem strchr_none (h : Run what p (l ++ [0])) (other : c ∉ l) : strchr what c k p = none := by
  induction l generalizing p k with
  | nil =>
    cases k with
    | zero => rfl
    | succ k => rw [strchr, if_pos h.1]
  | cons d l ih =>
    rw [List.mem_cons, not_or] at other
    cases k with
    | zero => rfl
    | succ k =>
      rw [strchr, h.1, if_neg (Ne.symm other.1), ih h.2 other.2, ite_self]

end

/-! ## Runs of a buffer -/

namespace Buffer

variable {n p o : Nat} {d : Buffer n} {l l' : List UInt8}

theorem run_put (fits : p + l.length ≤ n) : Run (d.put p l).get p l :=
  run_iff.mpr fun _ h => get_put_of_mem h (by omega)

theorem run_put_disjoint (h : Run d.get p l) (apart : p + l.length ≤ o ∨ o + l'.length ≤ p) :
    Run (d.put o l').get p l :=
  h.congr fun x low high => get_put_of_not_mem (by omega)

theorem slice_of_run (h : Run d.get p l) : d.slice p l.length = l := by
  refine List.ext_getElem (length_slice ..) fun j _ hj => ?_
  simp only [slice, List.getElem_map, List.getElem_range]
  exact run_iff.mp h j hj

end Buffer

end Bytes
