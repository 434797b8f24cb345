import Mathlib

/-!
# Singly linked paths

`Path next a l b`: following `next` from `a` visits the nodes of `l` and arrives at `b`. A ring
is a path that comes back to its start. `seek` follows `next` until a test succeeds.
-/

namespace Links

variable {A : Type}

def Path (next : A → A) : A → List A → A → Prop
  | a, [], b => a = b
  | a, x :: l, b => a = x ∧ Path next (next x) l b

variable {next next' : A → A} {a b x : A} {l l' : List A}

theorem path_append : Path next a (l ++ l') b ↔ ∃ c, Path next a l c ∧ Path next c l' b := by
  induction l generalizing a with
  | nil => simp [Path]
  | cons x l ih => simp [Path, ih, and_assoc]

theorem Path.frame (path : Path next a l b) (same : ∀ x ∈ l, next' x = next x) : Path next' a l b := by
  induction l generalizing a with
  | nil => exact path
  | cons x l ih =>
    refine ⟨path.1, ?_⟩
    rw [same x List.mem_cons_self]
    exact ih path.2 fun y hy => same y (List.mem_cons_of_mem x hy)

/-- A path that starts in `l'` when `l` is empty and in `l` otherwise. -/
theorem path_cons_append : Path next a (l ++ x :: l') b ↔ Path next a l x ∧ Path next (next x) l' b := by
  rw [path_append]
  constructor
  · rintro ⟨c, first, rfl, second⟩
    exact ⟨first, second⟩
  · exact fun h => ⟨x, h.1, rfl, h.2⟩

/-- A ring seen from another of its nodes. -/
theorem Path.rotate (ring : Path next a (l ++ x :: l') a) : Path next x (x :: (l' ++ l)) x := by
  obtain ⟨first, second⟩ := path_cons_append.mp ring
  exact ⟨rfl, path_append.mpr ⟨a, second, first⟩⟩

/-- Follow the links until `stop` holds. -/
def seek (next : A → A) (stop : A → Bool) : Nat → A → Option A
  | 0, _ => none
  | n + 1, a => if stop a then some a else seek next stop n (next a)

/-- The search ends at the first node that passes the test. -/
theorem Path.seek {stop : A → Bool} {n : Nat} (path : Path next a l b) (skip : ∀ x ∈ l, stop x = false)
    (hit : stop b = true) (fuel : l.length < n) : seek next stop n a = some b := by
  induction l generalizing a n with
  | nil =>
    obtain rfl : a = b := path
    obtain ⟨n, rfl⟩ := Nat.exists_eq_add_one.mpr (Nat.zero_lt_of_lt fuel)
    rw [Links.seek, if_pos hit]
  | cons x l ih =>
    obtain ⟨rfl, rest⟩ := path
    obtain ⟨n, rfl⟩ := Nat.exists_eq_add_one.mpr (Nat.zero_lt_of_lt fuel)
    rw [Links.seek, skip a List.mem_cons_self]
    exact ih rest (fun y hy => skip y (List.mem_cons_of_mem a hy)) (Nat.lt_of_succ_lt_succ fuel)

end Links
