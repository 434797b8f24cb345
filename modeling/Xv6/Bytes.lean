import Mathlib

/-!
# Byte buffers of fixed size

A buffer of `n` bytes, runs of bytes in it, and little-endian numbers in a run. Reading
outside a buffer gives zero and writing outside it does nothing, so the operations are
total; every use below stays inside.
-/

namespace Bytes

/-- A buffer of `n` bytes. -/
def Buffer (n : Nat) : Type := Fin n → UInt8

/-- The little-endian value of a run of bytes. -/
def leValue : List UInt8 → Nat
  | [] => 0
  | b :: bs => b.toNat + 256 * leValue bs

/-- The `k` low bytes of a number, least significant first. -/
def leBytes : Nat → Nat → List UInt8
  | 0, _ => []
  | k + 1, v => UInt8.ofNat (v % 256) :: leBytes k (v / 256)

@[simp] theorem length_leBytes (k v : Nat) : (leBytes k v).length = k := by
  induction k generalizing v with
  | zero => rfl
  | succ k ih => simp [leBytes, ih]

theorem leValue_leBytes (k v : Nat) : leValue (leBytes k v) = v % 256 ^ k := by
  induction k generalizing v with
  | zero => simp [leBytes, leValue, Nat.mod_one]
  | succ k ih =>
    have hb : (UInt8.ofNat (v % 256)).toNat = v % 256 := by
      simp
    rw [leBytes, leValue, ih, hb, pow_succ, Nat.mul_comm (256 ^ k) 256, Nat.mod_mul]

theorem leValue_leBytes_of_lt {k v : Nat} (h : v < 256 ^ k) :
    leValue (leBytes k v) = v := by
  rw [leValue_leBytes, Nat.mod_eq_of_lt h]

theorem leValue_lt (l : List UInt8) : leValue l < 256 ^ l.length := by
  induction l with
  | nil => simp [leValue]
  | cons b bs ih =>
    have hb := b.toNat_lt
    simp only [leValue, List.length_cons, pow_succ]
    omega

namespace Buffer

variable {n : Nat}

def zero : Buffer n := fun _ => 0

/-- The byte at an offset. -/
def get (d : Buffer n) (o : Nat) : UInt8 := if h : o < n then d ⟨o, h⟩ else 0

/-- The run of `k` bytes at an offset. -/
def slice (d : Buffer n) (o k : Nat) : List UInt8 := (List.range k).map fun j => d.get (o + j)

/-- Overwrite a run of bytes. -/
def put (d : Buffer n) (o : Nat) (l : List UInt8) : Buffer n := fun i =>
  if o ≤ i.val then (l[i.val - o]?).getD (d i) else d i

theorem put_nil (d : Buffer n) (o : Nat) : d.put o [] = d := by
  funext i
  simp [put]

@[ext] theorem ext {d e : Buffer n} (h : ∀ o, o < n → d.get o = e.get o) : d = e := by
  funext i
  simpa [get, i.isLt] using h i.val i.isLt

@[simp] theorem get_zero (o : Nat) : (zero : Buffer n).get o = 0 := by
  simp [get, zero]

theorem get_put_of_mem {d : Buffer n} {o : Nat} {l : List UInt8} {j : Nat}
    (hj : j < l.length) (hn : o + j < n) : (d.put o l).get (o + j) = l[j] := by
  simp [get, put, hn, List.getElem?_eq_getElem hj]

theorem get_put_of_not_mem {d : Buffer n} {o : Nat} {l : List UInt8} {x : Nat}
    (hx : x < o ∨ o + l.length ≤ x) : (d.put o l).get x = d.get x := by
  by_cases hn : x < n
  · simp only [get, put, hn, dif_pos]
    by_cases ho : o ≤ x
    · have : l.length ≤ x - o := by omega
      simp [ho, List.getElem?_eq_none this]
    · simp [ho]
  · simp [get, hn]

theorem get_put {d : Buffer n} {o i : Nat} {l : List UInt8} (fits : o + l.length ≤ n) :
    (d.put o l).get i = if o ≤ i ∧ i < o + l.length then l.getD (i - o) 0 else d.get i := by
  split
  case isTrue inside =>
    obtain ⟨j, rfl⟩ := Nat.exists_eq_add_of_le inside.1
    have hj : j < l.length := by omega
    rw [get_put_of_mem hj (by omega), Nat.add_sub_cancel_left, List.getD_eq_getElem?_getD, List.getElem?_eq_getElem hj]
    rfl
  case isFalse outside => exact get_put_of_not_mem (by omega)

/-- Two runs stored one after the other. -/
theorem put_put (d : Buffer n) (o : Nat) (k l : List UInt8) :
    (d.put o k).put (o + k.length) l = d.put o (k ++ l) := by
  funext i
  simp only [put]
  by_cases high : o + k.length ≤ i.val
  · have index : i.val - o - k.length = i.val - (o + k.length) := by omega
    rw [if_pos high, if_pos (by omega), if_pos (by omega), List.getElem?_append_right (by omega), index,
      List.getElem?_eq_none (l := k) (by omega)]
    rfl
  · rw [if_neg high]
    by_cases low : o ≤ i.val
    · rw [if_pos low, if_pos low, List.getElem?_append_left (by omega)]
    · rw [if_neg low, if_neg low]

@[simp] theorem length_slice (d : Buffer n) (o k : Nat) : (d.slice o k).length = k := by
  simp [slice]

theorem slice_congr {d e : Buffer n} {o k : Nat}
    (h : ∀ j, j < k → d.get (o + j) = e.get (o + j)) : d.slice o k = e.slice o k := by
  simp only [slice]
  exact List.map_congr_left fun j hj => h j (List.mem_range.mp hj)

theorem slice_succ {d : Buffer n} {o k : Nat} : d.slice o (k + 1) = d.get o :: d.slice (o + 1) k := by
  simp only [slice, List.range_succ_eq_map, List.map_cons, List.map_map, Nat.add_zero]
  refine congrArg _ (List.map_congr_left fun j _ => ?_)
  rw [Function.comp_apply, Nat.add_assoc, Nat.add_comm 1]

theorem slice_add {d : Buffer n} {o j k : Nat} : d.slice o (j + k) = d.slice o j ++ d.slice (o + j) k := by
  simp only [slice, List.range_add, List.map_append, List.map_map]
  refine congrArg _ (List.map_congr_left fun x _ => ?_)
  rw [Function.comp_apply, Nat.add_assoc]

theorem slice_put_same {d : Buffer n} {o : Nat} {l : List UInt8} (fits : o + l.length ≤ n) :
    (d.put o l).slice o l.length = l := by
  apply List.ext_getElem (by simp)
  intro j hj hl
  simp only [slice, List.getElem_map, List.getElem_range]
  exact get_put_of_mem hl (by omega)

theorem slice_put_disjoint {d : Buffer n} {o : Nat} {l : List UInt8} {x k : Nat}
    (apart : x + k ≤ o ∨ o + l.length ≤ x) : (d.put o l).slice x k = d.slice x k :=
  slice_congr fun j hj => get_put_of_not_mem (by omega)

/-- A little-endian number of `k` bytes at an offset. -/
def num (d : Buffer n) (k o : Nat) : Nat := leValue (d.slice o k)

/-- Store a number in `k` bytes at an offset. -/
def putNum (d : Buffer n) (k o v : Nat) : Buffer n := d.put o (leBytes k v)

theorem num_putNum_same {d : Buffer n} {k o v : Nat} (fits : o + k ≤ n) (hv : v < 256 ^ k) :
    (d.putNum k o v).num k o = v := by
  have h := slice_put_same (d := d) (o := o) (l := leBytes k v) (by simpa using fits)
  rw [length_leBytes] at h
  rw [num, putNum, h, leValue_leBytes_of_lt hv]

theorem num_putNum_disjoint {d : Buffer n} {k o v j x : Nat}
    (apart : x + j ≤ o ∨ o + k ≤ x) : (d.putNum k o v).num j x = d.num j x := by
  rw [num, num, putNum, slice_put_disjoint (by simpa using apart)]

theorem num_lt (d : Buffer n) (k o : Nat) : d.num k o < 256 ^ k := by
  simpa [num] using leValue_lt (d.slice o k)

@[simp] theorem num_zero (k o : Nat) : (zero : Buffer n).num k o = 0 := by
  have h : ∀ l : List Nat, leValue (l.map fun _ => (0 : UInt8)) = 0 := by
    intro l
    induction l with
    | nil => rfl
    | cons a l ih => simpa [leValue] using ih
  simpa only [num, slice, get_zero] using h (List.range k)

/-- `f` stores at the offsets `W` bytes that do not depend on what the buffer held, and leaves the
other bytes alone. -/
structure Overwrites (f : Buffer n → Buffer n) (W : Nat → Prop) : Prop where
  inside : ∀ d e o, W o → (f d).get o = (f e).get o
  outside : ∀ d o, ¬ W o → (f d).get o = d.get o

theorem overwrites_put (o : Nat) (l : List UInt8) :
    Overwrites (fun d : Buffer n => d.put o l) fun x => o ≤ x ∧ x < o + l.length := by
  constructor
  · rintro d e x ⟨low, high⟩
    obtain ⟨j, rfl⟩ := Nat.exists_eq_add_of_le low
    by_cases fits : o + j < n
    · rw [get_put_of_mem (by omega) fits, get_put_of_mem (by omega) fits]
    · simp only [get, dif_neg fits]
  · intro d x away
    exact get_put_of_not_mem (by omega)

theorem overwrites_putNum (k o v : Nat) :
    Overwrites (fun d : Buffer n => d.putNum k o v) fun x => o ≤ x ∧ x < o + k := by
  simpa only [putNum, length_leBytes] using overwrites_put (n := n) o (leBytes k v)

theorem Overwrites.comp {f g : Buffer n → Buffer n} {V W : Nat → Prop} (hg : Overwrites g W)
    (hf : Overwrites f V) : Overwrites (fun d => g (f d)) fun x => V x ∨ W x := by
  constructor
  · intro d e x hx
    by_cases hW : W x
    · exact hg.inside _ _ x hW
    · rw [hg.outside _ x hW, hg.outside _ x hW]
      exact hf.inside d e x (hx.resolve_right hW)
  · intro d x hx
    rw [hg.outside _ x fun h => hx (.inr h), hf.outside _ x fun h => hx (.inl h)]

/-- What stays of the old contents is what lies outside `W`. -/
theorem Overwrites.blind_iff {f : Buffer n → Buffer n} {W : Nat → Prop} (h : Overwrites f W) :
    (∀ d e, f d = f e) ↔ ∀ o < n, W o := by
  constructor
  · intro blind o ho
    by_contra away
    have kept : (zero : Buffer n).get o = ((zero : Buffer n).put o [1]).get (o + 0) := by
      rw [Nat.add_zero, ← h.outside zero o away, ← h.outside (put zero o [1]) o away,
        blind zero (put zero o [1])]
    rw [get_zero, get_put_of_mem (Nat.zero_lt_one) ho] at kept
    exact absurd kept (by decide)
  · intro all d e
    exact Buffer.ext fun o ho => h.inside d e o (all o ho)

end Buffer

end Bytes
