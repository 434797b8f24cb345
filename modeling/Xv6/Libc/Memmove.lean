import Mathlib

/-!
# `memmove` in the kernel and in user programs (`kernel/string.c`, `user/ulib.c`)

The two versions choose the direction of the copy by different tests. Addresses have 64 bits.
-/

namespace Xv6

/-- The bytes of an address space. -/
abbrev Memory : Type := Nat → UInt8

namespace Libc

/-- A pointer moved by an offset. -/
def addPtr (p : Nat) (n : Int) : Nat := ((p + n) % 2 ^ 64).toNat

/-- `while(n-- > 0) *d++ = *s++;` -/
def copyUp : Nat → (d s : Nat) → Memory → Memory
  | 0, _, _, m => m
  | n + 1, d, s, m => copyUp n (addPtr d 1) (addPtr s 1) (Function.update m d (m s))

/-- `while(n-- > 0) *--d = *--s;` -/
def copyDown : Nat → (d s : Nat) → Memory → Memory
  | 0, _, _, m => m
  | n + 1, d, s, m =>
    copyDown n (addPtr d (-1)) (addPtr s (-1)) (Function.update m (addPtr d (-1)) (m (addPtr s (-1))))

end Libc

namespace Kernel

open Libc

/-- `memmove` of the kernel with its result; `n` is a `uint`. -/
def memmove (dst src n : Nat) (m : Memory) : Nat × Memory :=
  if n = 0 then (dst, m)
  else if src < dst ∧ dst < addPtr src n then (dst, copyDown n (addPtr dst n) (addPtr src n) m)
  else (dst, copyUp n dst src m)

end Kernel

namespace Ulib

open Libc

/-- `memmove` of user programs with its result; `n` is an `int`. -/
def memmove (dst src : Nat) (n : Int) (m : Memory) : Nat × Memory :=
  if dst < src then (dst, copyUp n.toNat dst src m)
  else (dst, copyDown n.toNat (addPtr dst n) (addPtr src n) m)

end Ulib

namespace Libc

/-! ## The loops -/

/-- The old bytes from `src` on are at `dst`, and nothing else has changed. -/
structure Moved (dst src n : Nat) (m m' : Memory) : Prop where
  copied : ∀ i, i < n → m' (dst + i) = m (src + i)
  rest : ∀ a, a < dst ∨ dst + n ≤ a → m' a = m a

section Loops

variable {d s n : Nat} {m m' m'' : Memory}

theorem Moved.zero : Moved d s 0 m m := ⟨fun _ h => absurd h (Nat.not_lt_zero _), fun _ _ => rfl⟩

/-- The result is determined. -/
theorem Moved.unique (h : Moved d s n m m') (h' : Moved d s n m m'') : m' = m'' := by
  funext a
  by_cases inside : a < d ∨ d + n ≤ a
  · rw [h.rest a inside, h'.rest a inside]
  · obtain ⟨i, rfl⟩ : ∃ i, a = d + i := ⟨a - d, by omega⟩
    rw [h.copied i (by omega), h'.copied i (by omega)]

theorem addPtr_of_lt (h : d + n < 2 ^ 64) : addPtr d n = d + n := by
  simp only [addPtr]
  omega

/-- One step back from the end of a range, which may be the end of the address space. -/
theorem addPtr_back : addPtr (addPtr d (n + 1 : Nat)) (-1) = addPtr d n := by
  simp only [addPtr]
  omega

/-- The first byte is copied, then the others: no source byte of those may be the one just written. -/
theorem Moved.first (up : d ≤ s ∨ s + (n + 1) ≤ d)
    (h : Moved (d + 1) (s + 1) n (Function.update m d (m s)) m') : Moved d s (n + 1) m m' := by
  constructor
  · intro i hi
    cases i with
    | zero => rw [Nat.add_zero, h.rest d (by omega), Function.update_self, Nat.add_zero]
    | succ i =>
      have next := h.copied i (by omega)
      rw [Function.update_of_ne (by omega)] at next
      rwa [Nat.add_right_comm, Nat.add_assoc, Nat.add_right_comm s, Nat.add_assoc s] at next
  · intro a out
    rw [h.rest a (by omega), Function.update_of_ne (by omega)]

/-- The last byte is copied, then the others. -/
theorem Moved.last (down : s ≤ d ∨ d + (n + 1) ≤ s)
    (h : Moved d s n (Function.update m (d + n) (m (s + n))) m') : Moved d s (n + 1) m m' := by
  constructor
  · intro i hi
    by_cases e : i = n
    · subst e
      rw [h.rest (d + i) (by omega), Function.update_self]
    · rw [h.copied i (by omega), Function.update_of_ne (by omega)]
  · intro a out
    rw [h.rest a (by omega), Function.update_of_ne (by omega)]

theorem copyUp_moved (hd : d + n ≤ 2 ^ 64) (hs : s + n ≤ 2 ^ 64) (up : d ≤ s ∨ s + n ≤ d) :
    Moved d s n m (copyUp n d s m) := by
  induction n generalizing d s m with
  | zero => exact .zero
  | succ n ih =>
    refine .first up ?_
    rw [copyUp]
    cases n with
    | zero => exact .zero
    | succ n =>
      have next : addPtr d 1 = d + 1 ∧ addPtr s 1 = s + 1 := by
        simp only [addPtr]
        omega
      rw [next.1, next.2]
      exact ih (by omega) (by omega) (by omega)

theorem copyDown_moved (hd : d + n ≤ 2 ^ 64) (hs : s + n ≤ 2 ^ 64) (down : s ≤ d ∨ d + n ≤ s) :
    Moved d s n m (copyDown n (addPtr d n) (addPtr s n) m) := by
  induction n generalizing m with
  | zero => exact .zero
  | succ n ih =>
    refine .last down ?_
    rw [copyDown, addPtr_back, addPtr_back, addPtr_of_lt hd, addPtr_of_lt hs]
    have rest := ih (m := Function.update m (d + n) (m (s + n))) (by omega) (by omega) (by omega)
    rwa [addPtr_of_lt hd, addPtr_of_lt hs] at rest

end Loops

end Libc

open Libc

/-! ## The two versions -/

theorem Kernel.memmove_moved {dst src n : Nat} (m : Memory) (hd : dst + n ≤ 2 ^ 64) (hs : src + n ≤ 2 ^ 64) :
    Moved dst src n m (Kernel.memmove dst src n m).2 := by
  rw [Kernel.memmove]
  split_ifs with none overlap
  · subst none
    exact .zero
  · exact copyDown_moved hd hs (by omega)
  · refine copyUp_moved hd hs ?_
    -- the end of the source may be the end of the address space, but then the destination is not behind it
    by_contra both
    refine overlap ⟨by omega, ?_⟩
    rw [addPtr_of_lt (by omega)]
    omega

theorem Ulib.memmove_moved {dst src : Nat} {n : Int} (m : Memory) (hd : dst + n.toNat ≤ 2 ^ 64)
    (hs : src + n.toNat ≤ 2 ^ 64) : Moved dst src n.toNat m (Ulib.memmove dst src n m).2 := by
  rw [Ulib.memmove]
  split_ifs with above
  · exact copyUp_moved hd hs (by omega)
  · by_cases negative : n < 0
    · rw [Int.toNat_of_nonpos (by omega)]
      exact .zero
    · obtain ⟨k, rfl⟩ := Int.eq_ofNat_of_zero_le (Int.not_lt.mp negative)
      rw [Int.toNat_natCast] at hd hs ⊢
      exact copyDown_moved hd hs (by omega)

/-- Both versions move every range that does not wrap, however it overlaps, and so they agree. -/
theorem memmove_overlap (dst src : Nat) (n : Int) (m : Memory) (hd : dst + n.toNat ≤ 2 ^ 64)
    (hs : src + n.toNat ≤ 2 ^ 64) :
    Moved dst src n.toNat m (Kernel.memmove dst src n.toNat m).2 ∧
      Moved dst src n.toNat m (Ulib.memmove dst src n m).2 ∧
      Kernel.memmove dst src n.toNat m = Ulib.memmove dst src n m := by
  have kernel := Kernel.memmove_moved m hd hs
  have user := Ulib.memmove_moved m hd hs
  refine ⟨kernel, user, Prod.ext ?_ (kernel.unique user)⟩
  simp only [Kernel.memmove, Ulib.memmove]
  split_ifs <;> rfl

/-- Three bytes are moved up by one, at the end of the address space. -/
theorem memmove_overlap_top :
    Moved (2 ^ 64 - 3) (2 ^ 64 - 4) 3 (fun a => UInt8.ofNat a)
      (Kernel.memmove (2 ^ 64 - 3) (2 ^ 64 - 4) 3 fun a => UInt8.ofNat a).2 :=
  (memmove_overlap (2 ^ 64 - 3) (2 ^ 64 - 4) 3 (fun a => UInt8.ofNat a) (by decide) (by decide)).1

end Xv6
