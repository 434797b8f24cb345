import Xv6.Params

/-!
# User memory as the kernel copies it (`copyin`, `copyout`, `copyinstr` of `kernel/vm.c`)

A user address space is seen through `walkaddr`: for every page number either nothing, when
the page is not mapped for the user, or its bytes. Addresses are 64-bit.
-/

namespace Xv6.Fs

abbrev PGSIZE : Nat := 4096

/-- The pages `walkaddr` finds. -/
abbrev UMem : Type := Nat → Option (Nat → UInt8)

/-- `dstva = va0 + PGSIZE` -/
def nextPage (va : Nat) : Nat := (va / PGSIZE + 1) * PGSIZE % 2 ^ 64

/-- The bytes left on the page of `va`. -/
def pageRoom (va : Nat) : Nat := PGSIZE - va % PGSIZE

/-- `n` bytes of a page from address `va` on. -/
def pageBytes (pg : Nat → UInt8) (va n : Nat) : List UInt8 :=
  (List.range n).map fun j => pg (va % PGSIZE + j)

/-- The loop of `copyin` with `len` bytes to go: the bytes that reach the kernel, and whether
the copy succeeds. Every round copies at least one byte. -/
def copyinFrom (m : UMem) : Nat → Nat → Nat → List UInt8 × Bool
  | 0, _, _ => ([], true)
  | k + 1, va, len =>
    if len = 0 then ([], true)
    else
      match m (va / PGSIZE) with
      | none => ([], false)
      | some pg =>
        let n := min (pageRoom va) len
        let (rest, ok) := copyinFrom m k (nextPage va) (len - n)
        (pageBytes pg va n ++ rest, ok)

def copyin (m : UMem) (srcva len : Nat) : List UInt8 × Bool :=
  copyinFrom m len (srcva % 2 ^ 64) len

/-- Every byte of a range is mapped. -/
def UMem.Covers (m : UMem) (va len : Nat) : Prop :=
  ∀ j < len, m ((va + j) % 2 ^ 64 / PGSIZE) ≠ none

instance (m : UMem) (va len : Nat) : Decidable (m.Covers va len) :=
  inferInstanceAs (Decidable (∀ j < len, m ((va + j) % 2 ^ 64 / PGSIZE) ≠ none))

theorem UMem.covers_mod {m : UMem} {va len : Nat} : m.Covers (va % 2 ^ 64) len ↔ m.Covers va len := by
  simp only [UMem.Covers, Nat.mod_add_mod]

theorem copyinFrom_ok_iff {m : UMem} {k va len : Nat} (hk : len ≤ k) (hva : va < 2 ^ 64) :
    (copyinFrom m k va len).2 = true ↔ m.Covers va len := by
  induction k generalizing va len with
  | zero =>
    obtain rfl : len = 0 := by omega
    simp [copyinFrom, UMem.Covers]
  | succ k ih =>
    rw [copyinFrom]
    by_cases hlen : len = 0
    · simp [hlen, UMem.Covers]
    rw [if_neg hlen]
    cases hpg : m (va / PGSIZE) with
    | none =>
      refine iff_of_false nofun fun covers => covers 0 (by omega) ?_
      rw [Nat.add_zero, Nat.mod_eq_of_lt hva, hpg]
    | some pg =>
      have hroom : 0 < pageRoom va := Nat.sub_pos_of_lt (Nat.mod_lt _ (by decide))
      have hnext : nextPage va < 2 ^ 64 := Nat.mod_lt _ (by decide)
      have hsame : ∀ j < pageRoom va, (va + j) % 2 ^ 64 / PGSIZE = va / PGSIZE := by
        intro j hj
        simp only [pageRoom, PGSIZE] at hj ⊢
        omega
      have hthen : ∀ j, (va + (pageRoom va + j)) % 2 ^ 64 = (nextPage va + j) % 2 ^ 64 := by
        intro j
        simp only [pageRoom, nextPage, PGSIZE]
        omega
      refine (@ih (nextPage va) (len - min (pageRoom va) len) (by omega) hnext).trans ⟨?_, ?_⟩
      · intro rest j hj
        by_cases hin : j < pageRoom va
        · rw [hsame j hin, hpg]
          nofun
        · obtain ⟨j', rfl⟩ : ∃ j', j = pageRoom va + j' := ⟨j - pageRoom va, by omega⟩
          rw [hthen]
          exact rest j' (by omega)
      · intro covers j hj
        rw [← hthen]
        exact covers _ (by omega)

/-- `copyin` succeeds if the source is mapped. -/
theorem copyin_ok_iff {m : UMem} {va len : Nat} : (copyin m va len).2 = true ↔ m.Covers va len := by
  exact (copyinFrom_ok_iff (Nat.le_refl len) (Nat.mod_lt _ (by decide))).trans UMem.covers_mod

/-- The byte at an address, if it is mapped. -/
def UMem.byte (m : UMem) (a : Nat) : Option UInt8 := (m (a / PGSIZE)).map fun pg => pg (a % PGSIZE)

/-- The bytes of a range. -/
def UMem.bytes (m : UMem) (va n : Nat) : List UInt8 :=
  (List.range n).map fun j => (m.byte ((va + j) % 2 ^ 64)).getD 0

theorem UMem.bytes_add (m : UMem) (va a b : Nat) :
    m.bytes va (a + b) = m.bytes va a ++ m.bytes (va + a) b := by
  simp only [bytes, List.range_add, List.map_append, List.map_map, Function.comp_def, Nat.add_assoc]

theorem UMem.bytes_mod (m : UMem) (va n : Nat) : m.bytes (va % 2 ^ 64) n = m.bytes va n := by
  simp only [bytes, Nat.mod_add_mod]

@[simp] theorem UMem.length_bytes (m : UMem) (va n : Nat) : (m.bytes va n).length = n := by
  simp [bytes]

/-- The bytes left on a page. -/
theorem pageBytes_eq {m : UMem} {pg : Nat → UInt8} {va n : Nat} (hva : va < 2 ^ 64)
    (hpg : m (va / PGSIZE) = some pg) (hn : n ≤ pageRoom va) : pageBytes pg va n = m.bytes va n := by
  refine List.map_congr_left fun j hj => ?_
  rw [List.mem_range] at hj
  have small : va + j < 2 ^ 64 := by
    simp only [pageRoom, PGSIZE] at hn
    omega
  have page : (va + j) / PGSIZE = va / PGSIZE := by
    simp only [pageRoom, PGSIZE] at hn ⊢
    omega
  have offset : (va + j) % PGSIZE = va % PGSIZE + j := by
    simp only [pageRoom, PGSIZE] at hn ⊢
    omega
  rw [UMem.byte, Nat.mod_eq_of_lt small, page, hpg, offset]
  rfl

theorem copyinFrom_bytes {m : UMem} {k va len : Nat} (hk : len ≤ k) (hva : va < 2 ^ 64)
    (covers : m.Covers va len) : (copyinFrom m k va len).1 = m.bytes va len := by
  induction k generalizing va len with
  | zero =>
    obtain rfl : len = 0 := by omega
    rfl
  | succ k ih =>
    rw [copyinFrom]
    by_cases hlen : len = 0
    · simp [hlen, UMem.bytes]
    rw [if_neg hlen]
    cases hpg : m (va / PGSIZE) with
    | none =>
      have first := covers 0 (by omega)
      rw [Nat.add_zero, Nat.mod_eq_of_lt hva] at first
      exact absurd hpg first
    | some pg =>
      have hroom : 0 < pageRoom va := Nat.sub_pos_of_lt (Nat.mod_lt _ (by decide))
      have next : ∀ j, (nextPage va + j) % 2 ^ 64 = (va + pageRoom va + j) % 2 ^ 64 := by
        intro j
        simp only [pageRoom, nextPage, PGSIZE]
        omega
      have rest := @ih (nextPage va) (len - min (pageRoom va) len) (by omega)
        (Nat.mod_lt _ (by decide)) (by
          intro j hj
          rw [next, Nat.add_assoc]
          exact covers _ (by omega))
      show pageBytes pg va _ ++ (copyinFrom m k (nextPage va) _).1 = _
      rw [rest, pageBytes_eq hva hpg (Nat.min_le_left _ _)]
      by_cases short : len ≤ pageRoom va
      · rw [Nat.min_eq_right short, Nat.sub_self]
        simp [UMem.bytes]
      · rw [Nat.min_eq_left (by omega)]
        have shift : m.bytes (nextPage va) (len - pageRoom va) =
            m.bytes (va + pageRoom va) (len - pageRoom va) := by
          simp only [UMem.bytes, next]
        rw [shift, ← UMem.bytes_add, Nat.add_sub_cancel' (by omega)]

/-- `copyin` of a mapped range fetches its bytes. -/
theorem copyin_eq {m : UMem} {va len : Nat} (covers : m.Covers va len) :
    copyin m va len = (m.bytes va len, true) := by
  have bytes := copyinFrom_bytes (Nat.le_refl len) (Nat.mod_lt va (by decide)) (UMem.covers_mod.mpr covers)
  rw [UMem.bytes_mod] at bytes
  exact Prod.ext bytes (copyin_ok_iff.mpr covers)

/-- `copyin` copies something unless the first page of the source is not mapped. -/
theorem copyin_nil_iff {m : UMem} {va len : Nat} (hlen : 0 < len) :
    (copyin m va len).1 = [] ↔ m (va % 2 ^ 64 / PGSIZE) = none := by
  obtain ⟨k, rfl⟩ : ∃ k, len = k + 1 := ⟨len - 1, by omega⟩
  rw [copyin, copyinFrom, if_neg (by omega)]
  cases m (va % 2 ^ 64 / PGSIZE) with
  | none => simp
  | some pg =>
    have : 0 < min (pageRoom (va % 2 ^ 64)) (k + 1) :=
      lt_min (Nat.sub_pos_of_lt (Nat.mod_lt _ (by decide))) (by omega)
    refine iff_of_false (fun hnil => ?_) nofun
    have := (List.append_eq_nil_iff.mp hnil).1
    simp only [pageBytes, List.map_eq_nil_iff, List.range_eq_nil] at this
    omega

/-- Overwrite bytes of a page from address `va` on. -/
def putPage (pg : Nat → UInt8) (va : Nat) (l : List UInt8) : Nat → UInt8 := fun o =>
  if va % PGSIZE ≤ o then (l[o - va % PGSIZE]?).getD (pg o) else pg o

/-- The loop of `copyout`. -/
def copyoutFrom : Nat → UMem → Nat → List UInt8 → UMem × Bool
  | 0, m, _, _ => (m, true)
  | k + 1, m, va, src =>
    if src = [] then (m, true)
    else
      match m (va / PGSIZE) with
      | none => (m, false)
      | some pg =>
        let n := min (pageRoom va) src.length
        copyoutFrom k (Function.update m (va / PGSIZE) (some (putPage pg va (src.take n))))
          (nextPage va) (src.drop n)

def copyout (m : UMem) (dstva : Nat) (src : List UInt8) : UMem × Bool :=
  copyoutFrom src.length m dstva src

theorem byte_putPage {m : UMem} {pg : Nat → UInt8} {va : Nat} {l : List UInt8}
    (hpg : m (va / PGSIZE) = some pg) (room : l.length ≤ pageRoom va) (a : Nat) :
    UMem.byte (Function.update m (va / PGSIZE) (some (putPage pg va l))) a =
      if va ≤ a ∧ a < va + l.length then some (l.getD (a - va) 0) else m.byte a := by
  simp only [pageRoom, PGSIZE] at room
  by_cases page : a / PGSIZE = va / PGSIZE
  · rw [UMem.byte, UMem.byte, page, Function.update_self, hpg]
    simp only [Option.map_some, putPage, PGSIZE] at page ⊢
    by_cases inside : va ≤ a ∧ a < va + l.length
    · have index : a % 4096 - va % 4096 = a - va := by omega
      have mem : a - va < l.length := by omega
      rw [if_pos inside, if_pos (by omega), index, List.getElem?_eq_getElem mem]
      simp [mem]
    · rw [if_neg inside]
      by_cases low : va % 4096 ≤ a % 4096
      · rw [if_pos low, List.getElem?_eq_none (by omega)]
        rfl
      · rw [if_neg low]
  · rw [UMem.byte, Function.update_of_ne page, ← UMem.byte, if_neg]
    simp only [PGSIZE] at page
    omega

/-- How far an address lies behind `va`. -/
def dist (va a : Nat) : Nat := (a + (2 ^ 64 - va)) % 2 ^ 64

theorem dist_of_le {va a : Nat} (hva : va < 2 ^ 64) (ha : a < 2 ^ 64) :
    dist va a = if va ≤ a then a - va else a + 2 ^ 64 - va := by
  rw [dist]
  split <;> omega

/-- Distances from the next page. -/
theorem dist_nextPage {va a : Nat} (hva : va < 2 ^ 64) (ha : a < 2 ^ 64) :
    dist (nextPage va) a =
      if dist va a < pageRoom va then dist va a + 2 ^ 64 - pageRoom va
      else dist va a - pageRoom va := by
  have room : va + pageRoom va ≤ 2 ^ 64 := by
    simp only [pageRoom, PGSIZE]
    omega
  have next : nextPage va = if va + pageRoom va = 2 ^ 64 then 0 else va + pageRoom va := by
    by_cases last : va + pageRoom va = 2 ^ 64
    · rw [if_pos last]
      simp only [nextPage, pageRoom, PGSIZE] at *
      omega
    · rw [if_neg last]
      simp only [nextPage, pageRoom, PGSIZE] at *
      omega
  have small : nextPage va < 2 ^ 64 := Nat.mod_lt _ (by decide)
  have pos : 0 < pageRoom va := Nat.sub_pos_of_lt (Nat.mod_lt _ (by decide))
  rw [dist_of_le small ha, dist_of_le hva ha, next]
  split_ifs <;> omega

theorem UMem.Covers.update {m : UMem} {va len p : Nat} {pg : Nat → UInt8} (covers : m.Covers va len) :
    UMem.Covers (Function.update m p (some pg)) va len := by
  intro j hj
  by_cases e : (va + j) % 2 ^ 64 / PGSIZE = p
  · rw [e, Function.update_self]
    nofun
  · rw [Function.update_of_ne e]
    exact covers j hj

theorem copyoutFrom_ok {k va : Nat} {m : UMem} {src : List UInt8} (hk : src.length ≤ k)
    (hva : va < 2 ^ 64) (short : src.length ≤ 2 ^ 64) (covers : m.Covers va src.length) :
    (copyoutFrom k m va src).2 = true ∧ ∀ a, a < 2 ^ 64 → (copyoutFrom k m va src).1.byte a =
      if dist va a < src.length then some (src.getD (dist va a) 0) else m.byte a := by
  induction k generalizing m va src with
  | zero =>
    obtain rfl : src = [] := List.eq_nil_of_length_eq_zero (by omega)
    exact ⟨rfl, fun a _ => by simp [copyoutFrom]⟩
  | succ k ih =>
    rw [copyoutFrom]
    by_cases empty : src = []
    · subst empty
      exact ⟨rfl, fun a _ => by simp⟩
    rw [if_neg empty]
    have pos : 0 < src.length := List.length_pos_iff.mpr empty
    cases hpg : m (va / PGSIZE) with
    | none =>
      have first := covers 0 pos
      rw [Nat.add_zero, Nat.mod_eq_of_lt hva] at first
      exact absurd hpg first
    | some pg =>
      have hroom : 0 < pageRoom va := Nat.sub_pos_of_lt (Nat.mod_lt _ (by decide))
      have page := @byte_putPage m pg va (src.take (min (pageRoom va) src.length)) hpg
        (by rw [List.length_take]; omega)
      simp only [List.length_take, Nat.min_assoc, Nat.min_self] at page
      have rest := @ih (nextPage va)
        (Function.update m (va / PGSIZE)
          (some (putPage pg va (src.take (min (pageRoom va) src.length)))))
        (src.drop (min (pageRoom va) src.length)) (by rw [List.length_drop]; omega)
        (Nat.mod_lt _ (by decide)) (by rw [List.length_drop]; omega) (by
          refine UMem.Covers.update fun j hj => ?_
          rw [List.length_drop] at hj
          have : (nextPage va + j) % 2 ^ 64 = (va + (pageRoom va + j)) % 2 ^ 64 := by
            simp only [pageRoom, nextPage, PGSIZE]
            omega
          rw [this]
          exact covers _ (by omega))
      refine ⟨rest.1, fun a ha => (rest.2 a ha).trans ?_⟩
      have inside : va + pageRoom va ≤ 2 ^ 64 := by
        simp only [pageRoom, PGSIZE]
        omega
      have near : va ≤ a ∧ a < va + min (pageRoom va) src.length ↔
          dist va a < min (pageRoom va) src.length := by
        rw [dist_of_le hva ha]
        split <;> omega
      rw [page, dist_nextPage hva ha, List.length_drop]
      by_cases here : dist va a < pageRoom va
      · have index : a - va = dist va a := by
          have := dist_of_le hva ha
          by_cases behind : va ≤ a
          · rw [if_pos behind] at this
            omega
          · rw [if_neg behind] at this
            omega
        rw [if_pos here, if_neg (by omega), if_congr near rfl rfl]
        by_cases within : dist va a < src.length
        · rw [if_pos (lt_min here within), if_pos within, index]
          simp [within, here]
        · rw [if_neg (by omega), if_neg within]
      · rw [if_neg here, if_neg (fun h => absurd (near.mp h) (by omega))]
        by_cases within : dist va a < src.length
        · rw [if_pos (by omega), if_pos within, Nat.min_eq_left (by omega)]
          simp only [List.getD_eq_getElem?_getD, List.getElem?_drop]
          rw [Nat.add_sub_cancel' (by omega)]
        · rw [if_neg (by omega), if_neg within]

/-- `copyout` to a mapped range stores the bytes there and nowhere else. -/
theorem copyout_ok {va : Nat} {m : UMem} {src : List UInt8} (hva : va < 2 ^ 64)
    (short : src.length ≤ 2 ^ 64) (covers : m.Covers va src.length) :
    (copyout m va src).2 = true ∧ ∀ a, a < 2 ^ 64 → (copyout m va src).1.byte a =
      if dist va a < src.length then some (src.getD (dist va a) 0) else m.byte a :=
  copyoutFrom_ok le_rfl hva short covers

/-- `copyout` unmaps nothing. -/
theorem copyoutFrom_covers {k a va len : Nat} {m : UMem} {src : List UInt8} (covers : m.Covers va len) :
    (copyoutFrom k m a src).1.Covers va len := by
  induction k generalizing m a src with
  | zero => exact covers
  | succ k ih =>
    rw [copyoutFrom]
    split
    · exact covers
    · split
      · exact covers
      · exact ih covers.update

theorem UMem.Covers.copyout {a va len : Nat} {m : UMem} {src : List UInt8} (covers : m.Covers va len) :
    (copyout m a src).1.Covers va len := copyoutFrom_covers covers

/-- A byte of a mapped range. -/
theorem UMem.Covers.one {m : UMem} {va len j : Nat} (covers : m.Covers va len) (lt : j < len) :
    m.Covers (va + j) 1 := by
  intro i hi
  obtain rfl : i = 0 := by omega
  exact covers j lt

/-- The loop of `copyinstr`, byte by byte. -/
def copyinstrFrom (m : UMem) : Nat → Nat → Option (List UInt8)
  | 0, _ => none
  | max + 1, va =>
    match m (va / PGSIZE) with
    | none => none
    | some pg =>
      if pg (va % PGSIZE) = 0 then some []
      else (copyinstrFrom m max ((va + 1) % 2 ^ 64)).map (pg (va % PGSIZE) :: ·)

/-- The string at an address, if it ends within `max` bytes. -/
def copyinstr (m : UMem) (srcva max : Nat) : Option (List UInt8) := copyinstrFrom m max srcva

end Xv6.Fs
