import Xv6.Vm.Walk

/-!
# Copies between the kernel and a user (`kernel/vm.c`, `kernel/syscall.c`)

`m.phys r a` is where the page table with root `r` maps the user address `a`, for any memory `m` and
any page `r`. The loops of `copyin`, `copyout` and `copyinstr` go from page to page; their results
are stated address by address.
-/

namespace Xv6.Vm

open Bytes Fallible Radix
open Xv6.Fs (PGSIZE pageRoom nextPage)

def Mem.byte (m : Mem) (a : Nat) : UInt8 := (m.page (a / PGSIZE)).get (a % PGSIZE)

/-- The bytes at a physical address. -/
def Mem.bytes (m : Mem) (a n : Nat) : List UInt8 := (m.page (a / PGSIZE)).slice (a % PGSIZE) n

def load8 (a : Nat) : Code UInt8 := fun m => .ok (m.byte a, m)

/-- `memmove(dst, src, n)` from a physical address -/
def load (src n : Nat) : Code (List UInt8) := fun m => .ok (m.bytes src n, m)

/-- The loop of `copyin`: the bytes that reach `dst`, and the result. Every round copies at least one
byte. -/
def copyinFrom (pagetable : Nat) : (rounds srcva len : Nat) → Code (List UInt8 × Int)
  | 0, _, _ => return ([], 0)
  | rounds + 1, srcva, len =>
    if len = 0 then return ([], 0)
    else do
      let va0 := pgrounddown srcva
      let pa0 ← walkaddr pagetable va0
      if pa0 = 0 then return ([], -1)
      else do
        let n := min (PGSIZE - (srcva - va0)) len
        let bytes ← load (pa0 + (srcva - va0)) n
        let (rest, r) ← copyinFrom pagetable rounds ((va0 + PGSIZE) % 2 ^ 64) (len - n)
        return (bytes ++ rest, r)

def copyin (pagetable srcva len : Nat) : Code (List UInt8 × Int) :=
  copyinFrom pagetable len srcva len

/-! ## Addresses -/

section Addresses

variable {m m' : Mem} {r va k : Nat}

/-- Where the table with root `r` maps the user address `a`: the page of `a` is below `MAXVA`, and
mapped with `PTE_V` and `PTE_U` to a page other than 0. -/
def Mem.phys (m : Mem) (r a : Nat) : Option Nat :=
  match m.tr r (a / PGSIZE) with
  | none => none
  | some (pa, flags) => if flags &&& PTE_U ≠ 0 ∧ pa ≠ 0 then some (pa + a % PGSIZE) else none

theorem tr_aligned {pa flags : Nat} (h : m.tr r k = some (pa, flags)) : pa % PGSIZE = 0 := by
  rw [Mem.tr] at h
  split at h
  · obtain ⟨p, -, entry⟩ := Option.bind_eq_some_iff.mp h
    rw [leaf] at entry
    split at entry
    · obtain ⟨rfl, -⟩ := Prod.mk.inj (Option.some.inj entry)
      rw [← pte2pa_base]
      exact base_mod
    · cases entry
  · cases h

/-- What `walkaddr` answers for the page of an address. -/
theorem userAddr_phys : m.phys r va =
    if userAddr (m.tr r (va / PGSIZE)) = 0 then none else some (userAddr (m.tr r (va / PGSIZE)) + va % PGSIZE) := by
  rw [Mem.phys]
  cases m.tr r (va / PGSIZE) with
  | none => rfl
  | some t =>
    obtain ⟨pa, flags⟩ := t
    by_cases user : flags &&& PTE_U = 0
    · simp [userAddr, user]
    · by_cases null : pa = 0
      · simp [userAddr, user, null]
      · simp [userAddr, user, null]

/-- An address and the others on its page. -/
theorem phys_page {a j : Nat} (h : m.phys r va = some a) (hj : j < pageRoom va) :
    m.phys r (va + j) = some (a + j) ∧ a % PGSIZE = va % PGSIZE := by
  have page : (va + j) / PGSIZE = va / PGSIZE := by
    simp only [pageRoom, PGSIZE] at hj ⊢
    omega
  have offset : (va + j) % PGSIZE = va % PGSIZE + j := by
    simp only [pageRoom, PGSIZE] at hj ⊢
    omega
  rw [Mem.phys] at h ⊢
  rw [page, offset]
  cases entry : m.tr r (va / PGSIZE) with
  | none =>
    rw [entry] at h
    cases h
  | some t =>
    obtain ⟨pa, flags⟩ := t
    have aligned := tr_aligned entry
    rw [entry] at h
    dsimp only at h ⊢
    split at h
    · obtain rfl := Option.some.inj h
      rw [if_pos ‹_›]
      refine ⟨by rw [Nat.add_assoc], ?_⟩
      simp only [PGSIZE] at aligned ⊢
      omega
    · cases h

end Addresses

/-! ## The mapped part of a range -/

/-- The first `good` of the `len` bytes from `va` on are mapped, and if these are not all then the next
one is not. -/
structure Mem.Mapped (m : Mem) (r va len good : Nat) : Prop where
  le : good ≤ len
  mapped : ∀ i < good, m.phys r ((va + i) % 2 ^ 64) ≠ none
  stops : good < len → m.phys r ((va + good) % 2 ^ 64) = none

section Mapped

variable {m : Mem} {r va len good : Nat}

theorem Mem.mapped_exists (m : Mem) (r va len : Nat) : ∃ good, m.Mapped r va len good := by
  induction len with
  | zero => exact ⟨0, le_rfl, nofun, nofun⟩
  | succ len ih =>
    obtain ⟨good, h⟩ := ih
    by_cases all : good = len ∧ m.phys r ((va + len) % 2 ^ 64) ≠ none
    · obtain ⟨rfl, next⟩ := all
      refine ⟨good + 1, le_rfl, fun i hi => ?_, fun less => absurd less (lt_irrefl _)⟩
      rcases Nat.lt_succ_iff_lt_or_eq.mp hi with lt | rfl
      · exact h.mapped i lt
      · exact next
    · refine ⟨good, h.le.trans (Nat.le_succ len), h.mapped, fun _ => ?_⟩
      by_cases less : good < len
      · exact h.stops less
      · have last : good = len := le_antisymm h.le (not_lt.mp less)
        rw [not_and, not_not] at all
        rw [last]
        exact all last

/-- All is mapped exactly if nothing is missing. -/
theorem Mem.Mapped.all_iff (h : m.Mapped r va len good) :
    good = len ↔ ∀ i < len, m.phys r ((va + i) % 2 ^ 64) ≠ none := by
  constructor
  · rintro rfl
    exact h.mapped
  · intro all
    by_contra less
    have lt := lt_of_le_of_ne h.le less
    exact all good lt (h.stops lt)

theorem Mem.Mapped.eq_zero (h : m.Mapped r va len good) (hva : va < 2 ^ 64) (none : m.phys r va = none) :
    good = 0 := by
  by_contra pos
  have first := h.mapped 0 (Nat.pos_of_ne_zero pos)
  rw [Nat.add_zero, Nat.mod_eq_of_lt hva] at first
  exact first none

theorem same_page {j : Nat} (hva : va < 2 ^ 64) (hj : j < pageRoom va) : (va + j) % 2 ^ 64 = va + j := by
  simp only [pageRoom, PGSIZE] at hj
  omega

theorem nextPage_lt (va : Nat) : nextPage va < 2 ^ 64 := Nat.mod_lt _ (by decide)

theorem pageRoom_pos (va : Nat) : 0 < pageRoom va := Nat.sub_pos_of_lt (Nat.mod_lt _ (by decide))

theorem next_page (va j : Nat) : (nextPage va + j) % 2 ^ 64 = (va + (pageRoom va + j)) % 2 ^ 64 := by
  simp only [pageRoom, nextPage, PGSIZE]
  omega

/-- The page of a mapped address is in the mapped part, which goes on with the next page. -/
theorem Mem.Mapped.page {a : Nat} (h : m.Mapped r va len good) (hva : va < 2 ^ 64) (first : m.phys r va = some a) :
    min (pageRoom va) len ≤ good ∧
      m.Mapped r (nextPage va) (len - min (pageRoom va) len) (good - min (pageRoom va) len) := by
  have here : min (pageRoom va) len ≤ good := by
    by_contra less
    rw [not_le, lt_min_iff] at less
    have stops := h.stops less.2
    rw [same_page hva less.1, (phys_page first less.1).1] at stops
    cases stops
  have le := h.le
  refine ⟨here, by omega, fun i hi => ?_, fun less => ?_⟩
  · rw [next_page]
    exact h.mapped _ (by omega)
  · rw [next_page]
    have more : pageRoom va + (good - min (pageRoom va) len) = good := by omega
    rw [more]
    exact h.stops (by omega)

end Mapped

/-! ## `copyin` -/

/-- The byte at a user address, if it is mapped. -/
def Mem.userByte (m : Mem) (r a : Nat) : Option UInt8 := (m.phys r a).map m.byte

/-- The bytes of a mapped range. -/
def Mem.userBytes (m : Mem) (r va n : Nat) : List UInt8 :=
  (List.range n).map fun i => (m.userByte r ((va + i) % 2 ^ 64)).getD 0

section Copyin

variable {m : Mem} {r va len good rounds : Nat}

theorem userBytes_add (m : Mem) (r va a b : Nat) :
    m.userBytes r va (a + b) = m.userBytes r va a ++ m.userBytes r (va + a) b := by
  simp only [Mem.userBytes, List.range_add, List.map_append, List.map_map, Function.comp_def, Nat.add_assoc]

theorem userBytes_next (m : Mem) (r va n : Nat) :
    m.userBytes r (nextPage va) n = m.userBytes r (va + pageRoom va) n := by
  simp only [Mem.userBytes, next_page, Nat.add_assoc]

/-- The bytes of one page. -/
theorem bytes_page {a n : Nat} (hva : va < 2 ^ 64) (first : m.phys r va = some a) (hn : n ≤ pageRoom va) :
    m.bytes a n = m.userBytes r va n := by
  refine List.map_congr_left fun j hj => ?_
  have lt : j < pageRoom va := (List.mem_range.mp hj).trans_le hn
  obtain ⟨next, offset⟩ := phys_page first lt
  have page : (a + j) / PGSIZE = a / PGSIZE ∧ (a + j) % PGSIZE = a % PGSIZE + j := by
    simp only [pageRoom, PGSIZE] at lt offset ⊢
    omega
  rw [same_page hva lt, Mem.userByte, next, Option.map_some, Option.getD_some, Mem.byte, page.1, page.2]

theorem sub_pgrounddown (va : Nat) : va - pgrounddown va = va % PGSIZE := by
  simp only [pgrounddown, PGSIZE]
  omega

theorem pgrounddown_add (va : Nat) : (pgrounddown va + PGSIZE) % 2 ^ 64 = nextPage va := by
  simp only [pgrounddown, nextPage, PGSIZE]
  omega

theorem pgrounddown_div (va : Nat) : pgrounddown va / PGSIZE = va / PGSIZE := base_div

/-- The answer of `walkaddr` for the page of an unmapped address. -/
theorem userAddr_of_none (h : m.phys r va = none) : userAddr (m.tr r (va / PGSIZE)) = 0 := by
  rw [userAddr_phys] at h
  by_contra nonzero
  rw [if_neg nonzero] at h
  cases h

/-- The answer of `walkaddr` for the page of a mapped address. -/
theorem userAddr_of_some {a : Nat} (h : m.phys r va = some a) :
    userAddr (m.tr r (va / PGSIZE)) ≠ 0 ∧ userAddr (m.tr r (va / PGSIZE)) + va % PGSIZE = a := by
  rw [userAddr_phys] at h
  by_cases zero : userAddr (m.tr r (va / PGSIZE)) = 0
  · rw [if_pos zero] at h
    cases h
  · rw [if_neg zero] at h
    exact ⟨zero, Option.some.inj h⟩

theorem copyinFrom_none (pos : len ≠ 0) (h : m.phys r va = none) :
    copyinFrom (r * PGSIZE) (rounds + 1) va len m = .ok (([], -1), m) := by
  rw [copyinFrom, if_neg pos, bind_ok walkaddr_eq, pgrounddown_div, if_pos (userAddr_of_none h)]
  rfl

theorem copyinFrom_some {a : Nat} (pos : len ≠ 0) (h : m.phys r va = some a) :
    copyinFrom (r * PGSIZE) (rounds + 1) va len m =
      (copyinFrom (r * PGSIZE) rounds (nextPage va) (len - min (pageRoom va) len) >>= fun x =>
        pure (m.bytes a (min (pageRoom va) len) ++ x.1, x.2)) m := by
  obtain ⟨nonzero, rfl⟩ := userAddr_of_some h
  rw [copyinFrom, if_neg pos, bind_ok walkaddr_eq, pgrounddown_div, if_neg nonzero]
  rw [sub_pgrounddown, pgrounddown_add, pageRoom]
  rfl

theorem copyinFrom_eq (hk : len ≤ rounds) (hva : va < 2 ^ 64) (h : m.Mapped r va len good) :
    copyinFrom (r * PGSIZE) rounds va len m = .ok ((m.userBytes r va good, if good = len then 0 else -1), m) := by
  induction rounds generalizing va len good with
  | zero =>
    obtain rfl : len = 0 := by omega
    obtain rfl : good = 0 := Nat.le_zero.mp h.le
    rfl
  | succ rounds ih =>
    by_cases empty : len = 0
    · subst empty
      obtain rfl : good = 0 := Nat.le_zero.mp h.le
      rw [copyinFrom, if_pos rfl]
      rfl
    cases first : m.phys r va with
    | none =>
      obtain rfl := h.eq_zero hva first
      rw [copyinFrom_none empty first, if_neg (Ne.symm empty)]
      rfl
    | some a =>
      obtain ⟨here, rest⟩ := h.page hva first
      have room := pageRoom_pos va
      have le := h.le
      have next := ih (by omega) (nextPage_lt va) rest
      rw [copyinFrom_some empty first, bind_ok next, bytes_page hva first (Nat.min_le_left _ _)]
      have bytes : m.userBytes r va good = m.userBytes r va (min (pageRoom va) len) ++
          m.userBytes r (nextPage va) (good - min (pageRoom va) len) := by
        by_cases short : len ≤ pageRoom va
        · have all : good = len := by omega
          rw [all, Nat.min_eq_right short, Nat.sub_self]
          exact (List.append_nil _).symm
        · rw [Nat.min_eq_left (by omega)] at here ⊢
          rw [userBytes_next, ← userBytes_add, Nat.add_sub_cancel' here]
      rw [bytes, if_congr (show good - min (pageRoom va) len = len - min (pageRoom va) len ↔ good = len by omega) rfl rfl]
      rfl

end Copyin

/-! ## `copyout` -/

/-- The pages that hold the tables under the root `r`. -/
abbrev Mem.tables (m : Mem) (r : Nat) : Set Nat := Nodes below m.entry r 2

/-- Store bytes one by one, each where `m₀` maps its address. -/
def Mem.putUser (m₀ : Mem) (r : Nat) : (m : Mem) → (va : Nat) → List UInt8 → Mem
  | m, _, [] => m
  | m, va, b :: l =>
    match m₀.phys r va with
    | none => m₀.putUser r m ((va + 1) % 2 ^ 64) l
    | some a => m₀.putUser r (m.put a [b]) ((va + 1) % 2 ^ 64) l

section Copyout

variable {m₀ m m' : Mem} {r va good rounds a : Nat} {src l l' : List UInt8}

theorem put_nil : m.put a [] = m := by
  rw [Mem.put, Buffer.put_nil, Function.update_eq_self]

theorem put_cons {b : UInt8} (room : a % PGSIZE + (l.length + 1) ≤ PGSIZE) :
    m.put a (b :: l) = (m.put a [b]).put (a + 1) l := by
  cases l with
  | nil => rw [put_nil]
  | cons c l =>
    have page : (a + 1) / PGSIZE = a / PGSIZE ∧ (a + 1) % PGSIZE = a % PGSIZE + 1 := by
      simp only [PGSIZE, List.length_cons] at room ⊢
      omega
    simp only [Mem.put, page.1, page.2, Function.update_self, Function.update_idem]
    have joined := Buffer.put_put (m.page (a / PGSIZE)) (a % PGSIZE) [b] (c :: l)
    exact congrArg (fun pg => ({ m with page := Function.update m.page (a / PGSIZE) pg } : Mem)) joined.symm

theorem putUser_append (hva : va < 2 ^ 64) : m₀.putUser r m va (l ++ l') =
    m₀.putUser r (m₀.putUser r m va l) ((va + l.length) % 2 ^ 64) l' := by
  induction l generalizing m va with
  | nil =>
    rw [List.nil_append, List.length_nil, Nat.add_zero, Nat.mod_eq_of_lt hva]
    rfl
  | cons b l ih =>
    have next : ((va + 1) % 2 ^ 64 + l.length) % 2 ^ 64 = (va + (b :: l).length) % 2 ^ 64 := by
      rw [List.length_cons]
      omega
    rw [List.cons_append, Mem.putUser, Mem.putUser]
    split
    · rw [ih (Nat.mod_lt _ (by decide)), next]
    · rw [ih (Nat.mod_lt _ (by decide)), next]

/-- On one page the bytes are stored together. -/
theorem putUser_page (hva : va < 2 ^ 64) (first : m₀.phys r va = some a) (room : l.length ≤ pageRoom va) :
    m₀.putUser r m va l = m.put a l := by
  induction l generalizing m va a with
  | nil => exact put_nil.symm
  | cons b l ih =>
    obtain ⟨-, offset⟩ := phys_page first (pageRoom_pos va)
    rw [List.length_cons] at room
    rw [put_cons (by simp only [pageRoom, PGSIZE] at room offset ⊢; omega), Mem.putUser, first]
    cases l with
    | nil => exact put_nil.symm
    | cons c l =>
      have more : 1 < pageRoom va := by
        rw [List.length_cons] at room
        omega
      obtain ⟨next, -⟩ := phys_page first more
      rw [same_page hva more]
      refine ih ?_ next ?_
      · exact same_page hva more ▸ Nat.mod_lt _ (by decide)
      · simp only [pageRoom, PGSIZE] at room more ⊢
        omega

/-- No byte of the range is mapped to a page of the table. -/
def Mem.Apart (m : Mem) (r va len : Nat) : Prop :=
  ∀ i < len, ∀ a, m.phys r ((va + i) % 2 ^ 64) = some a → a / PGSIZE ∉ m.tables r

theorem phys_congr (same : ∀ p ∈ m₀.tables r, m.page p = m₀.page p) (va : Nat) : m.phys r va = m₀.phys r va := by
  rw [Mem.phys, Mem.phys, tr_congr same]

theorem copyoutFrom_none (pos : src ≠ []) (h : m.phys r va = none) :
    copyoutFrom (r * PGSIZE) (rounds + 1) va src m = .ok (-1, m) := by
  rw [copyoutFrom, if_neg pos, bind_ok walkaddr_eq, pgrounddown_div, if_pos (userAddr_of_none h)]
  rfl

theorem copyoutFrom_some (pos : src ≠ []) (h : m.phys r va = some a) :
    copyoutFrom (r * PGSIZE) (rounds + 1) va src m =
      copyoutFrom (r * PGSIZE) rounds (nextPage va) (src.drop (min (pageRoom va) src.length))
        (m.put a (src.take (min (pageRoom va) src.length))) := by
  obtain ⟨nonzero, rfl⟩ := userAddr_of_some h
  rw [copyoutFrom, if_neg pos, bind_ok walkaddr_eq, pgrounddown_div, if_neg nonzero]
  rw [sub_pgrounddown, pgrounddown_add, pageRoom]
  rfl

theorem put_page_ne {p : Nat} (other : p ≠ a / PGSIZE) : (m.put a l).page p = m.page p :=
  Function.update_of_ne other ..

/-- The tables stay as they were in `m₀`, since every page that is written lies apart from them. -/
theorem copyoutFrom_eq (hk : src.length ≤ rounds) (hva : va < 2 ^ 64) (h : m₀.Mapped r va src.length good)
    (apart : m₀.Apart r va src.length) (same : ∀ p ∈ m₀.tables r, m.page p = m₀.page p) :
    copyoutFrom (r * PGSIZE) rounds va src m =
      .ok (if good = src.length then 0 else -1, m₀.putUser r m va (src.take good)) := by
  induction rounds generalizing va src good m with
  | zero =>
    obtain rfl : src = [] := List.eq_nil_of_length_eq_zero (by omega)
    obtain rfl : good = 0 := Nat.le_zero.mp h.le
    rfl
  | succ rounds ih =>
    by_cases empty : src = []
    · subst empty
      obtain rfl : good = 0 := Nat.le_zero.mp h.le
      rw [copyoutFrom, if_pos rfl]
      rfl
    have pos : 0 < src.length := List.length_pos_iff.mpr empty
    cases first : m₀.phys r va with
    | none =>
      obtain rfl := h.eq_zero hva first
      rw [copyoutFrom_none empty ((phys_congr same va).trans first), if_neg pos.ne]
      rfl
    | some a =>
      obtain ⟨here, rest⟩ := h.page hva first
      have room := pageRoom_pos va
      have le := h.le
      rw [copyoutFrom_some empty ((phys_congr same va).trans first)]
      have away : a / PGSIZE ∉ m₀.tables r := by
        apply apart 0 pos
        rw [Nat.add_zero, Nat.mod_eq_of_lt hva, first]
      set n := min (pageRoom va) src.length with hn
      have length : (src.drop n).length = src.length - n := List.length_drop
      rw [← length] at rest
      rw [ih (by omega) (nextPage_lt va) rest ?_ ?_, length]
      · have pages : src.take good = src.take n ++ (src.drop n).take (good - n) := by
          rw [← List.take_add, Nat.add_sub_cancel' here]
        have taken : (src.take n).length = n := by
          rw [List.length_take]
          omega
        have stored : m₀.putUser r m va (src.take good) =
            m₀.putUser r (m.put a (src.take n)) (nextPage va) ((src.drop n).take (good - n)) := by
          rw [pages, putUser_append hva, putUser_page hva first (by omega), taken]
          by_cases short : src.length ≤ pageRoom va
          · have all : n = src.length := by omega
            rw [all, List.drop_length, List.take_nil]
            rfl
          · have next := next_page va 0
            rw [Nat.add_zero, Nat.add_zero, Nat.mod_eq_of_lt (nextPage_lt va)] at next
            rw [next, show n = pageRoom va by omega]
        rw [stored, if_congr (show good - n = src.length - n ↔ good = src.length by omega) rfl rfl]
      · intro i hi b at_b
        rw [next_page] at at_b
        exact apart _ (by omega) b at_b
      · intro p hp
        rw [put_page_ne (fun e => away (e ▸ hp)), same p hp]

end Copyout

/-- `copyin` and `copyout` do what a loop over the single bytes does: they return 0 exactly if the whole
range is mapped, and otherwise -1 after the bytes before the first page that is not. The page that a
byte is stored to must not be one of the tables that say where the bytes after it go. -/
theorem user_copies_bytewise (m : Mem) (r va len : Nat) (hva : va < 2 ^ 64) :
    ∃ good, m.Mapped r va len good ∧ (good = len ↔ ∀ i < len, m.phys r ((va + i) % 2 ^ 64) ≠ none) ∧
      (∃ bytes : List UInt8, bytes.length = good ∧ (∀ i < good, bytes[i]? = m.userByte r ((va + i) % 2 ^ 64)) ∧
        copyin (r * PGSIZE) va len m = .ok ((bytes, if good = len then 0 else -1), m)) ∧
      ∀ src : List UInt8, src.length = len → m.Apart r va len →
        copyout (r * PGSIZE) va src m = .ok (if good = len then 0 else -1, m.putUser r m va (src.take good)) := by
  obtain ⟨good, h⟩ := m.mapped_exists r va len
  refine ⟨good, h, h.all_iff, ⟨m.userBytes r va good, ?_, ?_, copyinFrom_eq le_rfl hva h⟩, ?_⟩
  · rw [Mem.userBytes, List.length_map, List.length_range]
  · intro i hi
    obtain ⟨a, at_a⟩ := Option.ne_none_iff_exists'.mp (h.mapped i hi)
    rw [Mem.userBytes, List.getElem?_map, List.getElem?_range hi, Option.map_some, Mem.userByte, at_a]
    rfl
  · rintro src rfl apart
    exact copyoutFrom_eq le_rfl hva h apart fun _ _ => rfl

/-- A table in the pages 1, 2 and 3 that maps the virtual page `k` to the page `p`. -/
def mapsOne (k : Fin 512) (p : Nat) : Mem :=
  let m : Mem := ⟨fun _ => Buffer.zero, 0⟩
  let m := m.put64 (1 * PGSIZE + 8 * (0 : Fin 512)) (pa2pte (2 * PGSIZE) ||| PTE_V)
  let m := m.put64 (2 * PGSIZE + 8 * (0 : Fin 512)) (pa2pte (3 * PGSIZE) ||| PTE_V)
  m.put64 (3 * PGSIZE + 8 * k) (pa2pte (p * PGSIZE) ||| PTE_V ||| PTE_U)

theorem mapsOne_below {k : Fin 512} {p x : Nat} {i : Fin 512} (hx : x = 1 ∨ x = 2) :
    below ((mapsOne k p).entry x i) = if i = 0 then some (x + 1) else none := by
  split
  case isTrue first =>
    subst first
    rcases hx with rfl | rfl
    · rw [mapsOne, entry_put64_page (by decide), entry_put64_page (by decide), entry_put64_same (by decide)]
      exact below_pte (by decide)
    · rw [mapsOne, entry_put64_page (by decide), entry_put64_same (by decide)]
      exact below_pte (by decide)
  case isFalse other =>
    have zero : (mapsOne k p).entry x i = 0 := by
      rcases hx with rfl | rfl
      · rw [mapsOne, entry_put64_page (by decide), entry_put64_page (by decide), entry_put64_index other]
        exact Buffer.num_zero ..
      · rw [mapsOne, entry_put64_page (by decide), entry_put64_index other, entry_put64_page (by decide)]
        exact Buffer.num_zero ..
    rw [zero, below_zero]

theorem mapsOne_tables {k : Fin 512} {p x : Nat} (hx : x ∈ (mapsOne k p).tables 1) : x ≤ 3 := by
  obtain ⟨is, short, reach⟩ := hx
  match is with
  | [] =>
    obtain rfl := Option.some.inj reach
    decide
  | [i] =>
    rw [follow, mapsOne_below (.inl rfl)] at reach
    split at reach
    · obtain rfl := Option.some.inj reach
      decide
    · cases reach
  | [i, j] =>
    rw [follow, mapsOne_below (.inl rfl)] at reach
    split at reach
    · rw [Option.bind_some, follow, mapsOne_below (.inr rfl)] at reach
      split at reach
      · obtain rfl := Option.some.inj reach
        decide
      · cases reach
    · cases reach
  | _ :: _ :: _ :: _ => exact absurd short (by simp)

/-- Two bytes fit on the page and the third does not. -/
theorem user_copies_bytewise_edge :
    (∃ bytes, copyin (1 * PGSIZE) 4094 3 (mapsOne 0 4) = .ok ((bytes, -1), mapsOne 0 4)) ∧
      ∃ m', copyout (1 * PGSIZE) 4094 [1, 2, 3] (mapsOne 0 4) = .ok (-1, m') := by
  obtain ⟨good, -, all, ⟨bytes, -, -, copyin⟩, copyout⟩ := user_copies_bytewise (mapsOne 0 4) 1 4094 3 (by decide)
  have less : good ≠ 3 := fun e => all.mp e 2 (by decide) (by decide +kernel)
  rw [if_neg less] at copyin copyout
  refine ⟨⟨bytes, copyin⟩, _, copyout [1, 2, 3] rfl ?_⟩
  intro i hi a at_a
  have page : ∀ i < 3, ∀ a ∈ (mapsOne 0 4).phys 1 ((4094 + i) % 2 ^ 64), a / PGSIZE = 4 := by
    decide +kernel
  intro table
  have low := mapsOne_tables table
  rw [page i hi a at_a] at low
  exact absurd low (by decide)

/-- Where the table maps its own lowest page, the first eight bytes map the page that the ninth goes
to. -/
theorem copyout_maps_next_page :
    answer (copyout (1 * PGSIZE) (511 * PGSIZE - 8) (leBytes 8 (pa2pte (4 * PGSIZE) ||| PTE_V ||| PTE_U) ++ [7]))
        (mapsOne 510 3) = some 0 ∧
      (mapsOne 510 3).phys 1 (511 * PGSIZE - 8 + 8) = none := by
  decide +kernel

end Xv6.Vm
