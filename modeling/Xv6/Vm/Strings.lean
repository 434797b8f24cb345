import Xv6.Vm.Usercopy

/-!
# String arguments (`copyinstr` of `kernel/vm.c`, `fetchstr` and `argstr` of `kernel/syscall.c`)

`copyinstr` has a loop over pages and inside it a loop over the bytes of a page, which share what is
left of `max`. Both together are `scan`, which goes on from one user address to the next.
-/

namespace Xv6.Vm

open Bytes Fallible
open Xv6.Fs (PGSIZE pageRoom nextPage)

/-- The inner loop of `copyinstr`: for every byte that it stores, the physical address it was read
from; and whether it was the NUL that ended the loop. -/
def copyinstrPage : (n p : Nat) → Code (List (Nat × UInt8) × Bool)
  | 0, _ => return ([], false)
  | n + 1, p => do
    let b ← load8 p
    if b = 0 then return ([(p, 0)], true)
    else do
      let (rest, gotNull) ← copyinstrPage n (p + 1)
      return ((p, b) :: rest, gotNull)

/-- The outer loop of `copyinstr`. Every round copies at least one byte. -/
def copyinstrFrom (pagetable : Nat) : (rounds srcva max : Nat) → Code (List (Nat × UInt8) × Int)
  | 0, _, _ => return ([], -1)
  | rounds + 1, srcva, max =>
    if max = 0 then return ([], -1)
    else do
      let va0 := pgrounddown srcva
      let pa0 ← walkaddr pagetable va0
      if pa0 = 0 then return ([], -1)
      else do
        let n := min (PGSIZE - (srcva - va0)) max
        let (bytes, gotNull) ← copyinstrPage n (pa0 + (srcva - va0))
        if gotNull then return (bytes, 0)
        else do
          let (rest, r) ← copyinstrFrom pagetable rounds ((va0 + PGSIZE) % 2 ^ 64) (max - n)
          return (bytes ++ rest, r)

/-- The bytes that are stored from `dst` on, each with where it was read, and the result. -/
def copyinstr (pagetable srcva max : Nat) : Code (List (Nat × UInt8) × Int) :=
  copyinstrFrom pagetable max srcva max

/-- `for(n = 0; s[n]; n++);` -/
def strlen : List UInt8 → Nat
  | [] => 0
  | b :: s => if b = 0 then 0 else strlen s + 1

/-- A buffer after the bytes of `l` are stored from its start on. -/
def overwrite (buf : List UInt8) (l : List (Nat × UInt8)) : List UInt8 := l.map Prod.snd ++ buf.drop l.length

/-- What `buf` then holds, and the result. -/
def fetchstr (pagetable addr : Nat) (buf : List UInt8) (max : Int) : Code (List UInt8 × Int) := do
  let (l, err) ← copyinstr pagetable addr (ofInt max)
  let buf := overwrite buf l
  if err < 0 then return (buf, err) else return (buf, strlen buf)

/-- `a n` is the register `a0`, `a1`, ... of the trapframe. -/
def argraw (a : Nat → Nat) (n : Int) : Code Nat :=
  if 0 ≤ n ∧ n < 6 then return a n.toNat else throw "argraw"

def argaddr (a : Nat → Nat) (n : Int) : Code (Nat × Int) := do
  let ip ← argraw a n
  return (ip, 0)

def argstr (pagetable : Nat) (a : Nat → Nat) (n : Int) (buf : List UInt8) (max : Int) :
    Code (List UInt8 × Int) := do
  let (addr, err) ← argaddr a n
  if err < 0 then return (buf, -1) else fetchstr pagetable addr buf max

/-! ## Address by address -/

/-- Read and copy from one address to the next: until a NUL, an address that is not mapped, or `max`. -/
def scan (m : Mem) (r : Nat) : (max va : Nat) → List (Nat × UInt8) × Bool
  | 0, _ => ([], false)
  | max + 1, va =>
    match m.phys r va with
    | none => ([], false)
    | some a =>
      if m.byte a = 0 then ([(a, 0)], true)
      else
        let (rest, gotNull) := scan m r max ((va + 1) % 2 ^ 64)
        ((a, m.byte a) :: rest, gotNull)

section Scan

variable {m : Mem} {r va max rounds a n k : Nat}

theorem scan_none (h : m.phys r va = none) : scan m r max va = ([], false) := by
  cases max with
  | zero => rfl
  | succ max => rw [scan, h]

theorem scan_nul (h : m.phys r va = some a) (nul : m.byte a = 0) : scan m r (max + 1) va = ([(a, 0)], true) := by
  rw [scan, h]
  exact if_pos nul

theorem scan_more (h : m.phys r va = some a) (more : m.byte a ≠ 0) : scan m r (max + 1) va =
    ((a, m.byte a) :: (scan m r max ((va + 1) % 2 ^ 64)).1, (scan m r max ((va + 1) % 2 ^ 64)).2) := by
  rw [scan, h]
  exact if_neg more

/-- The inner loop scans a part of a page. -/
theorem copyinstrPage_eq (hva : va < 2 ^ 64) (first : m.phys r va = some a) (hn : n ≤ pageRoom va) :
    copyinstrPage n a m = .ok (scan m r n va, m) := by
  induction n generalizing va a with
  | zero => rfl
  | succ n ih =>
    rw [copyinstrPage, bind_ok (show load8 a m = .ok (m.byte a, m) from rfl)]
    by_cases nul : m.byte a = 0
    · rw [if_pos nul, scan_nul first nul]
      rfl
    · rw [if_neg nul, scan_more first nul]
      cases n with
      | zero => rfl
      | succ n =>
        have more : 1 < pageRoom va := by omega
        have near := same_page hva more
        rw [near]
        rw [bind_ok (ih (near ▸ Nat.mod_lt _ (by decide)) (phys_page first more).1 (by
          simp only [pageRoom, PGSIZE] at hn more ⊢
          omega))]
        rfl

theorem next_addr (va i : Nat) : ((va + 1) % 2 ^ 64 + i) % 2 ^ 64 = (va + (i + 1)) % 2 ^ 64 := by
  omega

/-- A scan of mapped addresses without a NUL goes on behind them. -/
theorem scan_add (hva : va < 2 ^ 64) (mapped : ∀ i < n, m.phys r ((va + i) % 2 ^ 64) ≠ none) :
    scan m r (n + k) va =
      if (scan m r n va).2 then scan m r n va
      else ((scan m r n va).1 ++ (scan m r k ((va + n) % 2 ^ 64)).1, (scan m r k ((va + n) % 2 ^ 64)).2) := by
  induction n generalizing va with
  | zero =>
    rw [Nat.zero_add, Nat.add_zero, Nat.mod_eq_of_lt hva]
    rfl
  | succ n ih =>
    have first := mapped 0 (Nat.succ_pos n)
    rw [Nat.add_zero, Nat.mod_eq_of_lt hva] at first
    obtain ⟨a, at_a⟩ := Option.ne_none_iff_exists'.mp first
    rw [Nat.add_right_comm]
    by_cases nul : m.byte a = 0
    · rw [scan_nul at_a nul, scan_nul at_a nul]
      rfl
    · rw [scan_more at_a nul, scan_more at_a nul]
      rw [ih (Nat.mod_lt _ (by decide)) (fun i hi => by rw [next_addr]; exact mapped _ (by omega)), next_addr]
      split
      · rfl
      · rfl

theorem copyinstrFrom_none (pos : max ≠ 0) (h : m.phys r va = none) :
    copyinstrFrom (r * PGSIZE) (rounds + 1) va max m = .ok (([], -1), m) := by
  rw [copyinstrFrom, if_neg pos, bind_ok walkaddr_eq, pgrounddown_div, if_pos (userAddr_of_none h)]
  rfl

theorem copyinstrFrom_some (pos : max ≠ 0) (hva : va < 2 ^ 64) (h : m.phys r va = some a) :
    copyinstrFrom (r * PGSIZE) (rounds + 1) va max m =
      if (scan m r (min (pageRoom va) max) va).2 then .ok (((scan m r (min (pageRoom va) max) va).1, 0), m)
      else (copyinstrFrom (r * PGSIZE) rounds (nextPage va) (max - min (pageRoom va) max) >>= fun x =>
        pure ((scan m r (min (pageRoom va) max) va).1 ++ x.1, x.2)) m := by
  have page := copyinstrPage_eq hva h (Nat.min_le_left (pageRoom va) max)
  obtain ⟨nonzero, rfl⟩ := userAddr_of_some h
  rw [copyinstrFrom, if_neg pos, bind_ok walkaddr_eq, pgrounddown_div, if_neg nonzero]
  rw [sub_pgrounddown, pgrounddown_add, ← pageRoom, bind_ok page]
  generalize scan m r (min (pageRoom va) max) va = found
  obtain ⟨bytes, _ | _⟩ := found
  · rfl
  · rfl

/-- The two loops are one scan. -/
theorem copyinstrFrom_eq (hk : max ≤ rounds) (hva : va < 2 ^ 64) :
    copyinstrFrom (r * PGSIZE) rounds va max m =
      .ok (((scan m r max va).1, if (scan m r max va).2 then 0 else -1), m) := by
  induction rounds generalizing va max with
  | zero =>
    obtain rfl : max = 0 := by omega
    rfl
  | succ rounds ih =>
    by_cases empty : max = 0
    · subst empty
      rw [copyinstrFrom, if_pos rfl]
      rfl
    cases first : m.phys r va with
    | none =>
      rw [copyinstrFrom_none empty first, scan_none first]
      rfl
    | some a =>
      have room := pageRoom_pos va
      rw [copyinstrFrom_some empty hva first]
      have mapped : ∀ i < min (pageRoom va) max, m.phys r ((va + i) % 2 ^ 64) ≠ none := by
        intro i hi
        have here : i < pageRoom va := by omega
        rw [same_page hva here, (phys_page first here).1]
        nofun
      have whole := scan_add (k := max - min (pageRoom va) max) hva mapped
      rw [Nat.add_sub_cancel' (Nat.min_le_right ..)] at whole
      rw [whole]
      split
      · rfl
      · rw [bind_ok (ih (by omega) (nextPage_lt va))]
        have rest : scan m r (max - min (pageRoom va) max) (nextPage va) =
            scan m r (max - min (pageRoom va) max) ((va + min (pageRoom va) max) % 2 ^ 64) := by
          by_cases short : max ≤ pageRoom va
          · rw [Nat.min_eq_right short, Nat.sub_self]
            rfl
          · have next := next_page va 0
            rw [Nat.add_zero, Nat.add_zero, Nat.mod_eq_of_lt (nextPage_lt va)] at next
            rw [next, Nat.min_eq_left (by omega)]
        rw [rest]
        rfl

/-! ## Strings -/

/-- The string at `va` has `k` bytes: all of them and the NUL behind them are mapped. -/
def Mem.IsString (m : Mem) (r va k : Nat) : Prop :=
  (∀ i < k, ∃ b, m.userByte r ((va + i) % 2 ^ 64) = some b ∧ b ≠ 0) ∧ m.userByte r ((va + k) % 2 ^ 64) = some 0

theorem isString_zero (hva : va < 2 ^ 64) : m.IsString r va 0 ↔ m.userByte r va = some 0 := by
  rw [Mem.IsString, Nat.add_zero, Nat.mod_eq_of_lt hva]
  exact ⟨And.right, fun h => ⟨nofun, h⟩⟩

theorem isString_succ (hva : va < 2 ^ 64) : m.IsString r va (k + 1) ↔
    (∃ b, m.userByte r va = some b ∧ b ≠ 0) ∧ m.IsString r ((va + 1) % 2 ^ 64) k := by
  simp only [Mem.IsString, next_addr]
  constructor
  · rintro ⟨bytes, nul⟩
    have first := bytes 0 (Nat.succ_pos k)
    rw [Nat.add_zero, Nat.mod_eq_of_lt hva] at first
    exact ⟨first, fun i hi => bytes (i + 1) (by omega), nul⟩
  · rintro ⟨first, bytes, nul⟩
    refine ⟨fun i hi => ?_, nul⟩
    cases i with
    | zero =>
      rw [Nat.add_zero, Nat.mod_eq_of_lt hva]
      exact first
    | succ i => exact bytes i (by omega)

theorem length_scan_le : (scan m r max va).1.length ≤ max := by
  induction max generalizing va with
  | zero => exact le_rfl
  | succ max ih =>
    rw [scan]
    split
    · exact Nat.zero_le _
    · split
      · exact Nat.succ_le_succ (Nat.zero_le max)
      · exact Nat.succ_le_succ ih

/-- What was read is what the table maps, and only the last byte may be a NUL. -/
theorem scan_reads {i : Nat} {b : UInt8} (hva : va < 2 ^ 64) (h : (scan m r max va).1[i]? = some (a, b)) :
    m.phys r ((va + i) % 2 ^ 64) = some a ∧ b = m.byte a ∧ (i + 1 < (scan m r max va).1.length → b ≠ 0) := by
  induction max generalizing va i with
  | zero => cases h
  | succ max ih =>
    cases first : m.phys r va with
    | none =>
      rw [scan_none first] at h
      cases h
    | some p =>
      by_cases nul : m.byte p = 0
      · rw [scan_nul first nul] at h ⊢
        cases i with
        | zero =>
          obtain ⟨rfl, rfl⟩ := Prod.mk.inj (Option.some.inj h)
          rw [Nat.add_zero, Nat.mod_eq_of_lt hva]
          exact ⟨first, nul.symm, fun more => absurd more (lt_irrefl 1)⟩
        | succ i => cases h
      · rw [scan_more first nul] at h ⊢
        cases i with
        | zero =>
          obtain ⟨rfl, rfl⟩ := Prod.mk.inj (Option.some.inj h)
          rw [Nat.add_zero, Nat.mod_eq_of_lt hva]
          exact ⟨first, rfl, fun _ => nul⟩
        | succ i =>
          obtain ⟨at_a, byte, more⟩ := ih (Nat.mod_lt _ (by decide)) h
          rw [next_addr] at at_a
          exact ⟨at_a, byte, fun less => more (Nat.lt_of_succ_lt_succ less)⟩

/-- A string shorter than `max` is read to its NUL. -/
theorem scan_string (hva : va < 2 ^ 64) (hk : k < max) (str : m.IsString r va k) :
    (scan m r max va).2 = true ∧ (scan m r max va).1.length = k + 1 ∧
      ∀ rest, strlen ((scan m r max va).1.map Prod.snd ++ rest) = k := by
  induction k generalizing va max with
  | zero =>
    obtain ⟨max, rfl⟩ : ∃ n, max = n + 1 := ⟨max - 1, by omega⟩
    obtain ⟨a, at_a, nul⟩ := Option.map_eq_some_iff.mp ((isString_zero hva).mp str)
    rw [scan_nul at_a nul]
    exact ⟨rfl, rfl, fun _ => rfl⟩
  | succ k ih =>
    obtain ⟨max, rfl⟩ : ∃ n, max = n + 1 := ⟨max - 1, by omega⟩
    obtain ⟨⟨b, first, more⟩, str⟩ := (isString_succ hva).mp str
    obtain ⟨a, at_a, rfl⟩ := Option.map_eq_some_iff.mp first
    obtain ⟨nul, length, len⟩ := ih (Nat.mod_lt _ (by decide)) (Nat.lt_of_succ_lt_succ hk) str
    rw [scan_more at_a more]
    refine ⟨nul, congrArg (· + 1) length, fun rest => ?_⟩
    rw [List.map_cons, List.cons_append, strlen, if_neg more, len]

/-- A NUL that is read ends a string shorter than `max`. -/
theorem string_of_scan (hva : va < 2 ^ 64) (h : (scan m r max va).2 = true) : ∃ k < max, m.IsString r va k := by
  induction max generalizing va with
  | zero => cases h
  | succ max ih =>
    cases first : m.phys r va with
    | none =>
      rw [scan_none first] at h
      cases h
    | some a =>
      by_cases nul : m.byte a = 0
      · refine ⟨0, Nat.succ_pos max, (isString_zero hva).mpr ?_⟩
        rw [Mem.userByte, first, Option.map_some, nul]
      · rw [scan_more first nul] at h
        obtain ⟨k, hk, str⟩ := ih (Nat.mod_lt _ (by decide)) h
        refine ⟨k + 1, Nat.succ_lt_succ hk, (isString_succ hva).mpr ⟨⟨m.byte a, ?_, nul⟩, str⟩⟩
        rw [Mem.userByte, first, Option.map_some]

end Scan

/-! ## What the callers get -/

section Callers

variable {m : Mem} {r va max : Nat}

theorem ofInt_natCast (h : max < 2 ^ 64) : ofInt max = max := by
  rw [ofInt]
  omega

theorem fetchstr_eq (hva : va < 2 ^ 64) (hmax : max < 2 ^ 31) (buf : List UInt8) :
    fetchstr (r * PGSIZE) va buf max m =
      .ok ((overwrite buf (scan m r max va).1,
        if (scan m r max va).2 then (strlen (overwrite buf (scan m r max va).1) : Int) else -1), m) := by
  have copied : copyinstr (r * PGSIZE) va max m = _ := copyinstrFrom_eq le_rfl hva
  rw [fetchstr, ofInt_natCast (hmax.trans (by decide)), bind_ok copied]
  cases (scan m r max va).2 with
  | false => rfl
  | true => rfl

theorem argstr_eq {a : Nat → Nat} {n : Nat} (hn : n < 6) (buf : List UInt8) (max : Int) :
    argstr (r * PGSIZE) a n buf max m = fetchstr (r * PGSIZE) (a n) buf max m := by
  have raw : argraw a n m = .ok (a n, m) := by
    rw [argraw, if_pos (by omega)]
    rfl
  have addr : argaddr a n m = .ok ((a n, 0), m) := by
    rw [argaddr, bind_ok raw]
    rfl
  rw [argstr, bind_ok addr]
  rfl

end Callers

/-- The string `"a"` in the last two bytes of the only page that is mapped. -/
def lastString : Mem := (mapsOne ⟨0, Nat.two_pow_pos 9⟩ 4).put (4 * PGSIZE + 4094) [97]

end Xv6.Vm
