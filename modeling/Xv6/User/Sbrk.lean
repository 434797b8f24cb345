import Xv6.User.Umalloc
import Xv6.Vm.Grow

/-!
# The allocator on top of the kernel

`malloc` with the kernel's own `sbrk`: the number of bytes is cut to an `int` on its way to `growproc`,
and the old size is returned as an `int`. The headers of the program are those of `Heap`; the memory
that it has ends at `p->sz`.
-/

namespace Xv6.User

open Extents Fallible
open Xv6.Vm (Kernel Symbols toInt ofInt NPROC)

section Definitions

variable (K : Symbols) (me : Fin NPROC)

/-- What the program sees of a call of `sbrk`. `p == (char*)-1` exactly if the call returned -1. -/
def afterSbrk (s : Heap) : Except String (Int × Kernel) → Option ((Heap × Kernel) × Option Nat)
  | .error _ => none
  | .ok (ret, k) =>
    let sz := (k.proc me).sz
    let given := if s.brk < sz then [(s.brk, (sz - s.brk) / HEADER)] else []
    some (({ s with brk := sz, regions := given ++ s.regions, calls := s.calls + 1 }, k),
      if ret = -1 then none else some (ofInt ret))

/-- `sbrk(bytes)` of the process `me` -/
def kernelSbrk (bytes : Nat) (x : Heap × Kernel) : Option ((Heap × Kernel) × Option Nat) :=
  afterSbrk me x.1 (Vm.sysSbrk K me (toInt bytes) x.2)

/-- `malloc(nbytes)` of the process `me`. -/
def kernelMalloc (base fuel : Nat) (x : Heap × Kernel) (nbytes : Nat) : Option ((Heap × Kernel) × Nat) :=
  mallocBy (kernelSbrk K me) base fuel x nbytes

end Definitions

/-- A program between two calls of the allocator, in a process whose memory ends where the heap does. -/
structure Running (K : Symbols) (me : Fin NPROC) (base : Nat) (s : Heap) (k : Kernel) (live : List Nat) : Prop where
  between : Between base s live
  space : k.AddressSpace K me
  size : (k.proc me).sz = s.brk

variable {K : Symbols} {me : Fin NPROC} {base n nu : Nat} {s : Heap} {k : Kernel} {live : List Nat}

theorem toInt_small {a : Nat} (h : a < 2 ^ 31) : toInt a = a := by
  unfold toInt
  exact Int.bmod_eq_of_le (by simp) (by simp; omega)

theorem ofInt_natCast {a : Nat} (h : a < 2 ^ 64) : ofInt a = a := by
  rw [ofInt]
  omega

theorem kernelSbrk_of_call {bytes : Nat} {req ret : Int} {k' : Kernel} (request : toInt bytes = req)
    (call : Vm.sysSbrk K me req k = .ok (ret, k')) :
    kernelSbrk K me bytes (s, k) = afterSbrk me s (.ok (ret, k')) := by
  rw [kernelSbrk, request, call]

/-- A request that an `int` can hold is answered as it was meant. -/
theorem kernelSbrk_answers (space : k.AddressSpace K me) (size : (k.proc me).sz = s.brk) (pos : 0 < nu)
    (small : nu * HEADER < 2 ^ 31) (units : s.units + nu < 2 ^ 32) :
    Answers (kernelSbrk K me) s k nu ∧
      ∀ t k' a, kernelSbrk K me (nu * HEADER) (s, k) = some ((t, k'), a) →
        k'.AddressSpace K me ∧ (k'.proc me).sz = t.brk ∧ s.brk ≤ t.brk := by
  obtain ⟨r, t, N, T, F, own⟩ := space
  have bound := own.size_le
  have request : toInt (nu * HEADER) = (nu * HEADER : Nat) := toInt_small small
  obtain ⟨res, k', ran, result⟩ := (Vm.run_growproc (n := (nu * HEADER : Nat)) own (by omega) (by omega)).total trivial
  have call : Vm.sysSbrk K me (nu * HEADER : Nat) k = .ok (if res < 0 then -1 else (s.brk : Int), k') := by
    change (Vm.getProc me >>= _) k = _
    rw [bind_ok (show Vm.getProc me k = .ok (k.proc me, k) from rfl), bind_ok ran, size, toInt_small (by omega)]
    split
    · rfl
    · rfl
  rcases result with ⟨rfl, resized⟩ | ⟨rfl, unchanged⟩
  · have grown : (k'.proc me).sz = s.brk + nu * HEADER := by
      have := resized.size
      omega
    have more : nu * HEADER ≠ 0 := by
      simp only [HEADER]
      omega
    have answer : kernelSbrk K me (nu * HEADER) (s, k) =
        some (({ s.extend 0 (nu * HEADER) with calls := s.calls + 1 }, k'), some (s.brk + 0)) := by
      rw [kernelSbrk_of_call request call, afterSbrk, grown, if_pos (by omega), if_neg (lt_irrefl 0), if_neg (by omega),
        ofInt_natCast (by omega), Nat.add_sub_cancel_left]
      rfl
    refine ⟨.inr ⟨0, k', units, answer⟩, fun u k'' a h => ?_⟩
    rw [answer] at h
    obtain ⟨rfl, rfl⟩ := Prod.mk.inj (Prod.mk.inj (Option.some.inj h)).1
    exact ⟨resized.inv, grown, Nat.le_add_right s.brk (nu * HEADER)⟩
  · have same : (k'.proc me).sz = s.brk := by
      rw [unchanged.proc, size]
    have answer : kernelSbrk K me (nu * HEADER) (s, k) = some (({ s with calls := s.calls + 1 }, k'), none) := by
      rw [kernelSbrk_of_call request call, afterSbrk, same, if_neg (lt_irrefl _)]
      rfl
    refine ⟨.inl ⟨k', answer⟩, fun u k'' a h => ?_⟩
    rw [answer] at h
    obtain ⟨rfl, rfl⟩ := Prod.mk.inj (Prod.mk.inj (Option.some.inj h)).1
    exact ⟨unchanged.inv, same, le_rfl⟩

theorem Good.units_le {F L : List Extent} (G : Good base s F L) : HEADER * s.units ≤ s.brk := by
  have le := Extents.units_le G.store.tiles.apart G.store.high
  rwa [G.store.tiles.total] at le

/-- `n` bytes at `r` meet the block of `ap`. -/
def Overlaps (s : Heap) (r n ap : Nat) : Prop :=
  r < (s.block ap).1 + HEADER * (s.block ap).2 ∧ (s.block ap).1 < r + n

/-- The block that was allocated last. -/
theorem Good.newest {F L : List Extent} {r : Nat} (G : Good base s F L) (eq : addresses L = r :: live)
    (enough : n ≤ HEADER * ((s.block r).2 - 1)) : r + n ≤ s.brk ∧ ∀ ap ∈ live, ¬ Overlaps s r n ap := by
  obtain ⟨x, L, rfl, rfl, rfl⟩ := List.map_eq_cons_iff.mp eq
  have block : ∀ y ∈ x :: L, s.block (y.1 + HEADER) = y := by
    intro y hy
    rw [Heap.block, Nat.add_sub_cancel, G.store.sizes y (List.mem_append_right F hy)]
  have tiles := G.store.tiles.perm List.perm_middle
  have pos := tiles.pos x List.mem_cons_self
  have high := G.store.high x (List.mem_append_right F List.mem_cons_self)
  rw [block x List.mem_cons_self] at enough
  constructor
  · simp only [stop, HEADER] at high enough ⊢
    omega
  · rintro _ hap ⟨low, top⟩
    obtain ⟨y, hy, rfl⟩ := List.mem_map.mp hap
    rw [block y (List.mem_cons_of_mem x hy)] at low top
    rcases (List.pairwise_cons.mp tiles.apart).1 y (List.mem_append_right F hy) with h | h
    · simp only [stop, HEADER] at h enough top
      omega
    · simp only [stop, HEADER] at h low
      omega

/-- A process of 6160 bytes, one page and a half. -/
def unevenKernel : Kernel := after (Vm.growproc Vm.sampleSymbols ⟨0, Vm.NPROC_pos⟩ 2064) Vm.sampleKernel

/-- Its program has not called `malloc` yet; `base` is at 4096. -/
def unevenHeap : Heap := ⟨fun _ => ⟨0, 0⟩, 0, 6160, [], 0⟩

theorem uneven_running : Running Vm.sampleSymbols 0 4096 unevenHeap unevenKernel [] := by
  have ran : Vm.growproc Vm.sampleSymbols 0 2064 Vm.sampleKernel = .ok (0, unevenKernel) := ok_of_answer (by decide +kernel)
  obtain ⟨r, t, N, T, F, own⟩ := Vm.sampleKernel_addressSpace
  obtain ⟨-, resized⟩ | ⟨failed, -⟩ := (Vm.run_growproc (P := True) own (by decide) (by decide)).post ran
  · exact ⟨.inl ⟨⟨by decide, by decide, rfl, rfl⟩, rfl⟩, resized.inv, by decide +kernel⟩
  · cases failed

end Xv6.User
