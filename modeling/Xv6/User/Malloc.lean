import Xv6.Extent
import Xv6.Links

/-!
# The user-level allocator (`user/umalloc.c`)

Memory is seen as headers: `hdr a` is the header at address `a`. Addresses are those of the
C code, so `p + n` on headers is `p + HEADER * n` here. `size` is a 32-bit `uint`; every
place that stores one reduces it.

The kernel answers `sbrk` with -1 or with a new region behind all memory that the program
has, after a gap of any size. `regions` records what it has given.
-/

namespace Xv6.User

open Links Extents

/-- `sizeof(Header)` -/
abbrev HEADER : Nat := 16

structure Header where
  ptr : Nat
  size : Nat

/-- Arithmetic on `uint`. -/
def uint (n : Nat) : Nat := n % 2 ^ 32

structure Heap where
  hdr : Nat → Header
  freep : Nat
  brk : Nat
  regions : List Extent
  /-- The number of calls of `sbrk` so far. -/
  calls : Nat

/-- What the kernel answers to the `call`-th `sbrk(bytes)`, when the program has got `units`
headers before: nothing, or the gap before the new region. -/
abbrev Os : Type := (call units bytes : Nat) → Option Nat

namespace Heap

def setPtr (s : Heap) (a p : Nat) : Heap :=
  { s with hdr := Function.update s.hdr a { s.hdr a with ptr := p } }

def setSize (s : Heap) (a n : Nat) : Heap :=
  { s with hdr := Function.update s.hdr a { s.hdr a with size := uint n } }

/-- The headers that `sbrk` has given. -/
def units (s : Heap) : Nat := (s.regions.map Prod.snd).sum

end Heap

/-- The loop of `free` stops at the block after which `bp` belongs. -/
def between (hdr : Nat → Header) (bp p : Nat) : Bool :=
  (p < bp ∧ bp < (hdr p).ptr) ∨ ((hdr p).ptr ≤ p ∧ (p < bp ∨ bp < (hdr p).ptr))

/-- `bp` takes over what follows `p`, and is joined with it if they touch. -/
def joinUpper (s : Heap) (bp p : Nat) : Heap :=
  let next := (s.hdr p).ptr
  if bp + HEADER * (s.hdr bp).size = next then
    (s.setSize bp ((s.hdr bp).size + (s.hdr next).size)).setPtr bp (s.hdr next).ptr
  else s.setPtr bp next

/-- `p` is followed by `bp`, or joined with it if they touch. -/
def joinLower (s : Heap) (bp p : Nat) : Heap :=
  if p + HEADER * (s.hdr p).size = bp then
    (s.setSize p ((s.hdr p).size + (s.hdr bp).size)).setPtr p (s.hdr bp).ptr
  else s.setPtr p bp

/-- The second half of `free`: `bp` is put behind `p`. -/
def link (s : Heap) (bp p : Nat) : Heap := { joinLower (joinUpper s bp p) bp p with freep := p }

/-- `free(ap)`, with at most `fuel` rounds of its loop. -/
def free (fuel : Nat) (s : Heap) (ap : Nat) : Option Heap :=
  let bp := ap - HEADER
  (seek (fun p => (s.hdr p).ptr) (between s.hdr bp) fuel s.freep).map (link s bp)

/-- The kernel gives a region of `bytes` bytes. -/
def Heap.extend (s : Heap) (gap bytes : Nat) : Heap :=
  { s with
    brk := s.brk + gap + bytes
    regions := (s.brk + gap, bytes / HEADER) :: s.regions }

def sbrk (os : Os) (s : Heap) (bytes : Nat) : Heap × Option Nat :=
  match os s.calls s.units bytes with
  | none => ({ s with calls := s.calls + 1 }, none)
  | some gap => ({ s.extend gap bytes with calls := s.calls + 1 }, some (s.brk + gap))

/-- `morecore(nu)`: the new value of `freep`, or 0. -/
def morecore (os : Os) (fuel : Nat) (s : Heap) (nu : Nat) : Option (Heap × Nat) :=
  let nu := if nu < 4096 then 4096 else nu
  match sbrk os s (nu * HEADER) with
  | (s, none) => some (s, 0)
  | (s, some hp) => (free fuel (s.setSize hp nu) (hp + HEADER)).map fun s => (s, s.freep)

/-- The block `p`, which `prevp` points to, is large enough. -/
def allocate (s : Heap) (nunits prevp p : Nat) : Heap × Nat :=
  if (s.hdr p).size = nunits then
    ({ s.setPtr prevp (s.hdr p).ptr with freep := prevp }, p + HEADER)
  else
    let s := s.setSize p ((s.hdr p).size - nunits)
    let p := p + HEADER * (s.hdr p).size
    ({ s.setSize p nunits with freep := prevp }, p + HEADER)

/-- The loop of `malloc`, with at most `fuel` rounds. -/
def mallocFrom (os : Os) (nunits : Nat) : Nat → Heap → (prevp p : Nat) → Option (Heap × Nat)
  | 0, _, _, _ => none
  | fuel + 1, s, prevp, p =>
    if nunits ≤ (s.hdr p).size then some (allocate s nunits prevp p)
    else if p = s.freep then
      match morecore os fuel s nunits with
      | none => none
      | some (s, p) =>
        if p = 0 then some (s, 0) else mallocFrom os nunits fuel s p (s.hdr p).ptr
    else mallocFrom os nunits fuel s p (s.hdr p).ptr

/-- `(nbytes + sizeof(Header) - 1)/sizeof(Header) + 1` -/
def nunits (nbytes : Nat) : Nat := uint ((nbytes + HEADER - 1) / HEADER + 1)

/-- The first call of `malloc` makes a ring of `base` alone. -/
def prepare (base : Nat) (s : Heap) : Heap :=
  if s.freep = 0 then { (s.setPtr base base).setSize base 0 with freep := base } else s

/-- `malloc(nbytes)`: the address of the memory, or 0. -/
def malloc (os : Os) (base fuel : Nat) (s : Heap) (nbytes : Nat) : Option (Heap × Nat) :=
  let s := prepare base s
  mallocFrom os (nunits nbytes) fuel s s.freep (s.hdr s.freep).ptr

/-! ## The system call as a parameter -/

section By

variable {κ : Type} (sb : Nat → Heap × κ → Option ((Heap × κ) × Option Nat))

/-- `morecore` with `sb` for `sbrk`, which works on a state of its own and may never return. -/
def morecoreBy (fuel : Nat) (x : Heap × κ) (nu : Nat) : Option ((Heap × κ) × Nat) :=
  let nu := if nu < 4096 then 4096 else nu
  match sb (nu * HEADER) x with
  | none => none
  | some (x, none) => some (x, 0)
  | some (x, some hp) => (free fuel (x.1.setSize hp nu) (hp + HEADER)).map fun s => ((s, x.2), s.freep)

def mallocFromBy (nunits : Nat) : Nat → Heap × κ → (prevp p : Nat) → Option ((Heap × κ) × Nat)
  | 0, _, _, _ => none
  | fuel + 1, x, prevp, p =>
    if nunits ≤ (x.1.hdr p).size then
      some (((allocate x.1 nunits prevp p).1, x.2), (allocate x.1 nunits prevp p).2)
    else if p = x.1.freep then
      match morecoreBy sb fuel x nunits with
      | none => none
      | some (x, p) => if p = 0 then some (x, 0) else mallocFromBy nunits fuel x p (x.1.hdr p).ptr
    else mallocFromBy nunits fuel x p (x.1.hdr p).ptr

def mallocBy (base fuel : Nat) (x : Heap × κ) (nbytes : Nat) : Option ((Heap × κ) × Nat) :=
  let s := prepare base x.1
  mallocFromBy sb (nunits nbytes) fuel (s, x.2) s.freep (s.hdr s.freep).ptr

end By

/-- A kernel of which only its answers are known. -/
def osSbrk (os : Os) (bytes : Nat) (x : Heap × Unit) : Option ((Heap × Unit) × Option Nat) :=
  some (((sbrk os x.1 bytes).1, ()), (sbrk os x.1 bytes).2)

/-! ## Sequences of calls -/

inductive Op where
  | malloc (nbytes : Nat)
  | free (ap : Nat)

/-- The program before its first call. `base` is a variable of the program, so its memory ends
behind it. -/
structure Start (base : Nat) (s : Heap) : Prop where
  nonnull : 0 < base
  behind : base + HEADER ≤ s.brk
  fresh : s.freep = 0
  none : s.regions = []

/-- The calls of a program: `live` are the addresses that `malloc` has returned and `free` has
not got yet. -/
inductive Calls (os : Os) (base : Nat) : List Op → Heap → List Nat → Prop where
  | start {s : Heap} (h : Start base s) : Calls os base [] s []
  | malloc {ops : List Op} {s s' : Heap} {live : List Nat} {n fuel r : Nat}
      (before : Calls os base ops s live) (small : n < 2 ^ 30)
      (call : malloc os base fuel s n = some (s', r)) :
      Calls os base (ops ++ [.malloc n]) s' (if r = 0 then live else r :: live)
  | free {ops : List Op} {s s' : Heap} {live : List Nat} {ap fuel : Nat}
      (before : Calls os base ops s live) (mem : ap ∈ live) (call : free fuel s ap = some s') :
      Calls os base (ops ++ [.free ap]) s' (live.erase ap)

end Xv6.User
