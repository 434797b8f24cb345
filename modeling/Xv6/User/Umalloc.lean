import Xv6.User.Heap

/-!
# Any sequence of malloc and free

What one call does to the heap, and from it what every sequence of calls leaves behind.
-/

namespace Xv6.User

open Links Extents

/-- The kernel never gives a program more headers than a `uint` counts. -/
def Bounded (os : Os) : Prop :=
  ∀ call units bytes gap, os call units bytes = some gap → units + bytes / HEADER < 2 ^ 32

section Calls

variable {base : Nat} {s s' : Heap} {F L L' : List Extent} {os : Os} {nu fuel : Nat}
variable {κ : Type} {sb : Nat → Heap × κ → Option ((Heap × κ) × Option Nat)} {c c' : κ} {x x' : Heap × κ}

theorem Good.perm (G : Good base s F L) (h : L.Perm L') : Good base s F L' :=
  ⟨G.ring, G.freep, G.order, G.store.perm (h.append_left F)⟩

/-! ## More rounds do not change an answer -/

theorem seek_mono {next : Nat → Nat} {stop : Nat → Bool} {n m a b : Nat} (h : seek next stop n a = some b)
    (le : n ≤ m) : seek next stop m a = some b := by
  induction n generalizing a m with
  | zero => cases h
  | succ n ih =>
    obtain ⟨m, rfl⟩ := Nat.exists_eq_add_one.mpr (Nat.zero_lt_of_lt le)
    rw [seek] at h ⊢
    by_cases hit : stop a = true
    · rwa [if_pos hit] at h ⊢
    · rw [if_neg hit] at h ⊢
      exact ih h (Nat.le_of_succ_le_succ le)

theorem free_mono {n m ap : Nat} (h : free n s ap = some s') (le : n ≤ m) : free m s ap = some s' := by
  rw [free, Option.map_eq_some_iff] at h ⊢
  obtain ⟨p, found, rfl⟩ := h
  exact ⟨p, seek_mono found le, rfl⟩

theorem morecoreBy_mono {n m : Nat} {r : (Heap × κ) × Nat} (h : morecoreBy sb n x nu = some r) (le : n ≤ m) :
    morecoreBy sb m x nu = some r := by
  simp only [morecoreBy] at h ⊢
  split at h
  · cases h
  · exact h
  · rw [Option.map_eq_some_iff] at h ⊢
    obtain ⟨t, done, rfl⟩ := h
    exact ⟨t, free_mono done le, rfl⟩

theorem mallocFromBy_mono {n m q p : Nat} {r : (Heap × κ) × Nat} (h : mallocFromBy sb nu n x q p = some r) (le : n ≤ m) :
    mallocFromBy sb nu m x q p = some r := by
  induction n generalizing x q p m with
  | zero => cases h
  | succ n ih =>
    obtain ⟨m, rfl⟩ := Nat.exists_eq_add_one.mpr (Nat.zero_lt_of_lt le)
    have le' := Nat.le_of_succ_le_succ le
    rw [mallocFromBy] at h ⊢
    by_cases large : nu ≤ (x.1.hdr p).size
    · rwa [if_pos large] at h ⊢
    rw [if_neg large] at h ⊢
    by_cases around : p = x.1.freep
    · rw [if_pos around] at h ⊢
      cases more : morecoreBy sb n x nu with
      | none =>
        rw [more] at h
        cases h
      | some y =>
        rw [more] at h
        rw [morecoreBy_mono more le']
        dsimp only at h ⊢
        by_cases failed : y.2 = 0
        · rwa [if_pos failed] at h ⊢
        · rw [if_neg failed] at h ⊢
          exact ih h le'
    · rw [if_neg around] at h ⊢
      exact ih h le'

/-! ## A kernel of which only its answers are known -/

theorem morecore_eq : morecore os fuel s nu = (morecoreBy (osSbrk os) fuel (s, ()) nu).map fun x => (x.1.1, x.2) := by
  simp only [morecore, morecoreBy, osSbrk]
  cases h : sbrk os s ((if nu < 4096 then 4096 else nu) * HEADER) with
  | mk t answer =>
    cases answer with
    | none => rfl
    | some hp => simp [Function.comp_def]

theorem mallocFrom_eq {n q p : Nat} : mallocFrom os nu n s q p =
    (mallocFromBy (osSbrk os) nu n (s, ()) q p).map fun x => (x.1.1, x.2) := by
  induction n generalizing s q p with
  | zero => rfl
  | succ n ih =>
    rw [mallocFrom, mallocFromBy]
    split
    · rfl
    · split
      · rw [morecore_eq]
        cases morecoreBy (osSbrk os) n (s, ()) nu with
        | none => rfl
        | some y =>
          obtain ⟨⟨t, ⟨⟩⟩, p⟩ := y
          simp only [Option.map_some]
          split
          · rfl
          · exact ih
      · exact ih

theorem malloc_eq {n : Nat} : malloc os base fuel s n =
    (mallocBy (osSbrk os) base fuel (s, ()) n).map fun x => (x.1.1, x.2) := mallocFrom_eq

theorem mallocFrom_mono {n m q p : Nat} {r : Heap × Nat} (h : mallocFrom os nu n s q p = some r) (le : n ≤ m) :
    mallocFrom os nu m s q p = some r := by
  rw [mallocFrom_eq, Option.map_eq_some_iff] at h ⊢
  obtain ⟨y, done, rfl⟩ := h
  exact ⟨y, mallocFromBy_mono done le, rfl⟩

/-! ## morecore -/

/-- The number of calls is not looked at. -/
theorem Good.setCalls (G : Good base s F L) {n : Nat} : Good base { s with calls := n } F L :=
  have S := G.store
  ⟨G.ring, G.freep, G.order, S.zero, S.sizes, S.tiles, S.nonnull, S.low, S.high, S.brk, S.small⟩

/-- The kernel gives a new region, and its header is written. -/
theorem Store.grow {B : List Extent} (S : Store base s B) (gap : Nat) (pos : 0 < nu)
    (fits : s.units + nu < 2 ^ 32) :
    Store base ((s.extend gap (nu * HEADER)).setSize (s.brk + gap) nu) ((s.brk + gap, nu) :: B) := by
  have high : ∀ x ∈ B, stop HEADER x ≤ s.brk + gap := fun x hx => Nat.le_add_right_of_le (S.high x hx)
  have brk := S.brk
  have units : nu * HEADER / HEADER = nu := Nat.mul_div_cancel nu (by decide)
  simp only [HEADER] at brk
  refine ⟨?_, List.forall_mem_cons.mpr ⟨?_, fun x hx => ?_⟩, ?_, S.nonnull,
    List.forall_mem_cons.mpr ⟨?_, S.low⟩, List.forall_mem_cons.mpr ⟨?_, fun x hx => ?_⟩, ?_, ?_⟩
  · rw [setSize_size, if_neg (by omega)]
    exact S.zero
  · rw [setSize_size, if_pos rfl]
    exact uint_of_lt (by omega)
  · have pos := S.tiles.pos x hx
    have := high x hx
    simp only [stop, HEADER] at this
    rw [setSize_size, if_neg (by omega)]
    exact S.sizes x hx
  · show Tiles HEADER _ ((s.brk + gap, nu * HEADER / HEADER) :: s.regions)
    rw [units]
    exact S.tiles.add pos high
  · exact Nat.le_add_right_of_le S.brk
  · show s.brk + gap + HEADER * nu ≤ s.brk + gap + nu * HEADER
    rw [Nat.mul_comm]
  · exact (high x hx).trans (Nat.le_add_right _ _)
  · show base + HEADER ≤ s.brk + gap + nu * HEADER
    simp only [HEADER]
    omega
  · show (((s.brk + gap, nu * HEADER / HEADER) :: s.regions).map Prod.snd).sum < 2 ^ 32
    rw [List.map_cons, List.sum_cons, Nat.add_comm, units]
    exact fits

theorem Good.grow (G : Good base s F L) (gap : Nat) (pos : 0 < nu) (fits : s.units + nu < 2 ^ 32) :
    Good base ((s.extend gap (nu * HEADER)).setSize (s.brk + gap) nu) F ((s.brk + gap, nu) :: L) :=
  ⟨G.ring.frame fun _ _ => setSize_ptr, G.freep, G.order, (G.store.grow gap pos fits).perm List.perm_middle.symm⟩

/-- `sb` fails, or gives `nu` headers behind all memory. -/
def Answers (sb : Nat → Heap × κ → Option ((Heap × κ) × Option Nat)) (s : Heap) (c : κ) (nu : Nat) : Prop :=
  (∃ c', sb (nu * HEADER) (s, c) = some (({ s with calls := s.calls + 1 }, c'), none)) ∨
  ∃ gap c', s.units + nu < 2 ^ 32 ∧
    sb (nu * HEADER) (s, c) = some (({ s.extend gap (nu * HEADER) with calls := s.calls + 1 }, c'), some (s.brk + gap))

theorem Bounded.answers (bounded : Bounded os) (s : Heap) (nu : Nat) : Answers (osSbrk os) s () nu := by
  cases answer : os s.calls s.units (nu * HEADER) with
  | none => exact .inl ⟨(), by rw [osSbrk, sbrk, answer]⟩
  | some gap =>
    have fits := bounded _ _ _ _ answer
    rw [Nat.mul_div_cancel nu (by decide)] at fits
    exact .inr ⟨gap, (), fits, by rw [osSbrk, sbrk, answer]⟩

/-- What `morecore` asks for. -/
def atLeast (nu : Nat) : Nat := if nu < 4096 then 4096 else nu

theorem free_brk {ap : Nat} (h : free fuel s ap = some s') : s'.brk = s.brk := by
  obtain ⟨p, -, rfl⟩ := Option.map_eq_some_iff.mp h
  simp only [link, joinLower, joinUpper]
  split_ifs <;> rfl

theorem Good.morecore (answers : Answers sb s c (atLeast nu)) (G : Good base s F L) (enough : F.length < fuel) :
    ∃ t c' a, sb (atLeast nu * HEADER) (s, c) = some ((t, c'), a) ∧
      ((∃ s', morecoreBy sb fuel (s, c) nu = some ((s', c'), 0) ∧ s'.brk = t.brk ∧ Good base s' F L) ∨
      ∃ s' F', morecoreBy sb fuel (s, c) nu = some ((s', c'), s'.freep) ∧ s'.brk = t.brk ∧ Good base s' F' L ∧
        ∃ x ∈ F', nu ≤ x.2) := by
  have pos : 0 < atLeast nu := by
    rw [atLeast]
    split <;> omega
  have le : nu ≤ atLeast nu := by
    rw [atLeast]
    split <;> omega
  rcases answers with ⟨c', answer⟩ | ⟨gap, c', fits, answer⟩
  · refine ⟨_, c', none, answer, .inl ⟨_, ?_, rfl, G.setCalls⟩⟩
    rw [atLeast] at answer
    rw [morecoreBy, answer]
  · obtain ⟨s', F', done, G', x, hx, large⟩ :=
      ((G.grow gap pos fits).setCalls (n := s.calls + 1)).free enough
    have brk : s'.brk = s.brk + gap + atLeast nu * HEADER := free_brk done
    refine ⟨_, c', _, answer, .inr ⟨s', F', ?_, brk, G', x, hx, le.trans large⟩⟩
    rw [atLeast] at answer done
    rw [morecoreBy, answer]
    exact Option.map_eq_some_iff.mpr ⟨s', done, rfl⟩

/-! ## malloc -/

theorem Path_getLast {next : Nat → Nat} {a b : Nat} {l : List Nat} (ne : l ≠ []) (path : Path next a l b) :
    next (l.getLast ne) = b := by
  obtain ⟨u, x, rfl⟩ := List.eq_nil_or_concat l |>.resolve_left ne
  simp only [List.concat_eq_append] at path ⊢
  rw [List.getLast_append_singleton]
  exact (path_cons_append.mp path).2

/-- The loop of `malloc` passes over blocks that are too small. -/
theorem mallocFrom_walk {l : List Nat} {q p r : Nat} (path : Path (fun p => (s.hdr p).ptr) p l r)
    (skip : ∀ x ∈ l, (s.hdr x).size < nu ∧ x ≠ s.freep) :
    mallocFromBy sb nu (l.length + fuel) (s, c) q p =
      mallocFromBy sb nu fuel (s, c) ((q :: l).getLast (List.cons_ne_nil q l)) r := by
  induction l generalizing q p with
  | nil =>
    obtain rfl : p = r := path
    simp
  | cons x l ih =>
    obtain ⟨rfl, path⟩ := path
    obtain ⟨small, other⟩ := skip p List.mem_cons_self
    rw [List.length_cons, Nat.add_right_comm, mallocFromBy, if_neg (Nat.not_le_of_lt small), if_neg other,
      ih path fun y hy => skip y (List.mem_cons_of_mem p hy)]
    rfl

/-- The sizes that the search meets on its way around the ring. -/
theorem Good.sizes_around (G : Good base s F L) {l : List Nat} (perm : (nodes base F).Perm (s.freep :: l))
    (pos : 0 < nu) : (∃ x ∈ F, nu ≤ x.2) ↔ ∃ p ∈ l ++ [s.freep], nu ≤ (s.hdr p).size := by
  have mem : ∀ {p}, p ∈ l ++ [s.freep] ↔ p ∈ nodes base F := by
    intro p
    rw [perm.mem_iff, List.mem_append, List.mem_singleton, List.mem_cons, or_comm]
  constructor
  · rintro ⟨x, hx, large⟩
    refine ⟨x.1, mem.mpr (List.mem_cons_of_mem _ (List.mem_map_of_mem hx)), ?_⟩
    rwa [G.store.sizes x (List.mem_append_left L hx)]
  · rintro ⟨p, hp, large⟩
    rcases List.mem_cons.mp (mem.mp hp) with rfl | hp
    · rw [G.store.zero] at large
      omega
    · obtain ⟨x, hx, rfl⟩ := List.mem_map.mp hp
      rw [G.store.sizes x (List.mem_append_left L hx)] at large
      exact ⟨x, hx, large⟩

theorem allocate_brk {q p : Nat} : (allocate s nu q p).1.brk = s.brk := by
  rw [allocate]
  split <;> rfl

/-- If a block is large enough, the search ends at one. -/
theorem Good.malloc_found (sb : Nat → Heap × κ → Option ((Heap × κ) × Option Nat)) (c : κ) (G : Good base s F L)
    (pos : 0 < nu) (large : ∃ x ∈ F, nu ≤ x.2) (enough : F.length < fuel) : ∃ s' F' a,
      mallocFromBy sb nu fuel (s, c) s.freep (s.hdr s.freep).ptr = some ((s', c), a + HEADER) ∧
      s'.brk = s.brk ∧ Good base s' F' ((a, nu) :: L) := by
  obtain ⟨l, perm, ring⟩ := G.from_freep
  have nodup := List.nodup_cons.mp (perm.nodup G.nodup)
  have around : Path (fun p => (s.hdr p).ptr) (s.hdr s.freep).ptr (l ++ [s.freep]) (s.hdr s.freep).ptr :=
    path_cons_append.mpr ⟨ring.2, rfl⟩
  obtain ⟨p₀, hp₀, large₀⟩ := (G.sizes_around perm pos).mp large
  obtain ⟨p, found⟩ : ∃ p, (l ++ [s.freep]).find? (fun p => nu ≤ (s.hdr p).size) = some p :=
    Option.isSome_iff_exists.mp (List.find?_isSome.mpr ⟨p₀, hp₀, by simpa using large₀⟩)
  obtain ⟨hp, u, v, split, skip⟩ := List.find?_eq_some_iff_append.mp found
  have hp : nu ≤ (s.hdr p).size := by simpa using hp
  rw [split] at around
  have path := (path_cons_append.mp around).1
  -- the search does not get back to `freep` before `p`
  have short : u.length ≤ l.length := by
    have := congrArg List.length split
    simp only [List.length_append, List.length_cons, List.length_nil] at this
    omega
  have sub : ∀ x ∈ u, x ∈ l := by
    have := congrArg (List.take u.length) split
    rw [List.take_left, List.take_append_of_le_length short] at this
    exact fun x hx => List.mem_of_mem_take (this ▸ hx)
  have skips : ∀ x ∈ u, (s.hdr x).size < nu ∧ x ≠ s.freep := by
    intro x hx
    refine ⟨by simpa using skip x hx, ?_⟩
    rintro rfl
    exact nodup.1 (sub _ hx)
  have count : u.length < fuel := by
    have := perm.length_eq
    simp only [nodes, List.length_cons, List.length_map] at this
    omega
  obtain ⟨k, rfl⟩ : ∃ k, fuel = u.length + (k + 1) := ⟨fuel - u.length - 1, by omega⟩
  rw [mallocFrom_walk path skips, mallocFromBy, if_pos hp]
  have prev : (s.freep :: u).getLast (List.cons_ne_nil _ _) ∈ nodes base F := by
    rw [perm.mem_iff]
    rcases List.mem_cons.mp (List.getLast_mem (List.cons_ne_nil s.freep u)) with h | h
    · rw [h]
      exact List.mem_cons_self
    · exact List.mem_cons_of_mem _ (sub _ h)
  have next := Path_getLast (List.cons_ne_nil s.freep u) (show Path _ _ (s.freep :: u) p from ⟨rfl, path⟩)
  obtain ⟨s', F', a, done, G'⟩ := G.allocate prev next pos hp
  have brk := congrArg (fun y => y.1.brk) done
  rw [allocate_brk] at brk
  exact ⟨s', F', a, by rw [done], brk.symm, G'⟩

/-- If no block is large enough, the search comes around to `freep` and asks for more. -/
theorem Good.malloc_missed (G : Good base s F L) (pos : 0 < nu) (none : ∀ x ∈ F, x.2 < nu) {p : Nat}
    (more : morecoreBy sb fuel (s, c) nu = some ((s', c'), p)) :
    mallocFromBy sb nu (F.length + (fuel + 1)) (s, c) s.freep (s.hdr s.freep).ptr =
      if p = 0 then some ((s', c'), 0) else mallocFromBy sb nu fuel (s', c') p (s'.hdr p).ptr := by
  obtain ⟨l, perm, ring⟩ := G.from_freep
  have nodup := List.nodup_cons.mp (perm.nodup G.nodup)
  have small : ∀ p ∈ l ++ [s.freep], (s.hdr p).size < nu := by
    intro p hp
    by_contra large
    obtain ⟨x, hx, h⟩ := (G.sizes_around perm pos).mpr ⟨p, hp, Nat.le_of_not_lt large⟩
    exact absurd (none x hx) (Nat.not_lt_of_le h)
  have len : F.length = l.length := by
    have := perm.length_eq
    simpa only [nodes, List.length_cons, List.length_map, Nat.add_right_cancel_iff] using this
  rw [len, mallocFrom_walk ring.2 fun x hx => ⟨small x (List.mem_append_left _ hx), ?_⟩]
  · rw [mallocFromBy, if_neg (Nat.not_le_of_lt (small s.freep (by simp))), if_pos rfl,
      more]
  · rintro rfl
    exact nodup.1 hx

/-- The loop of `malloc` ends, with a new block in use or without, after one call of `sb` or none. -/
theorem Good.mallocFrom (answers : Answers sb s c (atLeast nu)) (G : Good base s F L) (pos : 0 < nu) : ∃ n s' c' F' r,
    mallocFromBy sb nu n (s, c) s.freep (s.hdr s.freep).ptr = some ((s', c'), r) ∧
      (c' = c ∧ s'.brk = s.brk ∨ ∃ t a, sb (atLeast nu * HEADER) (s, c) = some ((t, c'), a) ∧ s'.brk = t.brk) ∧
      (r = 0 ∧ Good base s' F' L ∨ ∃ a, r = a + HEADER ∧ Good base s' F' ((a, nu) :: L)) := by
  by_cases large : ∃ x ∈ F, nu ≤ x.2
  · obtain ⟨s', F', a, done, brk, G'⟩ := G.malloc_found sb c pos large (Nat.lt_succ_self F.length)
    exact ⟨_, s', c, F', _, done, .inl ⟨rfl, brk⟩, .inr ⟨a, rfl, G'⟩⟩
  · have none : ∀ x ∈ F, x.2 < nu := fun x hx => Nat.lt_of_not_le fun h => large ⟨x, hx, h⟩
    obtain ⟨t, c', a, asked, ⟨s', more, brk, G'⟩ | ⟨s', F', more, brk, G', large⟩⟩ :=
      G.morecore answers (Nat.lt_succ_self F.length)
    · exact ⟨_, s', c', F, 0, G.malloc_missed pos none more, .inr ⟨t, a, asked, brk⟩, .inl ⟨rfl, G'⟩⟩
    · have more' := morecoreBy_mono more (show F.length + 1 ≤ F.length + F'.length + 1 by omega)
      obtain ⟨s'', F'', b, done, brk', G''⟩ :=
        G'.malloc_found sb c' pos large (show F'.length < F.length + F'.length + 1 by omega)
      refine ⟨F.length + (F.length + F'.length + 1 + 1), s'', c', F'', b + HEADER, ?_,
        .inr ⟨t, a, asked, brk'.trans brk⟩, .inr ⟨b, rfl, G''⟩⟩
      rw [G.malloc_missed pos none more', if_neg G'.freep_pos.ne']
      exact done

theorem nunits_eq {n : Nat} (small : n < 2 ^ 32) : nunits n = (n + 15) / 16 + 1 :=
  uint_of_lt (by simp only [HEADER]; omega)

/-- The first call makes the ring. -/
theorem Start.prepare (S : Start base s) : Good base (prepare base s) [] [] := by
  rw [User.prepare, if_pos S.fresh]
  have none : Tiles HEADER [] s.regions := by
    rw [S.none]
    exact ⟨List.forall_mem_nil _, List.Pairwise.nil, fun u => by simp, rfl⟩
  refine ⟨⟨rfl, ?_⟩, List.mem_cons_self, by simp, ?_⟩
  · simp [Links.Path]
  · refine ⟨?_, List.forall_mem_nil _, none, S.nonnull, List.forall_mem_nil _, List.forall_mem_nil _,
      S.behind, ?_⟩
    · simp [uint]
    · show (s.regions.map Prod.snd).sum < 2 ^ 32
      rw [S.none]
      decide

theorem Good.prepare (G : Good base s F L) : User.prepare base s = s := if_neg G.freep_pos.ne'

/-! ## Sequences -/

/-- The block in front of an address that `malloc` has returned. -/
def Heap.block (s : Heap) (ap : Nat) : Extent := (ap - HEADER, (s.hdr (ap - HEADER)).size)

/-- The addresses that the program has of the blocks in use. -/
def addresses (L : List Extent) : List Nat := L.map fun x => x.1 + HEADER

theorem Good.blocks (G : Good base s F L) : (addresses L).map s.block = L := by
  rw [addresses, List.map_map]
  refine (List.map_congr_left fun x hx => ?_).trans (List.map_id L)
  have := G.store.sizes x (List.mem_append_right F hx)
  simp only [Function.comp_apply, Heap.block, Nat.add_sub_cancel, this, id]

/-- What a program finds between two calls. -/
def Between (base : Nat) (s : Heap) (live : List Nat) : Prop :=
  Start base s ∧ live = [] ∨ ∃ F L, Good base s F L ∧ live = addresses L

theorem prepare_brk : (prepare base s).brk = s.brk := by
  rw [User.prepare]
  split <;> rfl

theorem Between.prepare {live : List Nat} (B : Between base s live) :
    ∃ F L, Good base (User.prepare base s) F L ∧ live = addresses L := by
  rcases B with ⟨S, rfl⟩ | ⟨F, L, G, rfl⟩
  · exact ⟨[], [], S.prepare, rfl⟩
  · exact ⟨F, L, G.prepare.symm ▸ G, rfl⟩

/-- `malloc` returns, and what it returns is the address of a block that is large enough. -/
theorem Between.mallocBy {live : List Nat} (B : Between base s live) {n : Nat} (small : n < 2 ^ 32)
    (answers : Answers sb (User.prepare base s) c (atLeast (nunits n))) :
    ∃ N s' c' r, (∀ fuel, N ≤ fuel → User.mallocBy sb base fuel (s, c) n = some ((s', c'), r)) ∧
      (c' = c ∧ s'.brk = s.brk ∨
        ∃ t a, sb (atLeast (nunits n) * HEADER) (User.prepare base s, c) = some ((t, c'), a) ∧ s'.brk = t.brk) ∧
      (∃ F L, Good base s' F L ∧ (if r = 0 then live else r :: live) = addresses L) ∧
      (r ≠ 0 → n ≤ HEADER * ((s'.block r).2 - 1)) := by
  obtain ⟨F, L, G, rfl⟩ := B.prepare
  have units := nunits_eq small
  obtain ⟨N, s', c', F', r, done, asked, G'⟩ := G.mallocFrom answers (show 0 < nunits n by omega)
  rw [prepare_brk] at asked
  refine ⟨N, s', c', r, fun fuel le => mallocFromBy_mono done le, asked, ?_⟩
  rcases G' with ⟨rfl, G'⟩ | ⟨a, rfl, G'⟩
  · exact ⟨⟨F', L, G', rfl⟩, fun h => absurd rfl h⟩
  · refine ⟨⟨F', (a, nunits n) :: L, G', rfl⟩, fun _ => ?_⟩
    have size : (s'.hdr a).size = nunits n := G'.store.sizes (a, nunits n) (by simp)
    rw [Heap.block, Nat.add_sub_cancel, size, units]
    simp only [HEADER]
    omega

theorem Between.malloc (bounded : Bounded os) {live : List Nat} (B : Between base s live) {n : Nat}
    (small : n < 2 ^ 30) : ∃ N s' r, (∀ fuel, N ≤ fuel → malloc os base fuel s n = some (s', r)) ∧
      (∃ F L, Good base s' F L ∧ (if r = 0 then live else r :: live) = addresses L) ∧
      (r ≠ 0 → n ≤ HEADER * ((s'.block r).2 - 1)) := by
  obtain ⟨N, s', c', r, done, -, good, usable⟩ := B.mallocBy (small.trans (by decide)) (bounded.answers _ _)
  refine ⟨N, s', r, fun fuel le => ?_, good, usable⟩
  rw [malloc_eq, done fuel le]
  rfl

/-- `free` of a block in use returns. -/
theorem Between.free {live : List Nat} (B : Between base s live) {ap : Nat} (mem : ap ∈ live) :
    ∃ N s', (∀ fuel, N ≤ fuel → free fuel s ap = some s') ∧
      ∃ F L, Good base s' F L ∧ live.erase ap = addresses L := by
  rcases B with ⟨-, rfl⟩ | ⟨F, L, G, rfl⟩
  · cases mem
  · obtain ⟨l₁, l₂, -, split, erase⟩ := List.exists_erase_eq mem
    obtain ⟨L₁, L', rfl, rfl, h⟩ := List.map_eq_append_iff.mp split
    obtain ⟨x, L₂, rfl, rfl, rfl⟩ := List.map_eq_cons_iff.mp h
    obtain ⟨s', F', done, G', -⟩ := (G.perm List.perm_middle).free (Nat.lt_succ_self F.length)
    refine ⟨_, s', fun fuel le => free_mono done le, F', L₁ ++ L₂, G', ?_⟩
    rw [erase, addresses, List.map_append]

theorem Calls.between (bounded : Bounded os) {ops : List Op} {live : List Nat}
    (calls : Calls os base ops s live) :
    Between base s live ∧ (ops ≠ [] → ∃ F L, Good base s F L ∧ live = addresses L) := by
  induction calls with
  | start h => exact ⟨Or.inl ⟨h, rfl⟩, fun h => absurd rfl h⟩
  | @malloc ops s s' live n fuel r before small call ih =>
    obtain ⟨N, t, r', done, ⟨F, L, G, eq⟩, -⟩ := ih.1.malloc bounded small
    have same := done (max N fuel) (Nat.le_max_left ..)
    have : User.malloc os base (max N fuel) s n = some (s', r) := mallocFrom_mono call (Nat.le_max_right ..)
    obtain ⟨rfl, rfl⟩ : s' = t ∧ r = r' := by
      rw [this] at same
      simpa using same
    exact ⟨Or.inr ⟨F, L, G, eq⟩, fun _ => ⟨F, L, G, eq⟩⟩
  | @free ops s s' live ap fuel before mem call ih =>
    obtain ⟨N, t, done, F, L, G, eq⟩ := ih.1.free mem
    have same := done (max N fuel) (Nat.le_max_left ..)
    obtain rfl : s' = t := by
      rw [free_mono call (Nat.le_max_right ..)] at same
      simpa using same
    exact ⟨Or.inr ⟨F, L, G, eq⟩, fun _ => ⟨F, L, G, eq⟩⟩

/-- After any sequence of calls the free list is a ring through `base` in the order of the
addresses, its blocks and those in use make up the memory of the program, and the next call
returns. -/
theorem heap_in_order (bounded : Bounded os) {ops : List Op} {live : List Nat}
    (calls : Calls os base ops s live) :
    (ops ≠ [] → ∃ F, Good base s F (live.map s.block) ∧
      ∀ u, (∃ r ∈ s.regions, Has HEADER u r) → ∃! b, b ∈ F ++ live.map s.block ∧ Has HEADER u b) ∧
    (∀ n < 2 ^ 30, ∃ N s' r, (∀ fuel, N ≤ fuel → malloc os base fuel s n = some (s', r)) ∧
      (r ≠ 0 → n ≤ HEADER * ((s'.block r).2 - 1))) ∧
    ∀ ap ∈ live, ∃ N s', ∀ fuel, N ≤ fuel → free fuel s ap = some s' := by
  obtain ⟨B, later⟩ := calls.between bounded
  refine ⟨fun h => ?_, fun n small => ?_, fun ap mem => ?_⟩
  · obtain ⟨F, L, G, rfl⟩ := later h
    rw [G.blocks]
    exact ⟨F, G, fun u given => G.store.tiles.unique (by decide) given⟩
  · obtain ⟨N, s', r, done, -, usable⟩ := B.malloc bounded small
    exact ⟨N, s', r, done, usable⟩
  · obtain ⟨N, s', done, -⟩ := B.free mem
    exact ⟨N, s', done⟩

/-! ## Two programs -/

/-- Make the calls one after the other, as long as they are ones that a program may make. -/
def play (os : Os) (base fuel : Nat) : List Op → Heap → List Nat → Option (Heap × List Nat)
  | [], s, live => some (s, live)
  | .malloc n :: ops, s, live =>
    if n < 2 ^ 30 then
      match malloc os base fuel s n with
      | some (s, r) => play os base fuel ops s (if r = 0 then live else r :: live)
      | none => none
    else none
  | .free ap :: ops, s, live =>
    if ap ∈ live then
      match free fuel s ap with
      | some s => play os base fuel ops s (live.erase ap)
      | none => none
    else none

theorem Calls.play {ops₀ ops : List Op} {live live' : List Nat} (before : Calls os base ops₀ s live)
    (h : play os base fuel ops s live = some (s', live')) : Calls os base (ops₀ ++ ops) s' live' := by
  induction ops generalizing ops₀ s live with
  | nil =>
    obtain ⟨rfl, rfl⟩ : s = s' ∧ live = live' := by simpa [User.play] using h
    simpa using before
  | cons op ops ih =>
    rw [← List.singleton_append, ← List.append_assoc]
    cases op with
    | malloc n =>
      rw [User.play] at h
      split at h
      · rename_i small
        split at h
        · rename_i call
          exact ih (before.malloc small call) h
        · cases h
      · cases h
    | free ap =>
      rw [User.play] at h
      split at h
      · rename_i mem
        split at h
        · rename_i call
          exact ih (before.free mem call) h
        · cases h
      · cases h

end Calls

/-- The program before its first call, with `base` at 4096. -/
def emptyHeap : Heap := ⟨fun _ => ⟨0, 0⟩, 0, 4112, [], 0⟩

theorem emptyHeap_start : Start 4096 emptyHeap := ⟨by decide, by decide, rfl, rfl⟩

/-- A kernel that gives memory without gaps, up to a limit. -/
def frugal : Os := fun _ units bytes => if units + bytes / HEADER < 2 ^ 32 then some 0 else none

theorem frugal_bounded : Bounded frugal := by
  intro call units bytes gap h
  rw [frugal] at h
  split at h
  · assumption
  · cases h

theorem heap_in_order_once : ∃ s, Calls frugal 4096 [.malloc 100, .free 69536, .malloc 7] s [69632] ∧
    ∃ F, Good 4096 s F [s.block 69632] := by
  have played : ((play frugal 4096 9 [.malloc 100, .free 69536, .malloc 7] emptyHeap []).map Prod.snd) =
      some [69632] := by decide +kernel
  obtain ⟨⟨s, live⟩, run, rfl⟩ := Option.map_eq_some_iff.mp played
  have calls := (Calls.start emptyHeap_start).play run
  obtain ⟨F, G, -⟩ := (heap_in_order frugal_bounded calls).1 (by simp)
  exact ⟨s, calls, F, G⟩

/-- A kernel that gives memory without gaps and without end. -/
def generous : Os := fun _ _ _ => some 0

/-- 64 blocks of 2^26 headers each are taken and given back. -/
def chunks : List Op :=
  List.replicate 64 (.malloc (2 ^ 30 - 16)) ++ (List.range 64).map fun k => .free (4128 + k * 2 ^ 30)

/-- The blocks touch and are joined into one of 2^32 headers, which is stored as 0. The free list
then has no header, although nothing is in use and the kernel has given 2^32 of them. -/
theorem size_wraps : ∃ s, Calls generous 4096 chunks s [] ∧ s.units = 2 ^ 32 ∧
    (s.hdr 4096).ptr = 4112 ∧ (s.hdr 4112).ptr = 4096 ∧ (s.hdr 4096).size = 0 ∧ (s.hdr 4112).size = 0 := by
  have played : ((play generous 4096 9 chunks emptyHeap []).any fun x => x.2 = [] ∧ x.1.units = 2 ^ 32 ∧
      (x.1.hdr 4096).ptr = 4112 ∧ (x.1.hdr 4112).ptr = 4096 ∧ (x.1.hdr 4096).size = 0 ∧
      (x.1.hdr 4112).size = 0) = true := by decide +kernel
  obtain ⟨⟨s, live⟩, run, test⟩ := (Option.any_eq_true ..).mp played
  obtain ⟨rfl, test⟩ := of_decide_eq_true test
  exact ⟨s, (Calls.start emptyHeap_start).play run, test⟩

end Xv6.User
